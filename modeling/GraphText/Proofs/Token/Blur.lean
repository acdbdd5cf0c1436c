import GraphText.Reader.TokenStream
import Mathlib.Data.List.Forall2

/-!
# What is seen of a position

Two texts may be read alike although their tokens do not stand at the same
places. How much of a place is the same in both depends on the texts: the column,
if one has some more lines in front; nothing at all, if something stands in the
middle of a line of one of them and not of the other. So there is a view of
positions, which all that follows is relative to. Behind the same characters two
positions must look the same if they did in front of them. Then reading goes on
in the same way from there, whatever cannot be seen.

Streams that look the same have as many layers. Where a layer stands in its own
text matters as little as where the token comes from.

## Main definitions

* `Blur`: a view of positions.
* `Blur.placeless`: nothing is seen of a position.
* `Blur.Cursors`, `Blur.Streams`: the same is left, and it looks the same.

## Theorems

* `Blur.Cursors.next`, `Blur.Streams.next`: the next token, if it is the same.
-/

namespace GraphText

/-- What is seen of a position. -/
structure Blur where
  view : Position → Position
  after : ∀ {p q : Position}, view p = view q → ∀ cs, view (p.after cs) = view (q.after cs)

namespace Blur

/-- Nothing is seen of a position. -/
def placeless : Blur where
  view := fun _ => .start
  after := fun _ _ => rfl

/-- The cursors stand, behind blanks and comments, in front of the same characters at places that
    look the same. -/
structure Cursors (b : Blur) (c d : Cursor) : Prop where
  rest : c.tokenStart.rest = d.tokenStart.rest
  place : b.view c.tokenStart.position = b.view d.tokenStart.position

/-- The streams have the same words left in every layer, at places that look the same. -/
structure Streams (b : Blur) (s t : TokenStream) : Prop where
  base : b.Cursors s.base t.base
  expansions : List.Forall₂
    (fun e f => b.Cursors e.cursor f.cursor ∧ b.view e.origin = b.view f.origin) s.expansions
      t.expansions

variable {b : Blur}

namespace Cursors

variable {c d : Cursor}

theorem of_rest (hrest : c.rest = d.rest) (hplace : b.view c.position = b.view d.position) :
    b.Cursors c d := by
  have hstart : ∀ e : Cursor, e.tokenStart = e.advance (Trivia.leading false e.rest).length :=
    fun _ => rfl
  constructor
  · rw [hstart, hstart, Cursor.advance, Cursor.advance, hrest]
  · rw [hstart, hstart, Cursor.advance, Cursor.advance, hrest]
    exact b.after hplace _

theorem refl (c : Cursor) : b.Cursors c c :=
  ⟨rfl, rfl⟩

/-- Cursors that look the same give the same token, at places that look the same, and look the same
    behind it. -/
theorem next (h : b.Cursors c d) :
    (∃ flaw, c.next = .error flaw ∧ d.next = .error flaw) ∨
      ∃ l p q c' d', c.next = .ok (⟨l, p⟩, c') ∧ d.next = .ok (⟨l, q⟩, d') ∧
        b.view p = b.view q ∧ b.Cursors c' d' := by
  have hnext : ∀ e : Cursor, e.next = (Lexeme.read e.tokenStart.rest).map fun r =>
      (⟨r.1, e.tokenStart.position⟩, e.tokenStart.advance r.2) := fun _ => rfl
  rw [hnext c, hnext d, ← h.rest]
  cases Lexeme.read c.tokenStart.rest with
  | error flaw => exact .inl ⟨flaw, rfl, rfl⟩
  | ok r =>
      refine .inr ⟨r.1, _, _, _, _, rfl, rfl, h.place, of_rest ?_ ?_⟩
      · simp only [Cursor.advance, h.rest]
      · simp only [Cursor.advance, h.rest]
        exact b.after h.place _

end Cursors

namespace Streams

variable {s t : TokenStream}

/-- Streams that look the same give the same token, or the same flaw, and look the same behind
    it. -/
theorem next (h : b.Streams s t) :
    (∃ flaw p q, s.next = .error (flaw, p) ∧ t.next = .error (flaw, q) ∧ b.view p = b.view q) ∨
      ∃ l p q s' t', s.next = .ok (⟨l, p⟩, s') ∧ t.next = .ok (⟨l, q⟩, t') ∧
        b.view p = b.view q ∧ b.Streams s' t' := by
  rcases s with ⟨base, es⟩
  rcases t with ⟨base', es'⟩
  rcases h with ⟨hbase, hexpansions⟩
  unfold TokenStream.next
  simp only at hbase hexpansions ⊢
  -- The induction is on the expansions, of which there are as many on either side.
  induction hexpansions with
  | nil =>
      rcases hbase.next with ⟨flaw, hs, ht⟩ | ⟨l, p, q, c, d, hs, ht, hplace, hnext⟩
      · refine .inl ⟨flaw, base.tokenStart.position, base'.tokenStart.position, ?_, ?_,
          hbase.place⟩
        · rw [TokenStream.nextFrom, hs]
        · rw [TokenStream.nextFrom, ht]
      · refine .inr ⟨l, p, q, ⟨c, []⟩, ⟨d, []⟩, ?_, ?_, hplace, hnext, .nil⟩
        · rw [TokenStream.nextFrom, hs]
        · rw [TokenStream.nextFrom, ht]
  | @cons e f es fs hlayer hrest ih =>
      rcases hlayer.1.next with ⟨flaw, hs, ht⟩ | ⟨l, p, q, c, d, hs, ht, -, hnext⟩
      · refine .inl ⟨flaw, e.origin, f.origin, ?_, ?_, hlayer.2⟩
        · rw [TokenStream.nextFrom, hs]
        · rw [TokenStream.nextFrom, ht]
      · by_cases hl : l = .eof
        · -- Both layers are at their end.
          have hs' : TokenStream.nextFrom base (e :: es) = TokenStream.nextFrom base es := by
            rw [TokenStream.nextFrom, hs]
            exact if_pos hl
          have ht' : TokenStream.nextFrom base' (f :: fs) = TokenStream.nextFrom base' fs := by
            rw [TokenStream.nextFrom, ht]
            exact if_pos hl
          rw [hs', ht']
          exact ih
        · refine .inr ⟨l, e.origin, f.origin, ⟨base, ⟨c, e.origin⟩ :: es⟩,
            ⟨base', ⟨d, f.origin⟩ :: fs⟩, ?_, ?_, hlayer.2, hbase, .cons ⟨hnext, hlayer.2⟩ hrest⟩
          · rw [TokenStream.nextFrom, hs]
            exact if_neg hl
          · rw [TokenStream.nextFrom, ht]
            exact if_neg hl

theorem splice (h : b.Streams s t) (text : String) {p q : Position}
    (hplace : b.view p = b.view q) : b.Streams (s.splice text p) (t.splice text q) :=
  ⟨h.base, .cons ⟨.refl _, hplace⟩ h.expansions⟩

theorem refl (s : TokenStream) : b.Streams s s :=
  ⟨.refl s.base, List.forall₂_same.2 fun _ _ => ⟨.refl _, rfl⟩⟩

end Streams

end Blur

end GraphText
