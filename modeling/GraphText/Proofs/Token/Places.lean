import GraphText.Reader.TokenStream
import Mathlib.Logic.Relation

/-!
# Places in a text

Where the words of a text stand, and what a stream has to do with it. A stream
is read in layers, but whatever it gives carries a position in the text at the
bottom: a word of the text stands where it starts, and a word of an expansion
where the `$` of the outermost expansion stands. That `$` is a word of the text
itself, because an inner expansion takes the position of the one around it.

The same holds of what cannot be read. The only words that can be flawed are
quoted strings.

## Main definitions

* `Cursor.Within`: the cursors of a text.
* `HasWord`, `HasFlaw`: what a text has at a position.
* `TokenStream.IsOf`: the streams of a text.
* `TokenStream.place`: where the next token of a stream stands.
* `TokenStream.isExpanding`: whether it stands in an expansion.

## Theorems

* `TokenStream.IsOf.place_of_isExpanding`: a token of an expansion stands at a `$`.
* `TokenStream.IsOf.place_of_not_isExpanding`: any other token stands where the
  text has it.
-/

namespace GraphText

/-- Whether reading a text comes to this cursor. -/
def Cursor.Within (text : String) : Cursor → Prop :=
  Relation.ReflTransGen (fun a b => ∃ token, a.next = .ok (token, b)) (.ofText text)

/-- Whether a text has this word, or its end, at this position. -/
def HasWord (text : String) (word : Lexeme) (p : Position) : Prop :=
  ∃ c after, Cursor.Within text c ∧ c.next = .ok (⟨word, p⟩, after)

/-- Whether a text has a quoted string at this position that cannot be read. -/
def HasFlaw (text : String) (p : Position) : Prop :=
  ∃ c flaw rest, Cursor.Within text c ∧ c.next = .error flaw ∧ c.tokenStart.position = p ∧
    c.tokenStart.rest = '"' :: rest

/-- Only a quoted string can be flawed. -/
theorem Lexeme.eq_quote_of_read {cs : List Char} {flaw : Text.Quoted.Flaw}
    (h : read cs = .error flaw) : ∃ rest, cs = '"' :: rest := by
  cases cs with
  | nil => cases h
  | cons c rest =>
      rw [read] at h
      split at h
      next hc => exact ⟨rest, by rw [hc]⟩
      · repeat' split at h
        all_goals cases h

theorem Cursor.hasFlaw_of_next {text : String} {c : Cursor} {flaw : Text.Quoted.Flaw}
    (hc : Within text c) (h : c.next = .error flaw) : HasFlaw text c.tokenStart.position := by
  rcases Lexeme.eq_quote_of_read (next_eq_error_iff.1 h) with ⟨rest, hrest⟩
  exact ⟨c, flaw, rest, hc, h, rfl, hrest⟩

/-- Only at its end a text gives the end. -/
theorem Cursor.next_eof_iff {c : Cursor} :
    (∃ t d, c.next = .ok (t, d) ∧ t.lexeme = .eof) ↔ c.tokenStart.rest = [] := by
  constructor
  · rintro ⟨t, d, h, heof⟩
    rcases next_eq_ok_iff.1 h with ⟨n, hread, -, -⟩
    rw [heof] at hread
    exact Lexeme.eq_nil_of_read_eof hread
  · intro hnil
    exact ⟨⟨.eof, c.tokenStart.position⟩, c.tokenStart.advance 0,
      next_eq_ok_iff.2 ⟨0, by rw [hnil]; rfl, rfl, rfl⟩, rfl⟩

namespace TokenStream

/-- Where the next token stands, or the one that cannot be read. -/
def place (s : TokenStream) : Position :=
  match s.next with
  | .ok (token, _) => token.position
  | .error (_, p) => p

/-- Whether something is left of an expansion, so that the next token stands in it. -/
def isExpanding (s : TokenStream) : Bool :=
  s.expansions.any fun e => !e.cursor.tokenStart.rest.isEmpty

/-- The streams of a text: what is left of it, behind expansions that were started by a `$` of it.
    -/
structure IsOf (text : String) (s : TokenStream) : Prop where
  base : Cursor.Within text s.base
  origin : ∀ e ∈ s.expansions, HasWord text (.punct '$') e.origin

variable {text : String} {s after : TokenStream} {token : Token}

theorem isOf_ofText (text : String) : (ofText text).IsOf text :=
  ⟨.refl, by simp [ofText]⟩

theorem place_of_next (h : s.next = .ok (token, after)) : s.place = token.position := by
  simp [place, h]

theorem place_of_flaw {flaw : Text.Quoted.Flaw} {p : Position} (h : s.next = .error (flaw, p)) :
    s.place = p := by
  simp [place, h]

/-- Reading goes on in what is left of the text, or in what is left of its expansions. -/
theorem IsOf.nextFrom {base : Cursor} {es : List Expansion} (hs : IsOf text ⟨base, es⟩)
    (h : nextFrom base es = .ok (token, after)) : after.IsOf text := by
  -- The token is found in the first layer that has one, and the layers above are given up.
  induction es with
  | nil =>
      rw [TokenStream.nextFrom] at h
      split at h
      · cases h
      next hnext =>
        cases h
        exact ⟨hs.base.tail ⟨_, hnext⟩, by simp⟩
  | cons e es ih =>
      rw [TokenStream.nextFrom] at h
      split at h
      · cases h
      · split at h
        · exact ih ⟨hs.base, fun d hd => hs.origin d (List.mem_cons_of_mem _ hd)⟩ h
        · cases h
          refine ⟨hs.base, fun d hd => ?_⟩
          rcases List.mem_cons.1 hd with rfl | hd
          · exact hs.origin e List.mem_cons_self
          · exact hs.origin d (List.mem_cons_of_mem _ hd)

theorem IsOf.next (hs : s.IsOf text) (h : s.next = .ok (token, after)) : after.IsOf text :=
  hs.nextFrom h

/-- An expansion that a `$` of the text starts, or of an expansion of it. -/
theorem IsOf.splice (hs : s.IsOf text) (value : String) {origin : Position}
    (h : HasWord text (.punct '$') origin) : (s.splice value origin).IsOf text := by
  refine ⟨hs.base, fun e he => ?_⟩
  rcases List.mem_cons.1 he with rfl | he
  · exact h
  · exact hs.origin e he

/-- What is read in an expansion stands where an expansion was started. -/
theorem exists_origin (h : s.isExpanding = true) : ∃ e ∈ s.expansions, s.place = e.origin := by
  rcases s with ⟨base, es⟩
  induction es with
  | nil => simp [isExpanding] at h
  | cons e es ih =>
      cases hnext : e.cursor.next with
      | error flaw => exact ⟨e, List.mem_cons_self, by simp [place, next, nextFrom, hnext]⟩
      | ok r =>
          rcases r with ⟨t, rest⟩
          by_cases heof : t.lexeme = .eof
          · have hnil := Cursor.next_eof_iff.1 ⟨t, rest, hnext, heof⟩
            have hinner : isExpanding ⟨base, es⟩ = true := by
              simpa [isExpanding, hnil] using h
            rcases ih hinner with ⟨d, hd, hplace⟩
            refine ⟨d, List.mem_cons_of_mem _ hd, ?_⟩
            rw [← hplace]
            simp [place, next, nextFrom, hnext, heof]
          · exact ⟨e, List.mem_cons_self, by simp [place, next, nextFrom, hnext, heof]⟩

/-- Behind expansions that have ended, the text itself is read. -/
theorem next_of_not_isExpanding (h : s.isExpanding = false) : s.next = nextFrom s.base [] := by
  rcases s with ⟨base, es⟩
  induction es with
  | nil => rfl
  | cons e es ih =>
      rw [isExpanding, List.any_cons, Bool.or_eq_false_iff] at h
      rcases Cursor.next_eof_iff.2 (show e.cursor.tokenStart.rest = [] by simpa using h.1) with
        ⟨t, rest, hnext, heof⟩
      rw [← ih h.2]
      simp [next, nextFrom, hnext, heof]

/-- A token of an expansion, even one that cannot be read, stands at a `$` of the text. -/
theorem IsOf.place_of_isExpanding (hs : s.IsOf text) (h : s.isExpanding = true) :
    HasWord text (.punct '$') s.place := by
  rcases exists_origin h with ⟨e, he, hplace⟩
  rw [hplace]
  exact hs.origin e he

/-- Any other token stands where the text has it, and one that cannot be read where the text has a
    flawed string. -/
theorem IsOf.place_of_not_isExpanding (hs : s.IsOf text) (h : s.isExpanding = false) :
    (∃ token after, s.next = .ok (token, after) ∧ HasWord text token.lexeme s.place) ∨
      (∃ flaw, s.next = .error (flaw, s.place)) ∧ HasFlaw text s.place := by
  have hnext := next_of_not_isExpanding h
  rw [TokenStream.nextFrom] at hnext
  split at hnext
  next flaw hflaw =>
    rw [place_of_flaw hnext]
    exact .inr ⟨⟨flaw, hnext⟩, Cursor.hasFlaw_of_next hs.base hflaw⟩
  next token after hword =>
    rw [place_of_next hnext]
    exact .inl ⟨token, _, hnext, s.base, after, hs.base, hword⟩

/-- A `$` that is read stands at a `$` of the text, be it that one or not. -/
theorem IsOf.hasWord_of_dollar (hs : s.IsOf text) (h : s.next = .ok (token, after))
    (hl : token.lexeme = .punct '$') : HasWord text (.punct '$') token.position := by
  rw [← place_of_next h]
  cases hexp : s.isExpanding with
  | true => exact hs.place_of_isExpanding hexp
  | false =>
      rcases hs.place_of_not_isExpanding hexp with ⟨t, rest, hnext, hword⟩ | ⟨⟨flaw, hflaw⟩, -⟩
      · rw [h] at hnext
        cases hnext
        rwa [hl] at hword
      · rw [h] at hflaw
        cases hflaw

end TokenStream

end GraphText
