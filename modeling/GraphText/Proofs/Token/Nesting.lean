import GraphText.Proofs.Token.Marks
import GraphText.Reader.TokenStream

/-!
# Tokens inside of constants

A token stands in the text of the document or in the text of a constant that has
been inserted somewhere: in place of a `$` and a name, which stand in a text of
their own. So every token is inside of some insertions, the innermost first, and
which ones these are is a matter of the texts alone. Each insertion is told from
all others by where its name stands: it is a certain token of a certain text,
which is that of the next insertion or that of the document.

A stream keeps layers instead, and does not leave a layer when it has ended. Its
layers may be more than the insertions that the next token is inside of, but
when the token has been read they are just these. That is what `Holds` is for:
it says of each layer which insertion it is and how many tokens of its text have
been read.

A text is read up to its end or to a string that cannot be read, whichever comes
first; nothing behind such a string is ever a token.

## Main definitions

* `Cursor.readable`: the tokens of a text.
* `Insertion`, `Spot`: insertions, and tokens with the insertions around them.
* `Insertion.Contain`: a word stands in each of some insertions.
* `TokenStream.Holds`: the layers of a stream are these insertions.

## Theorems

* `TokenStream.next_of_holds`: the next token, and the layers when it has been read.
-/

namespace GraphText

namespace Cursor

/-- The tokens up to the end or to the first one that cannot be read. -/
def readable (c : Cursor) : List Token :=
  match _read : c.next with
  | .error _ => []
  | .ok (token, after) =>
    if _more : token.lexeme = .eof then [] else token :: readable after
termination_by c.rest.length
decreasing_by exact next_rest_lt _read _more

variable {c after : Cursor} {token : Token}

theorem readable_of_next (h : c.next = .ok (token, after)) (hmore : token.lexeme ≠ .eof) :
    c.readable = token :: after.readable := by
  rw [readable]
  split
  next hread =>
    rw [h] at hread
    cases hread
  next hread =>
    rw [h] at hread
    cases hread
    rw [dif_neg hmore]

theorem readable_of_eof (h : c.next = .ok (token, after)) (heof : token.lexeme = .eof) :
    c.readable = [] := by
  rw [readable]
  split
  · rfl
  next hread =>
    rw [h] at hread
    cases hread
    rw [dif_pos heof]

/-- Behind the end there is nothing. -/
theorem readable_behind_eof (h : c.next = .ok (token, after)) (heof : token.lexeme = .eof) :
    after.readable = [] := by
  rcases tokens_eq_ok_nil (tokens_of_eof h heof) with ⟨last, rest, hlast, hend⟩
  exact readable_of_eof hlast hend

end Cursor

/-- The word that is this token of a text. -/
def wordAt (text : String) (index : Nat) : Option Lexeme :=
  (Cursor.ofText text).readable[index]?.map Token.lexeme

/-- A constant that is inserted: its name and its text, the place at which its tokens are shown, and
    which token of the text around it the name is. -/
structure Insertion where
  name : String
  text : String
  origin : Position
  index : Nat
  deriving DecidableEq

/-- A token as it is shown, which token of its text it is, and the insertions that it is inside of,
    the innermost first. -/
structure Spot where
  token : Token
  index : Nat
  within : List Insertion
  deriving DecidableEq

namespace Insertion

/-- The tokens of an insertion that is inside of others. -/
def spots (u : Insertion) (outer : List Insertion) : List Spot :=
  (Cursor.ofText u.text).readable.mapIdx fun i t => ⟨⟨t.lexeme, u.origin⟩, i, u :: outer⟩

/-- Whether a word is this token of the text of the innermost insertion, and the name of each
    insertion is the one of the next that it should be. -/
def Contain (l : Lexeme) (index : Nat) : List Insertion → Prop
  | [] => True
  | u :: outer => wordAt u.text index = some l ∧ Contain (.name u.name) u.index outer

end Insertion

namespace Spot

/-- The tokens of a text that nothing is around. -/
def ofCursor (c : Cursor) : List Spot :=
  c.readable.mapIdx fun i t => ⟨t, i, []⟩

/-- The token is where it is said to be in the innermost insertion. -/
def Stands (m : Spot) : Prop :=
  ∀ u outer, m.within = u :: outer → wordAt u.text m.index = some m.token.lexeme

/-- Behind a token of an insertion comes the next token of the insertion, if it has one, and behind
    a token of the document comes one of the document. -/
structure Precedes (m next : Spot) : Prop where
  bare : m.within = [] → next.within = []
  inside : ∀ u outer, m.within = u :: outer → wordAt u.text (m.index + 1) ≠ none →
    next.within = u :: outer ∧ next.index = m.index + 1

end Spot

section

variable {α β : Type} {f : Nat → α → β} {l : List α} {k : Nat}

/-- The rest of a numbered list, by the rest of the list. -/
theorem drop_mapIdx_eq_nil (h : l.drop k = []) : (l.mapIdx f).drop k = [] := by
  rw [List.drop_eq_nil_iff] at h ⊢
  rwa [List.length_mapIdx]

theorem drop_mapIdx_eq_cons {a : α} {rest : List α} (h : l.drop k = a :: rest) :
    (l.mapIdx f).drop k = f k a :: (l.mapIdx f).drop (k + 1) ∧ l[k]? = some a ∧
      rest = l.drop (k + 1) := by
  have hlt : k < l.length := by
    refine Nat.lt_of_not_le fun hle => ?_
    rw [List.drop_eq_nil_of_le hle] at h
    cases h
  rw [List.drop_eq_getElem_cons hlt, List.cons.injEq] at h
  rcases h with ⟨rfl, rfl⟩
  have hlt' : k < (l.mapIdx f).length := by rwa [List.length_mapIdx]
  refine ⟨?_, List.getElem?_eq_getElem hlt, rfl⟩
  rw [List.drop_eq_getElem_cons hlt', List.getElem_mapIdx]

end

namespace TokenStream

/-- The layers of a stream are these insertions, and these tokens are left: of each layer those
    behind the first few of its text. -/
inductive Holds : TokenStream → List Insertion → List Spot → Prop where
  | base {base first k} (h : base.readable = first.readable.drop k) :
      Holds ⟨base, []⟩ [] ((Spot.ofCursor first).drop k)
  | layer {base e es u us k left} (h : e.cursor.readable = (Cursor.ofText u.text).readable.drop k)
      (horigin : e.origin = u.origin) (hbelow : Holds ⟨base, es⟩ us left) :
      Holds ⟨base, e :: es⟩ (u :: us) ((u.spots us).drop k ++ left)

variable {s after : TokenStream} {us : List Insertion} {left : List Spot} {token : Token}

theorem holds_ofText (text : String) :
    (ofText text).Holds [] (Spot.ofCursor (ofText text).base) := by
  have hall : (Cursor.ofText text).readable = (Cursor.ofText text).readable.drop 0 := rfl
  exact .base hall

/-- There are as many layers as insertions. -/
theorem depth_of_holds (h : s.Holds us left) : s.depth = us.length := by
  induction h with
  | base => rfl
  | layer _ _ _ ih => exact congrArg (· + 1) ih

/-- A constant that is put in front of what is left is one more insertion. -/
theorem Holds.splice (h : s.Holds us left) (u : Insertion) :
    (s.splice u.text u.origin).Holds (u :: us) (u.spots us ++ left) :=
  .layer (e := ⟨.ofText u.text, u.origin⟩) (k := 0) rfl rfl h

/-- Reading comes to the end when nothing is left. Otherwise it comes to the first token that is
    left, and then the layers are the insertions that this token is inside of, in each of which it
    stands where it is said to. -/
theorem next_of_holds (h : s.Holds us left) (hnext : s.next = .ok (token, after)) :
    (token.lexeme = .eof ∧ left = [] ∧ after.Holds [] []) ∨
      ∃ m rest, token.lexeme ≠ .eof ∧ left = m :: rest ∧ m.token = token ∧
        after.Holds m.within rest ∧ m.within <:+ us ∧ m.Stands ∧
        ∀ u outer, m.within = u :: outer →
          ∃ below, rest = (u.spots outer).drop (m.index + 1) ++ below := by
  induction h with
  | @base base first k h =>
      rw [next, nextFrom] at hnext
      split at hnext
      · cases hnext
      next t c hread =>
        cases hnext
        by_cases heof : token.lexeme = .eof
        · have hnil := Cursor.readable_of_eof hread heof
          rw [hnil] at h
          have hleft : (Spot.ofCursor first).drop k = [] := drop_mapIdx_eq_nil h.symm
          refine .inl ⟨heof, hleft, ?_⟩
          rw [← hleft]
          exact .base ((Cursor.readable_behind_eof hread heof).trans h)
        · have hcons := Cursor.readable_of_next hread heof
          rw [hcons] at h
          rcases drop_mapIdx_eq_cons (f := fun i t => (⟨t, i, []⟩ : Spot)) h.symm with
            ⟨hleft, -, hrest⟩
          refine .inr ⟨_, _, heof, hleft, rfl, .base hrest, List.suffix_refl _, ?_, ?_⟩
          · intro u outer hin
            cases hin
          · intro u outer hin
            cases hin
  | @layer base e es u us k left h horigin hbelow ih =>
      rw [next, nextFrom] at hnext
      split at hnext
      · cases hnext
      next t c hread =>
        by_cases heof : t.lexeme = .eof
        -- A layer that has ended is left on the way.
        · rw [if_pos heof] at hnext
          rw [Cursor.readable_of_eof hread heof] at h
          rw [show (u.spots us).drop k = [] from drop_mapIdx_eq_nil h.symm, List.nil_append]
          rcases ih hnext with hend | ⟨m, rest, hmore, hleft, htoken, hafter, hsuffix, hrest⟩
          · exact .inl hend
          · exact .inr ⟨m, rest, hmore, hleft, htoken, hafter,
              hsuffix.trans (List.suffix_cons u us), hrest⟩
        · rw [if_neg heof] at hnext
          cases hnext
          rw [Cursor.readable_of_next hread heof] at h
          rcases drop_mapIdx_eq_cons
            (f := fun i t => (⟨⟨t.lexeme, u.origin⟩, i, u :: us⟩ : Spot)) h.symm with
            ⟨hleft, hget, hrest⟩
          have hafter : Holds ⟨base, ⟨c, e.origin⟩ :: es⟩ (u :: us)
              ((u.spots us).drop (k + 1) ++ left) := .layer hrest horigin hbelow
          refine .inr ⟨_, _, heof, congrArg (· ++ left) hleft, by rw [horigin], hafter,
            List.suffix_refl _, ?_, ?_⟩
          · intro v outer hin
            cases hin
            rw [wordAt, hget]
            rfl
          · intro v outer hin
            cases hin
            exact ⟨left, rfl⟩

/-- A token that has been read precedes the one that is read next. -/
theorem precedes_of_holds {m n : Spot} {rest others : List Spot}
    (hrest : ∀ u outer, m.within = u :: outer →
      ∃ below, rest = (u.spots outer).drop (m.index + 1) ++ below)
    (hn : rest = n :: others) (hsuffix : n.within <:+ m.within) : m.Precedes n where
  bare hnil := by
    rw [hnil] at hsuffix
    exact List.suffix_nil.1 hsuffix
  inside u outer hin hword := by
    rcases hrest u outer hin with ⟨below, hbelow⟩
    -- What is left of the insertion begins with the token that it has there.
    rcases Option.ne_none_iff_exists'.1 hword with ⟨l, hl⟩
    rcases Option.map_eq_some_iff.1 hl with ⟨t, ht, -⟩
    have hcons : (Cursor.ofText u.text).readable.drop (m.index + 1) =
        t :: (Cursor.ofText u.text).readable.drop (m.index + 2) := by
      rcases List.getElem?_eq_some_iff.1 ht with ⟨hlt, rfl⟩
      exact List.drop_eq_getElem_cons hlt
    rcases drop_mapIdx_eq_cons
      (f := fun i t => (⟨⟨t.lexeme, u.origin⟩, i, u :: outer⟩ : Spot)) hcons with ⟨hleft, -⟩
    rw [hn, Insertion.spots, hleft] at hbelow
    cases hbelow
    exact ⟨rfl, rfl⟩

/-- The tokens of a `$` and of the name behind it, and the layers when both have been read. -/
theorem spots_of_name {dollar name : Token} {behind : TokenStream} {word : String}
    (h : s.Holds us left) (hdollar : s.next = .ok (dollar, after))
    (hl : dollar.lexeme = .punct '$') (hname : after.next = .ok (name, behind))
    (hword : name.lexeme = .name word) :
    ∃ d n rest, left = d :: n :: rest ∧ d.token = dollar ∧ n.token = name ∧ d.Stands ∧ n.Stands ∧
      d.Precedes n ∧ d.within <:+ us ∧ n.within <:+ us ∧ behind.Holds n.within rest := by
  rcases next_of_holds h hdollar with
    ⟨heof, -⟩ | ⟨d, more, -, rfl, hd, hafter, hdin, hdstands, hfollow⟩
  · rw [hl] at heof
    cases heof
  rcases next_of_holds hafter hname with
    ⟨heof, -⟩ | ⟨n, rest, -, rfl, hn, hbehind, hnin, hnstands, -⟩
  · rw [hword] at heof
    cases heof
  exact ⟨d, n, rest, rfl, hd, hn, hdstands, hnstands, precedes_of_holds hfollow rfl hnin, hdin,
    hnin.trans hdin, hbehind⟩

/-- Reading opens no layer. -/
theorem depth_next_le (h : s.next = .ok (token, after)) : after.depth ≤ s.depth := by
  rcases s with ⟨base, es⟩
  induction es with
  | nil =>
      rw [next, nextFrom] at h
      split at h
      · cases h
      · cases h
        exact Nat.le_refl _
  | cons e es ih =>
      rw [next, nextFrom] at h
      split at h
      · cases h
      · split at h
        · exact Nat.le_succ_of_le (ih h)
        · cases h
          exact Nat.le_refl _

end TokenStream

end GraphText
