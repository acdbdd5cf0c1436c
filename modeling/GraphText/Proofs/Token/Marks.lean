import GraphText.Error
import GraphText.Token.Cursor
import Mathlib.Logic.Relation

/-!
# Rescanning

What the expansion of constants means, without layers and without a reader: the
leftmost `$` of a list of tokens, with the name behind it, is replaced by the
tokens of the constant, and then the list is looked at again from there, so
that a `$` among the new tokens comes next, and may take its name from what
stood behind. The list is final when it has no `$` left.

Tokens are marked with where they come from. A token of the document has no
origin. The tokens of a constant have the origin of the `$` that they replace,
which is this `$` itself if it is one of the document; and they are one level
deeper than the name that they replace, which is what the limit is about.

Everything is replaced at one place, so the final list does not depend on
anything but the list at the beginning.

## Main definitions

* `Mark`, `Mark.shown`: tokens with where they come from, and as they are shown.
* `Mark.value?`, `Mark.replace?`: the tokens of a constant, put in its place.
* `Mark.Rescans`: replacing over and over.
* `Mark.IsExpandable`: lists of which no `$` is ever left without a constant.

## Theorems

* `Mark.Rescans.cons`, `Mark.Rescans.of_cons`: behind a token that is final.
* `Mark.Rescans.join`: every way to the final list goes on to it.
* `Mark.Rescans.sourced`: where the tokens come from.
* `Cursor.tokens_eq_ok_cons`: the tokens of a text, one by one.
-/

namespace GraphText

theorem eq_ok_of_toOption {ε α : Type} {x : Except ε α} {a : α} (h : x.toOption = some a) :
    x = .ok a := by
  cases x with
  | error e => cases h
  | ok b => exact congrArg Except.ok (Option.some.inj h)

/-- A token with the `$` of the document from whose expansion it comes, if it does, and with the
    number of constants that it is inside of. -/
structure Mark where
  token : Token
  origin : Option Token := none
  depth : Nat := 0
  deriving DecidableEq

namespace Mark

/-- Whether the token is a `$`. -/
def IsDollar (m : Mark) : Prop :=
  m.token.lexeme = .punct '$'

instance (m : Mark) : Decidable m.IsDollar :=
  inferInstanceAs (Decidable (m.token.lexeme = .punct '$'))

/-- The token of the document that a token stands for. -/
def source (m : Mark) : Token := m.origin.getD m.token

/-- The token as it is shown: at the place of the token that it stands for. -/
def shown (m : Mark) : Token := ⟨m.token.lexeme, m.source.position⟩

section

variable (constant? : String → Option String) (limit : Nat)

/-- The tokens of the constant of a name behind a `$`, unless there is none, or it cannot be read,
    or it would be too deep. -/
def value? (dollar name : Mark) : Option (List Mark) :=
  match name.token.lexeme with
  | .name word =>
    if name.depth < limit then do
      let value ← constant? word
      let tokens ← (Cursor.ofText value).tokens.toOption
      some (tokens.map fun t => ⟨t, some dollar.source, name.depth + 1⟩)
    else none
  | _ => none

/-- What comes of a `$` and the list behind it: the tokens of a constant in place of its name. -/
def replaceName? (dollar : Mark) : List Mark → Option (List Mark)
  | [] => none
  | name :: behind => (value? constant? limit dollar name).map (· ++ behind)

/-- The list with the leftmost `$` and the name behind it replaced, if there is a `$` and it can be
    replaced. -/
def replace? : List Mark → Option (List Mark)
  | [] => none
  | m :: ms =>
    if m.IsDollar then replaceName? constant? limit m ms else (replace? ms).map (m :: ·)

/-- The second list comes up when the first one is replaced over and over. -/
def Rescans : List Mark → List Mark → Prop :=
  Relation.ReflTransGen fun ms ms' => replace? constant? limit ms = some ms'

/-- A list without a `$`. -/
def IsFinal (ms : List Mark) : Prop :=
  ∀ m ∈ ms, ¬ m.IsDollar

instance (ms : List Mark) : Decidable (IsFinal ms) :=
  inferInstanceAs (Decidable (∀ m ∈ ms, ¬ m.IsDollar))

/-- Whether every `$` that ever comes to be leftmost can be replaced. -/
def IsExpandable (ms : List Mark) : Prop :=
  ∀ ms', Rescans constant? limit ms ms' → (∃ m ∈ ms', m.IsDollar) →
    ∃ ms'', replace? constant? limit ms' = some ms''

end

section

variable {constant? : String → Option String} {limit : Nat} {m : Mark} {ms ms' out : List Mark}

theorem replace?_cons (hm : ¬ m.IsDollar) :
    replace? constant? limit (m :: ms) = (replace? constant? limit ms).map (m :: ·) := by
  rw [replace?, if_neg hm]

/-- What is replaced when the list begins with a `$`. -/
theorem replace?_dollar {dollar : Mark} (hdollar : dollar.IsDollar)
    (h : replace? constant? limit (dollar :: ms) = some ms') :
    ∃ name behind new, ms = name :: behind ∧ value? constant? limit dollar name = some new ∧
      ms' = new ++ behind := by
  rw [replace?, if_pos hdollar] at h
  cases ms with
  | nil => cases h
  | cons name behind =>
      rcases Option.map_eq_some_iff.1 h with ⟨new, hnew, rfl⟩
      exact ⟨name, behind, new, rfl, hnew, rfl⟩

/-- What the tokens of a constant are. -/
theorem value?_eq_some {dollar name : Mark} {new : List Mark}
    (h : value? constant? limit dollar name = some new) :
    ∃ word value ts, name.token.lexeme = .name word ∧ name.depth < limit ∧
      constant? word = some value ∧ (Cursor.ofText value).tokens = .ok ts ∧
      new = ts.map fun t => ⟨t, some dollar.source, name.depth + 1⟩ := by
  unfold value? at h
  split at h
  next word hword =>
    split at h
    next hlimit =>
      rcases Option.bind_eq_some_iff.1 h with ⟨value, hvalue, h⟩
      rcases Option.bind_eq_some_iff.1 h with ⟨ts, hts, h⟩
      cases h
      exact ⟨word, value, ts, hword, hlimit, hvalue, eq_ok_of_toOption hts, rfl⟩
    · cases h
  · cases h

/-- Nothing is replaced in a list without a `$`. -/
theorem IsFinal.replace?_eq_none (h : IsFinal ms) : replace? constant? limit ms = none := by
  induction ms with
  | nil => rfl
  | cons m ms ih =>
      rw [replace?_cons (h m List.mem_cons_self),
        ih fun m' hm' => h m' (List.mem_cons_of_mem _ hm')]
      rfl

namespace Rescans

/-- Behind a token that is no `$`, everything goes on as it does alone. -/
theorem cons (hm : ¬ m.IsDollar) (h : Rescans constant? limit ms ms') :
    Rescans constant? limit (m :: ms) (m :: ms') := by
  induction h with
  | refl => exact .refl
  | tail _ hlast ih =>
      refine ih.tail ?_
      rw [replace?_cons hm, hlast]
      rfl

theorem of_cons (hm : ¬ m.IsDollar) (h : Rescans constant? limit (m :: ms) out) :
    ∃ ms', out = m :: ms' ∧ Rescans constant? limit ms ms' := by
  induction h with
  | refl => exact ⟨ms, rfl, .refl⟩
  | tail _ hlast ih =>
      rcases ih with ⟨ms', rfl, hms'⟩
      rw [replace?_cons hm, Option.map_eq_some_iff] at hlast
      rcases hlast with ⟨next, hnext, rfl⟩
      exact ⟨next, rfl, hms'.tail hnext⟩

theorem eq_of_final (h : IsFinal ms) (hrescans : Rescans constant? limit ms out) : out = ms := by
  rcases Relation.ReflTransGen.cases_head hrescans with heq | ⟨next, hnext, -⟩
  · exact heq.symm
  · rw [h.replace?_eq_none] at hnext
    cases hnext

/-- What comes up on the way to a list without a `$` goes on to it. -/
theorem join (hfinal : IsFinal out) (hout : Rescans constant? limit ms out)
    (h : Rescans constant? limit ms ms') : Rescans constant? limit ms' out := by
  -- Replacing is a function, so of two ways from one list one is a part of the other.
  have hunique : Relator.RightUnique fun ms ms' => replace? constant? limit ms = some ms' :=
    fun a b c hb hc => Option.some.inj (hb.symm.trans hc)
  rcases Relation.ReflTransGen.total_of_right_unique hunique h hout with hforward | hback
  · exact hforward
  · rw [eq_of_final hfinal hback]
    exact .refl

end Rescans

/-- If a list without a `$` comes up, nothing was in the way. -/
theorem Rescans.isExpandable (hfinal : IsFinal out) (hout : Rescans constant? limit ms out) :
    IsExpandable constant? limit ms := by
  rintro ms' hms' ⟨dollar, hmem, hdollar⟩
  rcases Relation.ReflTransGen.cases_head (Rescans.join hfinal hout hms') with
    rfl | ⟨next, hnext, -⟩
  · exact absurd hdollar (hfinal dollar hmem)
  · exact ⟨next, hnext⟩

theorem IsExpandable.rescans (h : IsExpandable constant? limit ms)
    (hms' : Rescans constant? limit ms ms') : IsExpandable constant? limit ms' :=
  fun ms'' hms'' => h ms'' (hms'.trans hms'')

theorem IsExpandable.of_cons (hm : ¬ m.IsDollar) (h : IsExpandable constant? limit (m :: ms)) :
    IsExpandable constant? limit ms := by
  rintro ms' hms' ⟨dollar, hmem, hdollar⟩
  rcases h (m :: ms') (hms'.cons hm) ⟨dollar, List.mem_cons_of_mem _ hmem, hdollar⟩ with
    ⟨next, hnext⟩
  rw [replace?_cons hm, Option.map_eq_some_iff] at hnext
  rcases hnext with ⟨rest, hrest, -⟩
  exact ⟨rest, hrest⟩

end

/-- Whether a token is one of a document, or comes from a `$` of the document. -/
def IsSourced (ts : List Token) (m : Mark) : Prop :=
  m.source ∈ ts ∧ (m.origin ≠ none → m.source.lexeme = .punct '$')

/-- Replacing takes over where the `$` comes from. -/
theorem sourced_of_replace? {constant? : String → Option String} {limit : Nat} {ts : List Token}
    {ms ms' : List Mark} (h : replace? constant? limit ms = some ms')
    (hms : ∀ m ∈ ms, m.IsSourced ts) : ∀ m ∈ ms', m.IsSourced ts := by
  induction ms generalizing ms' with
  | nil => cases h
  | cons m ms ih =>
      by_cases hm : m.IsDollar
      · rcases replace?_dollar hm h with ⟨name, behind, new, rfl, hnew, rfl⟩
        rcases value?_eq_some hnew with ⟨word, value, tokens, -, -, -, -, rfl⟩
        -- Whether the `$` is one of the document or not, it comes from one that is.
        have hdollar : m.source.lexeme = .punct '$' := by
          cases horigin : m.origin with
          | none =>
              rw [source, horigin]
              exact hm
          | some d =>
              refine (hms m List.mem_cons_self).2 ?_
              rw [horigin]
              exact Option.some_ne_none d
        intro m' hm'
        rcases List.mem_append.1 hm' with hm' | hm'
        · rcases List.mem_map.1 hm' with ⟨t, -, rfl⟩
          exact ⟨(hms m List.mem_cons_self).1, fun _ => hdollar⟩
        · exact hms m' (List.mem_cons_of_mem _ (List.mem_cons_of_mem _ hm'))
      · rw [replace?_cons hm, Option.map_eq_some_iff] at h
        rcases h with ⟨next, hnext, rfl⟩
        intro m' hm'
        rcases List.mem_cons.1 hm' with rfl | hm'
        · exact hms m' List.mem_cons_self
        · exact ih hnext (fun m hm => hms m (List.mem_cons_of_mem _ hm)) m' hm'

theorem Rescans.sourced {constant? : String → Option String} {limit : Nat} {ts : List Token}
    {ms out : List Mark} (h : Rescans constant? limit ms out) (hms : ∀ m ∈ ms, m.IsSourced ts) :
    ∀ m ∈ out, m.IsSourced ts := by
  induction h with
  | refl => exact hms
  | tail _ hlast ih => exact sourced_of_replace? hlast ih

end Mark

namespace Cursor

variable {c after : Cursor} {token : Token} {ts : List Token}

theorem tokens_eq_ok_nil (h : c.tokens = .ok []) :
    ∃ token after, c.next = .ok (token, after) ∧ token.lexeme = .eof := by
  rw [tokens] at h
  split at h
  · cases h
  next token after hnext =>
    split at h
    next heof => exact ⟨token, after, hnext, heof⟩
    · rcases map_eq_ok h with ⟨rest, -, hcons⟩
      cases hcons

/-- The tokens of a text, one by one. -/
theorem tokens_eq_ok_cons (h : c.tokens = .ok (token :: ts)) :
    ∃ after, c.next = .ok (token, after) ∧ token.lexeme ≠ .eof ∧ after.tokens = .ok ts := by
  rw [tokens] at h
  split at h
  · cases h
  next first after hnext =>
    split at h
    · cases h
    next hmore =>
      rcases map_eq_ok h with ⟨rest, hrest, hcons⟩
      cases hcons
      exact ⟨after, hnext, hmore, hrest⟩

/-- Behind the end there is nothing. -/
theorem tokens_of_eof (h : c.next = .ok (token, after)) (heof : token.lexeme = .eof) :
    after.tokens = .ok [] := by
  rcases next_eq_ok_iff.1 h with ⟨n, hread, -, rfl⟩
  rw [heof] at hread
  -- Only at the end of the text, blanks and comments left out, is the end read.
  have hrest : (c.tokenStart.advance n).rest = [] := by
    rw [advance, Lexeme.eq_nil_of_read_eof hread, List.drop_nil]
  have hend : (c.tokenStart.advance n).tokenStart.rest = [] := by
    rw [tokenStart, advance, hrest, List.drop_nil]
  rw [tokens, next, hend, Lexeme.read]
  rfl

end Cursor

end GraphText
