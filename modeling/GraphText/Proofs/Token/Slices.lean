import GraphText.Proofs.Token.Passages
import GraphText.Proofs.Token.Places
import GraphText.Proofs.Token.Quotes
import Mathlib.Data.List.DropRight
import Mathlib.Logic.Function.Iterate

/-!
# Texts slice by slice

Fetching tokens one after the other cuts a text into slices, each made of a gap
and of a word. A gap is blanks and comments, and as many as there are; a word is
what its token is spelled as. Nothing falls between two slices and nothing is in
two of them, so the slices put together are the text as far as it has been read.

A reader does not know what it has read. It keeps a line and a column, and moves
them over every slice that it cuts off. So a position has two descriptions: it is
what the characters of all slices before it have made of the first position, and
it is where one gets by counting newlines and the characters behind the last one.

Slices end where the text ends, or in front of a string that cannot be read. In
both cases the gap is left behind and nothing else is taken, and fetching again
finds the same in the same place.

## Main definitions

* `Position.behind`: the position behind a text, by counting.
* `Slice`: a gap, a word and its token.
* `Cursor.Takes`, `Cursor.Reads`: cutting off one slice, and several.
* `Cursor.Halts`: where no slice can be cut off.

## Theorems

* `Position.start_after`: counting gives the position.
* `Cursor.takes_or_halts`: one step of reading a text.
* `Cursor.Reads.fits`: what a step says of its slice is so wherever the slice stands.
* `Cursor.slices_cover`: the slices of a text.
-/

namespace GraphText

/-- The position behind a text: one line more than there are newlines in it, and one column more
    than there are characters behind the last of them. -/
def Position.behind (cs : List Char) : Position :=
  ⟨1 + cs.count '\n', 1 + (cs.rtakeWhile (· ≠ '\n')).length⟩

/-- Moving on character by character leads to the position that is found by counting. -/
theorem Position.start_after (cs : List Char) : Position.start.after cs = behind cs := by
  induction cs using List.reverseRecOn with
  | nil => rfl
  | append_singleton cs c ih =>
      have hstep : ∀ p : Position, p.after [c] = p.step c := fun _ => rfl
      rw [after_append, ih, hstep, step, behind, behind]
      by_cases hc : c = '\n'
      · rw [if_pos hc, List.rtakeWhile_concat_neg _ _ _ (by simp [hc])]
        simp [hc, Nat.add_assoc]
      · rw [if_neg hc, List.rtakeWhile_concat_pos _ _ _ (by simp [hc])]
        simp [hc, Nat.add_assoc]

-- Columns count characters, and a carriage return is one of them.
example : Position.behind "a\nφ\r".toList = ⟨2, 3⟩ := by decide

/-- A part of a text: what separates a word from the word in front of it, the word, and the token
    that it is read as. -/
structure Slice where
  gap : List Char
  word : List Char
  token : Token

namespace Slice

/-- The characters of a slice. -/
def chars (s : Slice) : List Char :=
  s.gap ++ s.word

/-- The parts are what they should be in front of this text. -/
structure Fits (s : Slice) (rest : List Char) : Prop where
  separates : Trivia.Separates s.gap (s.word ++ rest)
  ne_nil : s.word ≠ []
  spelled : s.token.lexeme.IsSpelled s.word

end Slice

namespace Cursor

/-- A slice is cut off: a token is fetched that is not the end, and the cursor moves over what is in
    front of it and over its word. -/
structure Takes (c : Cursor) (s : Slice) (d : Cursor) : Prop where
  fetch : c.fetch = (.ok s.token, d)
  more : s.token.lexeme ≠ .eof
  rest : c.rest = s.chars ++ d.rest
  fits : s.Fits d.rest
  token : s.token.position = c.position.after s.gap
  position : d.position = c.position.after s.chars

/-- Nothing is cut off any more: the end is fetched or a flaw, behind what is in front of it, and
    again and again. -/
structure Halts (c : Cursor) (gap : List Char)
    (answer : Except (Text.Quoted.Flaw × Position) Token) (d : Cursor) : Prop where
  fetch : c.fetch = (answer, d)
  again : d.fetch = (answer, d)
  rest : c.rest = gap ++ d.rest
  separates : Trivia.Separates gap d.rest
  position : d.position = c.position.after gap
  answer : d.rest = [] ∧ answer = .ok ⟨.eof, d.position⟩ ∨
    ∃ flaw cs, d.rest = '"' :: cs ∧ answer = .error (flaw, d.position)

/-- Several slices are cut off, one behind the other. -/
inductive Reads : Cursor → List Slice → Cursor → Prop where
  | nil (c : Cursor) : Reads c [] c
  | cons {c mid d : Cursor} {s : Slice} {slices : List Slice} (h : c.Takes s mid)
      (hrest : Reads mid slices d) : Reads c (s :: slices) d

variable {c d : Cursor} {s : Slice} {slices : List Slice} {gap rest : List Char}

theorem tokenStart_of_separates (h : Trivia.Separates gap rest) (p : Position) :
    (⟨gap ++ rest, p⟩ : Cursor).tokenStart = ⟨rest, p.after gap⟩ := by
  rw [tokenStart, Trivia.separates_iff.1 h, advance, List.drop_left, List.take_left]

/-- Where the token starts, the same is fetched. -/
theorem fetch_of_separates (h : Trivia.Separates gap rest) (p : Position) :
    (⟨rest, p.after gap⟩ : Cursor).fetch = (⟨gap ++ rest, p⟩ : Cursor).fetch := by
  have hself : (⟨rest, p.after gap⟩ : Cursor).tokenStart = ⟨rest, p.after gap⟩ :=
    tokenStart_eq_self h.leading_eq_nil
  simp only [fetch, next, tokenStart_of_separates h p, hself]

/-- A slice can be cut off, or nothing can. -/
theorem takes_or_halts (c : Cursor) :
    (∃ s d, c.Takes s d) ∨ ∃ gap answer d, c.Halts gap answer d := by
  rcases c with ⟨cs, p⟩
  rcases Trivia.exists_separates cs with ⟨gap, rest, rfl, hseparates⟩
  have hstart := tokenStart_of_separates hseparates p
  have hagain := fetch_of_separates hseparates p
  cases hread : Lexeme.read rest with
  | error flaw =>
      rcases Lexeme.eq_quote_of_read hread with ⟨cs, hquote⟩
      have hfetch : fetch ⟨gap ++ rest, p⟩ =
          (.error (flaw, p.after gap), ⟨rest, p.after gap⟩) := by
        rw [fetch_eq_error_iff, next_eq_error_iff, hstart]
        exact ⟨hread, rfl, rfl⟩
      exact .inr ⟨gap, _, _, hfetch, hagain.trans hfetch, rfl, hseparates, rfl,
        .inr ⟨flaw, cs, hquote, rfl⟩⟩
  | ok r =>
      rcases r with ⟨l, n⟩
      rcases Lexeme.isSpelled_of_read hread with ⟨word, behind, rfl, rfl, hspelled⟩
      have hfetch : fetch ⟨gap ++ (word ++ behind), p⟩ =
          (.ok ⟨l, p.after gap⟩, ⟨behind, (p.after gap).after word⟩) := by
        rw [fetch_eq_ok_iff, next_eq_ok_iff, hstart]
        refine ⟨_, hread, rfl, ?_⟩
        rw [advance, List.drop_left, List.take_left]
      by_cases heof : l = .eof
      · -- Only where nothing is left the end is read.
        subst heof
        rcases List.append_eq_nil_iff.1 (Lexeme.eq_nil_of_read_eof hread) with ⟨rfl, rfl⟩
        exact .inr ⟨gap, _, _, hfetch, hagain.trans hfetch, rfl, hseparates, rfl,
          .inl ⟨rfl, rfl⟩⟩
      · -- Less is left behind a token that is not the end, and here nothing was skipped.
        have hne : word ≠ [] := by
          rintro rfl
          exact Nat.lt_irrefl _ (next_rest_lt (fetch_eq_ok_iff.1 (hagain.trans hfetch)) heof)
        refine .inl ⟨⟨gap, word, ⟨l, p.after gap⟩⟩, _, hfetch, heof, ?_,
          ⟨hseparates, hne, hspelled⟩, rfl, ?_⟩
        · exact (List.append_assoc gap word behind).symm
        · exact (Position.after_append p gap word).symm

/-- Slice by slice a text comes to its end, or to what cannot be read. -/
theorem exists_reads (c : Cursor) :
    ∃ slices mid gap answer d, c.Reads slices mid ∧ mid.Halts gap answer d := by
  induction hn : c.rest.length using Nat.strong_induction_on generalizing c with
  | _ n ih =>
      subst hn
      rcases takes_or_halts c with ⟨s, mid, htakes⟩ | ⟨gap, answer, d, hhalts⟩
      · have hshort : mid.rest.length < c.rest.length := by
          have hword := List.length_pos_iff.2 htakes.fits.ne_nil
          rw [htakes.rest, Slice.chars, List.length_append, List.length_append]
          omega
        rcases ih _ hshort mid rfl with ⟨slices, last, gap, answer, d, hreads, hhalts⟩
        exact ⟨s :: slices, last, gap, answer, d, .cons htakes hreads, hhalts⟩
      · exact ⟨[], c, gap, answer, d, .nil c, hhalts⟩

theorem Reads.chars (h : Reads c slices d) : c.rest = slices.flatMap Slice.chars ++ d.rest := by
  induction h with
  | nil => rfl
  | cons htakes _ ih => rw [htakes.rest, ih, List.flatMap_cons, List.append_assoc]

theorem Reads.position (h : Reads c slices d) :
    d.position = c.position.after (slices.flatMap Slice.chars) := by
  induction h with
  | nil => rfl
  | cons htakes _ ih => rw [ih, htakes.position, List.flatMap_cons, Position.after_append]

/-- What was said of one slice is said of each of several, behind those in front of it and in front
    of those behind it. -/
theorem Reads.fits (h : Reads c slices d) {front behind : List Slice}
    (hslices : slices = front ++ s :: behind) :
    s.Fits (behind.flatMap Slice.chars ++ d.rest) ∧
      s.token.position = c.position.after (front.flatMap Slice.chars ++ s.gap) := by
  induction h generalizing front with
  | nil => cases List.append_eq_nil_iff.1 hslices.symm |>.2
  | cons htakes hrest ih =>
      cases front with
      | nil =>
          cases hslices
          -- What the cursor leaves is what is read later.
          rw [← hrest.chars]
          exact ⟨htakes.fits, htakes.token⟩
      | cons first front =>
          cases hslices
          rcases ih rfl with ⟨hfits, htoken⟩
          refine ⟨hfits, ?_⟩
          rw [htoken, htakes.position, ← Position.after_append, List.flatMap_cons,
            List.append_assoc]

/-- What halts goes on so for ever. -/
theorem Halts.iterate {answer : Except (Text.Quoted.Flaw × Position) Token}
    (h : c.Halts gap answer d) (n : Nat) :
    ((fun e : Cursor => e.fetch.2)^[n] c).fetch = (answer, d) := by
  cases n with
  | zero => exact h.fetch
  | succ n =>
      have hstays : d.fetch.2 = d := by rw [h.again]
      rw [Function.iterate_succ_apply, h.fetch, Function.iterate_fixed hstays]
      exact h.again

/-- A text is read slice by slice, and the slices with what separates them are the text. Each has a
    word of at least one character, which is what its token is spelled as, behind all of the blanks
    and comments that stand there; and the position of its token is found by counting the newlines,
    and the characters behind the last one, of all that stands in front of the word. What is left
    is nothing, or begins with a string that cannot be read. From there on the same answer is given
    again and again, the end or the flaw, at the position that is found in the same way. -/
theorem slices_cover (text : String) :
    ∃ slices last gap answer stop, Reads (ofText text) slices last ∧
      text.toList = slices.flatMap Slice.chars ++ (gap ++ stop.rest) ∧
      (∀ front s behind, slices = front ++ s :: behind →
        s.Fits (behind.flatMap Slice.chars ++ (gap ++ stop.rest)) ∧
        s.token.position = .behind (front.flatMap Slice.chars ++ s.gap)) ∧
      (∀ n, ((fun c : Cursor => c.fetch.2)^[n] last).fetch = (answer, stop)) ∧
      Trivia.Separates gap stop.rest ∧
      stop.position = .behind (slices.flatMap Slice.chars ++ gap) ∧
      (stop.rest = [] ∧ answer = .ok ⟨.eof, stop.position⟩ ∨
        ∃ flaw cs, stop.rest = '"' :: cs ∧ answer = .error (flaw, stop.position)) := by
  -- The slices are cut off one by one until there is none, and all the rest was known when they
  -- were cut.
  rcases exists_reads (ofText text) with ⟨slices, last, gap, answer, stop, hreads, hhalts⟩
  refine ⟨slices, last, gap, answer, stop, hreads, ?_, fun front s behind hslices => ?_,
    hhalts.iterate, hhalts.separates, ?_, hhalts.answer⟩
  · rw [← hhalts.rest]
    exact hreads.chars
  · rw [← hhalts.rest, ← Position.start_after]
    exact hreads.fits hslices
  · rw [hhalts.position, hreads.position, ← Position.start_after, Position.after_append]
    rfl

end Cursor

end GraphText
