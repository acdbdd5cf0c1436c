import GraphText.Error
import GraphText.Proofs.Token.Words

/-!
# Where a quoted string ends

Behind an opening quote a text is taken from the left: a backslash together with
the character behind it, and any other character alone. What is taken stands for
itself or is an escape, and stands for what its letter means. This goes on until
one of three things is met, and since they exclude each other, what is met first
decides: a quote that was not taken by a backslash closes the string, a backslash
in front of a letter of no escape breaks it, and the end of the text, be it right
behind a backslash, leaves it open.

Each of the three is said of the whole text, by what was taken before it was met.
Reading is a function, so that from "if" for each of the three comes "only if".

A string that is broken or open is no word, and nothing of it is taken. Whoever
reads again stands at its opening quote, and finds the same.

## Main definitions

* `Text.Quoted.escapes`: the letters of escapes and their meanings.
* `Text.Quoted.Means`: what a part of a string stands for.
* `Text.Quoted.Fails`: texts in which a string is broken or open.

## Theorems

* `Text.Quoted.means_or`: what is met first behind what was taken.
* `Text.Quoted.read_eq_ok_iff`, `Text.Quoted.read_eq_error_iff`: what is read, and what is not.
* `Text.Quoted.fails_unclosed_iff`: when a string is open.
* `Cursor.fetch_quote`: the token of a text that begins with a quote.
-/

namespace GraphText

namespace Text.Quoted

/-- The letters that may stand behind a backslash, with what they mean there. -/
def escapes : List (Char × Char) :=
  [('a', '\x07'), ('b', '\x08'), ('f', '\x0c'), ('n', '\n'), ('r', '\r'), ('t', '\t'),
    ('v', '\x0b'), ('0', '\x00'), ('\\', '\\'), ('"', '"'), ('\'', '\'')]

/-- A part of a string, all of whose escapes are complete, and what it stands for. -/
inductive Means : List Char → List Char → Prop where
  | nil : Means [] []
  | bare {c : Char} {cs s : List Char} (hquote : c ≠ '"') (hback : c ≠ '\\') (h : Means cs s) :
      Means (c :: cs) (c :: s)
  | escape {letter c : Char} {cs s : List Char} (hc : (letter, c) ∈ escapes) (h : Means cs s) :
      Means ('\\' :: letter :: cs) (c :: s)

/-- Behind the opening quote, the string is broken by an escape that there is not, or the text ends
    before the string does. -/
inductive Fails : Flaw → List Char → Prop where
  | escape {inside s : List Char} {letter : Char} (h : Means inside s)
      (hletter : letter ∉ escapes.map Prod.fst) (rest : List Char) :
      Fails (.escape letter) (inside ++ '\\' :: letter :: rest)
  | ended {inside s : List Char} (h : Means inside s) : Fails .unclosed inside
  | cut {inside s : List Char} (h : Means inside s) : Fails .unclosed (inside ++ ['\\'])

theorem escapeMeaning_eq_some_iff {letter c : Char} :
    escapeMeaning letter = some c ↔ (letter, c) ∈ escapes := by
  constructor
  · intro h
    unfold escapeMeaning at h
    split at h <;> cases h
    all_goals decide
  · have hall : ∀ entry ∈ escapes, escapeMeaning entry.1 = some entry.2 := by decide
    exact fun h => hall _ h

theorem escapeMeaning_eq_none_iff {letter : Char} :
    escapeMeaning letter = none ↔ letter ∉ escapes.map Prod.fst := by
  simp only [List.mem_map, Prod.exists, exists_and_right, exists_eq_right, not_exists,
    ← escapeMeaning_eq_some_iff, Option.eq_none_iff_forall_ne_some, ne_eq]

variable {inside s cs rest : List Char} {flaw : Flaw}

theorem Means.append {inside' s' : List Char} (h : Means inside s) (h' : Means inside' s') :
    Means (inside ++ inside') (s ++ s') := by
  induction h with
  | nil => exact h'
  | bare hquote hback _ ih => exact .bare hquote hback ih
  | escape hc _ ih => exact .escape hc ih

theorem Fails.append (h : Means inside s) (hfails : Fails flaw cs) :
    Fails flaw (inside ++ cs) := by
  cases hfails with
  | escape hmeans hletter rest =>
      rw [← List.append_assoc]
      exact .escape (h.append hmeans) hletter rest
  | ended hmeans => exact .ended (h.append hmeans)
  | cut hmeans =>
      rw [← List.append_assoc]
      exact .cut (h.append hmeans)

/-- What was taken has no part in what is met behind it. -/
theorem Means.read_append (h : Means inside s) (rest : List Char) :
    read (inside ++ rest) = (read rest).map fun r => (s ++ r.1, r.2) := by
  induction h with
  | nil =>
      cases hrest : read rest with
      | error flaw => simp [hrest, Except.map]
      | ok r => simp [hrest, Except.map]
  | bare hquote hback _ ih =>
      rw [List.cons_append, read_cons hquote hback, ih]
      cases read rest <;> rfl
  | escape hc _ ih =>
      rw [List.cons_append, List.cons_append, read, escapeMeaning_eq_some_iff.2 hc]
      simp only [ih]
      cases read rest <;> rfl

theorem Means.width_append (h : Means inside s) (rest : List Char) :
    width (inside ++ rest) = inside.length + width rest := by
  induction h with
  | nil => simp
  | bare hquote hback _ ih =>
      rw [List.cons_append, width_cons hquote hback, ih, List.length_cons]
      omega
  | escape hc _ ih =>
      rw [List.cons_append, List.cons_append, width, ih, List.length_cons, List.length_cons]
      omega

/-- Something can be taken up to the closing quote, or the string fails. -/
theorem means_or (cs : List Char) :
    (∃ inside s rest, cs = inside ++ '"' :: rest ∧ Means inside s) ∨ ∃ flaw, Fails flaw cs := by
  -- The cases are what is met first. Where that is taken, what is met later decides.
  fun_induction read cs with
  | case1 => exact .inr ⟨_, .ended .nil⟩
  | case2 rest => exact .inl ⟨[], [], rest, rfl, .nil⟩
  | case3 => exact .inr ⟨_, .cut .nil⟩
  | case4 letter rest hnone =>
      exact .inr ⟨_, .escape .nil (escapeMeaning_eq_none_iff.1 hnone) rest⟩
  | case5 letter rest c hc ih =>
      have htaken : Means ['\\', letter] [c] := .escape (escapeMeaning_eq_some_iff.1 hc) .nil
      rcases ih with ⟨inside, s, rest, rfl, hmeans⟩ | ⟨flaw, hfails⟩
      · exact .inl ⟨_, _, rest, rfl, htaken.append hmeans⟩
      · exact .inr ⟨flaw, .append htaken hfails⟩
  | case6 c rest hquote hend hletter ih =>
      have hback : c ≠ '\\' := by
        rintro rfl
        cases rest with
        | nil => exact hend rfl rfl
        | cons letter rest => exact hletter letter rest rfl rfl
      have htaken : Means [c] [c] := .bare hquote hback .nil
      rcases ih with ⟨inside, s, rest, rfl, hmeans⟩ | ⟨flaw, hfails⟩
      · exact .inl ⟨_, _, rest, rfl, htaken.append hmeans⟩
      · exact .inr ⟨flaw, .append htaken hfails⟩

theorem Means.read_closed (h : Means inside s) (rest : List Char) :
    read (inside ++ '"' :: rest) = .ok (s, rest) := by
  rw [h.read_append]
  simp [read, Except.map]

theorem Means.width_closed (h : Means inside s) (rest : List Char) :
    width (inside ++ '"' :: rest) = (inside ++ ['"']).length := by
  rw [h.width_append, List.length_append]
  rfl

theorem Fails.read (h : Fails flaw cs) : read cs = .error flaw := by
  cases h with
  | escape hmeans hletter rest =>
      rw [hmeans.read_append, Quoted.read, escapeMeaning_eq_none_iff.2 hletter]
      rfl
  | ended hmeans =>
      have hread := hmeans.read_append []
      rwa [List.append_nil] at hread
  | cut hmeans =>
      rw [hmeans.read_append]
      rfl

/-- A string is read up to the first quote that is not taken by a backslash. -/
theorem read_eq_ok_iff : read cs = .ok (s, rest) ↔
    ∃ inside, cs = inside ++ '"' :: rest ∧ Means inside s := by
  constructor
  · intro h
    rcases means_or cs with ⟨inside, s', rest', rfl, hmeans⟩ | ⟨flaw, hfails⟩
    · cases (hmeans.read_closed rest').symm.trans h
      exact ⟨inside, rfl, hmeans⟩
    · cases hfails.read.symm.trans h
  · rintro ⟨inside, rfl, hmeans⟩
    exact hmeans.read_closed rest

/-- A string that cannot be read is broken or open. -/
theorem read_eq_error_iff : read cs = .error flaw ↔ Fails flaw cs := by
  refine ⟨fun h => ?_, Fails.read⟩
  rcases means_or cs with ⟨inside, s, rest, rfl, hmeans⟩ | ⟨flaw', hfails⟩
  · cases (hmeans.read_closed rest).symm.trans h
  · cases hfails.read.symm.trans h
    exact hfails

/-- A string is open if nothing closes it and nothing breaks it. -/
theorem fails_unclosed_iff : Fails .unclosed cs ↔
    (¬ ∃ inside s rest, cs = inside ++ '"' :: rest ∧ Means inside s) ∧
      ∀ letter, ¬ Fails (.escape letter) cs := by
  rw [← read_eq_error_iff]
  cases hread : read cs with
  | ok r =>
      rcases read_eq_ok_iff.1 hread with ⟨inside, hclosed⟩
      exact iff_of_false nofun fun hnone => hnone.1 ⟨inside, r.1, r.2, hclosed⟩
  | error flaw =>
      have hnot : ¬ ∃ inside s rest, cs = inside ++ '"' :: rest ∧ Means inside s := by
        rintro ⟨inside, s, rest, hclosed⟩
        cases hread.symm.trans (read_eq_ok_iff.2 ⟨inside, hclosed⟩)
      cases flaw with
      | escape letter =>
          exact iff_of_false nofun fun hnone => hnone.2 letter (read_eq_error_iff.1 hread)
      | unclosed =>
          refine iff_of_true rfl ⟨hnot, fun letter hbroken => ?_⟩
          cases hread.symm.trans hbroken.read

end Text.Quoted

namespace Cursor

open Text.Quoted

variable {c d : Cursor} {flaw : Flaw} {p q : Position}

/-- In front of a quote nothing is skipped. -/
theorem leading_quote (cs : List Char) : Trivia.leading false ('"' :: cs) = [] :=
  Lexeme.leading_eq_nil (by decide) (by decide) cs

/-- A string that is closed is one token, whatever stands behind it. -/
theorem next_closed {inside s : List Char} (h : Means inside s) (rest : List Char) (p : Position) :
    (⟨'"' :: (inside ++ '"' :: rest), p⟩ : Cursor).next =
      .ok (⟨.quoted (String.ofList s), p⟩, ⟨rest, p.after ('"' :: (inside ++ ['"']))⟩) := by
  have hread : Lexeme.read ('"' :: (inside ++ '"' :: rest)) =
      .ok (.quoted (String.ofList s), ('"' :: (inside ++ ['"'])).length) := by
    rw [Lexeme.read, if_pos rfl, h.read_closed, h.width_closed]
    rfl
  have hword : '"' :: (inside ++ '"' :: rest) = '"' :: (inside ++ ['"']) ++ rest := by simp
  rw [hword] at hread ⊢
  exact next_of_read (leading_quote _) hread p

/-- A string that cannot be read is no token. -/
theorem next_fails {cs : List Char} (h : Fails flaw cs) (p : Position) :
    (⟨'"' :: cs, p⟩ : Cursor).next = .error flaw := by
  rw [next_eq_error_iff, tokenStart_eq_self (leading_quote cs), Lexeme.read, if_pos rfl, h.read]
  rfl

/-- A text that begins with a quote is taken from the left. If a quote comes up that is not taken by
    a backslash, the token is a string of what stands in between, with its escapes replaced by what
    they mean, and what is left stands behind that quote. If a backslash in front of a letter of no
    escape comes up first, the flaw is that letter, and if neither comes up, that the string is not
    closed; the place of a flaw is the opening quote, and nothing is taken. -/
theorem fetch_quote (cs : List Char) (p : Position) :
    let c : Cursor := ⟨'"' :: cs, p⟩
    (∀ token d, c.fetch = (.ok token, d) ↔
      ∃ inside s rest, cs = inside ++ '"' :: rest ∧ Means inside s ∧
        token = ⟨.quoted (String.ofList s), p⟩ ∧
        d = ⟨rest, p.after ('"' :: (inside ++ ['"']))⟩) ∧
    (∀ flaw q d, c.fetch = (.error (flaw, q), d) ↔ Fails flaw cs ∧ q = p ∧ d = c) ∧
    (Fails .unclosed cs ↔ (¬ ∃ inside s rest, cs = inside ++ '"' :: rest ∧ Means inside s) ∧
      ∀ letter, ¬ Fails (.escape letter) cs) ∧
    (∀ letter, (Cause.badString (.escape letter)).message =
      "Invalid escape sequence '\\" ++ String.singleton letter ++ "'") ∧
    (Cause.badString .unclosed).message = "Found EOF inside quoted string" := by
  intro c
  have hstart : c.tokenStart = c := tokenStart_eq_self (leading_quote cs)
  refine ⟨fun token d => ?_, fun flaw q d => ?_, fails_unclosed_iff, fun letter => ?_, rfl⟩
  · -- A string is closed or it fails, so each of the two answers excludes the other.
    rw [fetch_eq_ok_iff]
    constructor
    · intro hnext
      rcases means_or cs with ⟨inside, s, rest, rfl, hmeans⟩ | ⟨flaw, hfails⟩
      · cases (next_closed hmeans rest p).symm.trans hnext
        exact ⟨inside, s, rest, rfl, hmeans, rfl, rfl⟩
      · cases (next_fails hfails p).symm.trans hnext
    · rintro ⟨inside, s, rest, rfl, hmeans, rfl, rfl⟩
      exact next_closed hmeans rest p
  · rw [fetch_eq_error_iff, hstart]
    refine and_congr_left fun _ => ⟨fun hnext => ?_, fun hfails => next_fails hfails p⟩
    rcases means_or cs with ⟨inside, s, rest, rfl, hmeans⟩ | ⟨flaw', hfails⟩
    · cases (next_closed hmeans rest p).symm.trans hnext
    · cases (next_fails hfails p).symm.trans hnext
      exact hfails
  · have hmessage : (Cause.badString (.escape letter)).message =
        "Invalid escape sequence " ++ (("'" ++ ("\\" ++ String.singleton letter)) ++ "'") := rfl
    have hwords : "Invalid escape sequence '\\" = "Invalid escape sequence " ++ ("'" ++ "\\") := by
      decide
    rw [hmessage, hwords]
    simp only [String.append_assoc]

end Cursor

end GraphText
