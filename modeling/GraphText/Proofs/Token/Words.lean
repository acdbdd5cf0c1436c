import GraphText.Token.Cursor
import Mathlib.Data.List.TakeWhile

/-!
# Texts word by word

What a reader sees of a text is its words. Here a text is taken apart from the
front: it starts, behind blanks, with a word, and something is left. The blanks
stand in front of the word and not behind it, since that is where reading skips
them, so what is written in pieces is read in the same pieces as long as no
piece runs on into the next one.

Only a name and a number can run on. A name must be followed by something that
no name holds, and likewise a number; quoted strings and the characters that are
words by themselves end where they end.

## Main definitions

* `Stops`: the first character of a text, if there is one, is not of a kind.
* `Lexeme.IsWord`: the spelling of a name.
* `Lexeme.Starts`: the word that a text starts with, and what is left.
* `Lexeme.Spells`: the words of a text.

## Theorems

* `Lexeme.starts_name`, `Lexeme.starts_number`, `Lexeme.starts_quoted`,
  `Lexeme.starts_punct`, `Lexeme.starts_eof`: what is written is read.
* `Lexeme.Starts.blank`: blanks in front do not matter.
* `Cursor.next_of_read`: the next token, if nothing is skipped in front of it.
* `Cursor.next_of_starts`, `Cursor.tokens_of_spells`: the next token, and all of them.
* `Lexeme.isWord_of_read`: a name that was read has the spelling of one.
-/

namespace GraphText

/-- The text does not go on with a character of this kind. -/
def Stops (p : Char → Bool) (rest : List Char) : Prop :=
  ∀ c ∈ rest.head?, p c = false

theorem stops_cons {p : Char → Bool} {c : Char} (hc : p c = false) (rest : List Char) :
    Stops p (c :: rest) := by
  intro d hd
  rw [List.head?_cons, Option.mem_some_iff] at hd
  exact hd ▸ hc

theorem takeWhile_append_of_stops {p : Char → Bool} {word rest : List Char}
    (hword : ∀ c ∈ word, p c = true) (hrest : Stops p rest) :
    (word ++ rest).takeWhile p = word := by
  rw [List.takeWhile_append_of_pos hword]
  cases rest with
  | nil => rw [List.takeWhile_nil, List.append_nil]
  | cons c rest =>
      have hc : p c = false := hrest c rfl
      rw [List.takeWhile_cons_of_neg (by simp [hc]), List.append_nil]

namespace Lexeme

/-- The spelling of a name. -/
def IsWord (word : String) : Prop :=
  ∃ c cs, word.toList = c :: cs ∧ isNameStart c = true ∧ ∀ x ∈ cs, isNameRest x = true

/-- The text starts, behind blanks and comments, with this word, and this is left of it. -/
def Starts (cs : List Char) (l : Lexeme) (rest : List Char) : Prop :=
  ∃ n, read (cs.drop (Trivia.leading false cs).length) = .ok (l, n) ∧
    rest = (cs.drop (Trivia.leading false cs).length).drop n

/-- Nothing is skipped in front of a character that is neither blank nor begins a comment. -/
theorem leading_eq_nil {c : Char} (hspace : Trivia.isSpace c = false) (hcomment : c ≠ '#')
    (cs : List Char) : Trivia.leading false (c :: cs) = [] := by
  simp [Trivia.leading, hspace, hcomment]

/-- A number does not begin like a name. -/
theorem isNameStart_eq_false {c : Char} (h : isNumberStart c = true) : isNameStart c = false := by
  have hcases : c.isDigit = true ∨ c ∈ ['+', '-', '.'] := by
    simpa [isNumberStart, or_assoc] using h
  rcases hcases with hdigit | hsign
  · have hne : c ≠ '_' := by
      rintro rfl
      revert hdigit
      decide
    have hbounds := Char.isDigit_iff_toNat.1 hdigit
    have hletter : c.isAlpha = false := by
      have halpha : c.isAlpha = (decide (65 ≤ c.val ∧ c.val ≤ 90) ||
          (decide (97 ≤ c.val) && decide (c.val ≤ 122))) := rfl
      simp only [halpha, UInt32.le_iff_toNat_le, Bool.or_eq_false_iff, Bool.and_eq_false_iff,
        decide_eq_false_iff_not]
      simp only [Char.toNat, Char.reduceVal, UInt32.reduceToNat] at *
      omega
    simp [isNameStart, hletter, hne]
  · have hall : (['+', '-', '.'].all fun d => isNameStart d = false) = true := by decide
    exact of_decide_eq_true (List.all_eq_true.1 hall c hsign)

theorem starts_of_read {c : Char} {cs : List Char} {l : Lexeme} {n : Nat}
    (hspace : Trivia.isSpace c = false) (hcomment : c ≠ '#') (hread : read (c :: cs) = .ok (l, n)) :
    Starts (c :: cs) l ((c :: cs).drop n) := by
  have hleading := leading_eq_nil hspace hcomment cs
  refine ⟨n, ?_, ?_⟩
  · rw [hleading]
    exact hread
  · rw [hleading]
    rfl

theorem starts_eof : Starts [] .eof [] :=
  ⟨0, rfl, rfl⟩

theorem Starts.blank {c : Char} {cs rest : List Char} {l : Lexeme}
    (hspace : Trivia.isSpace c = true) (h : Starts cs l rest) : Starts (c :: cs) l rest := by
  have hleading : Trivia.leading false (c :: cs) = c :: Trivia.leading false cs := by
    rw [Trivia.leading, if_pos hspace, Bool.false_and]
  rcases h with ⟨n, hread, hrest⟩
  exact ⟨n, by rw [hleading]; exact hread, by rw [hleading]; exact hrest⟩

theorem Starts.blanks {blanks cs rest : List Char} {l : Lexeme}
    (hblanks : ∀ c ∈ blanks, Trivia.isSpace c = true) (h : Starts cs l rest) :
    Starts (blanks ++ cs) l rest := by
  induction blanks with
  | nil => exact h
  | cons c blanks ih =>
      refine Starts.blank (hblanks c List.mem_cons_self) (ih fun x hx => ?_)
      exact hblanks x (List.mem_cons_of_mem _ hx)

/-- A character that begins a name, a number or a string, or is a word by itself, is not skipped. -/
theorem not_skipped {c : Char} (h : isNameStart c = true ∨ isNumberStart c = true ∨
    isPunctuation c = true ∨ c = '"') : Trivia.isSpace c = false ∧ c ≠ '#' := by
  have hblank : ∀ d ∈ [' ', '\t', '\r', '\n', '#'], c ≠ d := by
    rintro d hd rfl
    have hall : ([' ', '\t', '\r', '\n', '#'].all fun e => isNameStart e = false ∧
        isNumberStart e = false ∧ isPunctuation e = false ∧ e ≠ '"') = true := by decide
    rcases of_decide_eq_true (List.all_eq_true.1 hall c hd) with ⟨hname, hnumber, hpunct, hquote⟩
    simp [hname, hnumber, hpunct, hquote] at h
  constructor
  · simp only [List.mem_cons, List.not_mem_nil, or_false, forall_eq_or_imp, forall_eq] at hblank
    simp [Trivia.isSpace, hblank]
  · exact hblank '#' (by decide)

/-- A name is read up to the first character that no name holds. -/
theorem starts_name {word : String} {rest : List Char} (hword : IsWord word)
    (hrest : Stops isNameRest rest) : Starts (word.toList ++ rest) (.name word) rest := by
  rcases hword with ⟨c, cs, hlist, hfirst, hall⟩
  have hskip := not_skipped (.inl hfirst)
  have hquote : c ≠ '"' := by
    rintro rfl
    revert hfirst
    decide
  have hread : read (c :: (cs ++ rest)) = .ok (.name word, (c :: cs).length) := by
    rw [read, if_neg hquote, if_pos hfirst, takeWhile_append_of_stops hall hrest, ← hlist]
    exact congrArg (fun w => Except.ok (name w, _)) String.ofList_toList
  have hstarts := starts_of_read hskip.1 hskip.2 hread
  rw [← List.cons_append, List.drop_left] at hstarts
  rw [hlist]
  exact hstarts

/-- A number is read up to the first character that no number holds. -/
theorem starts_number {c : Char} {cs rest : List Char} (hfirst : isNumberStart c = true)
    (hall : ∀ x ∈ cs, isNumberRest x = true) (hrest : Stops isNumberRest rest) :
    Starts (c :: cs ++ rest) (.number (String.ofList (c :: cs))) rest := by
  have hskip := not_skipped (.inr (.inl hfirst))
  have hquote : c ≠ '"' := by
    rintro rfl
    revert hfirst
    decide
  have hname := isNameStart_eq_false hfirst
  have hread : read (c :: (cs ++ rest)) =
      .ok (.number (String.ofList (c :: cs)), (c :: cs).length) := by
    rw [read, if_neg hquote, if_neg (by simp [hname]), if_pos hfirst,
      takeWhile_append_of_stops hall hrest]
  have hstarts := starts_of_read hskip.1 hskip.2 hread
  rw [← List.cons_append, List.drop_left] at hstarts
  exact hstarts

/-- A written string is read up to its closing quote. -/
theorem starts_quoted (s : String) (rest : List Char) :
    Starts (Text.Quoted.text s.toList ++ rest) (.quoted s) rest := by
  have hskip := not_skipped (c := '"') (.inr (.inr (.inr rfl)))
  have hbody := Text.Quoted.read_body s.toList rest
  have hread : read ('"' :: (Text.Quoted.body s.toList ++ '"' :: rest)) =
      .ok (.quoted s, Text.Quoted.width (Text.Quoted.body s.toList ++ '"' :: rest) + 1) := by
    rw [read, if_pos rfl, hbody]
    simp [Except.map]
  have hstarts := starts_of_read hskip.1 hskip.2 hread
  rw [List.drop_succ_cons, ← Text.Quoted.read_rest hbody] at hstarts
  simpa [Text.Quoted.text] using hstarts

/-- A character that is a word by itself is read alone. -/
theorem starts_punct {c : Char} (hc : isPunctuation c = true) (rest : List Char) :
    Starts (c :: rest) (.punct c) rest := by
  have hskip := not_skipped (.inr (.inr (.inl hc)))
  have hother : c ≠ '"' ∧ isNameStart c = false ∧ isNumberStart c = false := by
    have hall : (['\x7b', '\x7d', '[', ']', ':', ',', '<', '>', ';', '$'].all fun d =>
        d ≠ '"' ∧ isNameStart d = false ∧ isNumberStart d = false) = true := by decide
    exact of_decide_eq_true (List.all_eq_true.1 hall c (List.contains_iff_mem.1 hc))
  have hread : read (c :: rest) = .ok (.punct c, 1) := by
    rw [read, if_neg hother.1, if_neg (by simp [hother.2.1]), if_neg (by simp [hother.2.2]),
      if_pos hc]
  exact starts_of_read hskip.1 hskip.2 hread

/-- A name that was read has the spelling of one. -/
theorem isWord_of_read {cs : List Char} {word : String} {n : Nat}
    (h : read cs = .ok (.name word, n)) : IsWord word := by
  cases cs with
  | nil => simp [read] at h
  | cons c cs =>
      rw [read] at h
      split at h
      · rcases hr : Text.Quoted.read cs with _ | r <;> simp [hr, Except.map] at h
      · split at h
        next hfirst =>
          cases h
          exact ⟨c, _, String.toList_ofList, hfirst, fun x hx => List.mem_takeWhile_imp hx⟩
        · split at h
          · cases h
          · split at h <;> cases h

/-- The text is read as these words, one behind the other up to its end. -/
inductive Spells : List Char → List Lexeme → Prop where
  | nil {cs rest : List Char} (h : Starts cs .eof rest) : Spells cs []
  | cons {cs rest : List Char} {l : Lexeme} {ls : List Lexeme} (h : Starts cs l rest)
      (hl : l ≠ .eof) (hrest : Spells rest ls) : Spells cs (l :: ls)

namespace Spells

variable {cs rest : List Char} {ls : List Lexeme}

theorem end_of_text : Spells [] [] :=
  .nil starts_eof

theorem blanks {bs : List Char} (hblanks : ∀ c ∈ bs, Trivia.isSpace c = true)
    (h : Spells cs ls) : Spells (bs ++ cs) ls := by
  cases h with
  | nil h => exact .nil (h.blanks hblanks)
  | cons h hl hrest => exact .cons (h.blanks hblanks) hl hrest

theorem blank {c : Char} (hspace : Trivia.isSpace c = true) (h : Spells cs ls) :
    Spells (c :: cs) ls :=
  Spells.blanks (fun _ hx => List.mem_singleton.1 hx ▸ hspace) h

theorem name {word : String} (hword : IsWord word) (hstops : Stops isNameRest rest)
    (h : Spells rest ls) : Spells (word.toList ++ rest) (.name word :: ls) :=
  .cons (starts_name hword hstops) nofun h

theorem quoted (s : String) (h : Spells rest ls) :
    Spells (Text.Quoted.text s.toList ++ rest) (.quoted s :: ls) :=
  .cons (starts_quoted s rest) nofun h

theorem punct {c : Char} (hc : isPunctuation c = true) (h : Spells rest ls) :
    Spells (c :: rest) (.punct c :: ls) :=
  .cons (starts_punct hc rest) nofun h

end Spells

end Lexeme

namespace Cursor

/-- Where nothing is skipped, the next token starts at once. -/
theorem tokenStart_eq_self {c : Cursor} (h : Trivia.leading false c.rest = []) :
    c.tokenStart = c := by
  rw [tokenStart, h]
  rfl

/-- The next token of a text that starts with a word at once. -/
theorem next_of_read {word rest : List Char} {l : Lexeme}
    (hleading : Trivia.leading false (word ++ rest) = [])
    (hread : Lexeme.read (word ++ rest) = .ok (l, word.length)) (p : Position) :
    (⟨word ++ rest, p⟩ : Cursor).next = .ok (⟨l, p⟩, ⟨rest, p.after word⟩) := by
  have hstart : (⟨word ++ rest, p⟩ : Cursor).tokenStart = ⟨word ++ rest, p⟩ :=
    tokenStart_eq_self hleading
  refine next_eq_ok_iff.2 ⟨word.length, ?_, ?_, ?_⟩
  · rw [hstart]
    exact hread
  · rw [hstart]
  · rw [hstart, advance, List.drop_left, List.take_left]

/-- The next token of a text that starts with a word. -/
theorem next_of_starts {cs rest : List Char} {l : Lexeme} (h : Lexeme.Starts cs l rest)
    (p : Position) : ∃ q q', (⟨cs, p⟩ : Cursor).next = .ok (⟨l, q⟩, ⟨rest, q'⟩) := by
  rcases h with ⟨n, hread, rfl⟩
  exact ⟨_, _, next_eq_ok_iff.2 ⟨n, hread, rfl, rfl⟩⟩

/-- The tokens of a text that is read as some words. -/
theorem tokens_of_spells {cs : List Char} {ls : List Lexeme} (h : Lexeme.Spells cs ls)
    (p : Position) :
    ∃ tokens, (⟨cs, p⟩ : Cursor).tokens = .ok tokens ∧ tokens.map Token.lexeme = ls := by
  -- The tokens are taken as the words are spelled, from the left.
  induction h generalizing p with
  | nil hstarts =>
      rcases next_of_starts hstarts p with ⟨q, q', hnext⟩
      refine ⟨[], ?_, rfl⟩
      rw [tokens]
      split
      next herror => cases hnext.symm.trans herror
      next token after hok =>
        cases hnext.symm.trans hok
        rfl
  | cons hstarts hl hrest ih =>
      rcases next_of_starts hstarts p with ⟨q, q', hnext⟩
      rcases ih q' with ⟨tokens', htokens, rfl⟩
      refine ⟨⟨_, q⟩ :: tokens', ?_, rfl⟩
      rw [tokens]
      split
      next herror => cases hnext.symm.trans herror
      next token after hok =>
        cases hnext.symm.trans hok
        rw [dif_neg hl, htokens]
        rfl

/-- A name that comes next has the spelling of one. -/
theorem isWord_of_next {c d : Cursor} {word : String} {p : Position}
    (h : c.next = .ok (⟨.name word, p⟩, d)) : Lexeme.IsWord word := by
  rcases next_eq_ok_iff.1 h with ⟨n, hread, -, -⟩
  exact Lexeme.isWord_of_read hread

end Cursor

end GraphText
