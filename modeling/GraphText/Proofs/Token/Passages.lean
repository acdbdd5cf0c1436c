import GraphText.Proofs.Token.Gaps
import GraphText.Proofs.Token.Quotes

/-!
# Passages

A part of a text is read as some words, and something is left. What the words
are depends on the part alone, and hardly on what is left: only a name or a
number can run on, and only a `#` that starts no comment looks further, to the
end of its line. So apart from that what is left can be replaced, as long as the
last word does not run on into what stands there instead.

This is not the same as reading the part alone. A part may end inside a comment,
and then the end of the comment is not in it; so what is said is said of a part
with something behind it that is known to be read from its beginning on.

## Main definitions

* `Lexeme.IsSpelled`: the characters of a word.
* `Lexeme.Breaks`: no word runs on into this text.
* `Lexeme.Continues`: what may be left instead.
* `Lexeme.Passes`: the words up to a place of a text.
* `Lexeme.Stands`: a character that is a word of a text, and where it is.
* `Lexeme.Comma`: two places, one of them with a comma in front of the same character.

## Theorems

* `Lexeme.isSpelled_of_read`: what is taken for a word.
* `Lexeme.Starts.split`: blanks and comments, a word, and what is left.
* `Lexeme.read_replace`, `Lexeme.Passes.replace`: something else is left.
* `Lexeme.Stands.insert`, `Lexeme.Stands.remove`: a comma in front of a character.
-/

namespace GraphText

namespace Lexeme

/-- The characters of a word. A quoted string has quotes around it and may have escapes in it, and
    any other word is spelled as it is. -/
def IsSpelled : Lexeme → List Char → Prop
  | .quoted s, word =>
    ∃ inside, word = '"' :: (inside ++ ['"']) ∧ Text.Quoted.Means inside s.toList
  | l, word => word = l.text.toList

/-- No word runs on into the text. -/
def Breaks (rest : List Char) : Prop :=
  Stops isNameRest rest ∧ Stops isNumberRest rest

/-- What is left may be replaced by this: it goes on with the same character, or breaks a word. -/
def Continues (rest rest' : List Char) : Prop :=
  rest'.head? = rest.head? ∨ Breaks rest'

theorem breaks_cons {c : Char} (hname : isNameRest c = false) (hnumber : isNumberRest c = false)
    (rest : List Char) : Breaks (c :: rest) :=
  ⟨stops_cons hname rest, stops_cons hnumber rest⟩

section

variable {cs rest rest' word : List Char} {c : Char} {l : Lexeme} {ls : List Lexeme}

/-- A word that ended ends there as well. -/
theorem takeWhile_replace {p : Char → Bool} (hrest : Stops p rest' ∨ rest'.head? = rest.head?)
    (h : ((word ++ rest).takeWhile p).length = word.length) :
    (word ++ rest').takeWhile p = (word ++ rest).takeWhile p := by
  have hword : (word ++ rest).takeWhile p = word :=
    List.IsPrefix.eq_of_length
      (List.prefix_of_prefix_length_le (List.takeWhile_prefix p) (List.prefix_append word rest)
        (Nat.le_of_eq h)) h
  have hall : ∀ x ∈ word, p x = true := by
    intro x hx
    rw [← hword] at hx
    exact List.mem_takeWhile_imp hx
  -- The word was taken as a whole and no more, so it was stopped by what stood behind it.
  have hstops : Stops p rest := by
    rw [List.takeWhile_append_of_pos hall, List.append_right_eq_self] at hword
    intro x hx
    cases rest with
    | nil => cases hx
    | cons y ys =>
        cases hx
        by_contra hgo
        rw [List.takeWhile_cons_of_pos (by simpa using hgo)] at hword
        cases hword
  have hstops' : Stops p rest' := by
    rcases hrest with hrest | hhead
    · exact hrest
    · intro x hx
      rw [hhead] at hx
      exact hstops x hx
  rw [hword, takeWhile_append_of_stops hall hstops']

/-- A word is the same in front of something else that it does not run on into. -/
theorem read_replace (h : read (c :: (word ++ rest)) = .ok (l, word.length + 1))
    (hrest : Continues rest rest') : read (c :: (word ++ rest')) = .ok (l, word.length + 1) := by
  have hstops : ∀ p : Char → Bool, (Breaks rest' → Stops p rest') →
      Stops p rest' ∨ rest'.head? = rest.head? :=
    fun p hp => hrest.symm.imp_left hp
  rw [read] at h ⊢
  split at h
  -- A string ends with its quote, whatever comes then.
  next hquote =>
    rcases map_eq_ok h with ⟨r, hr, hl⟩
    rcases Prod.mk.inj hl with ⟨rfl, hwidth⟩
    rcases Text.Quoted.read_eq_ok_iff.1 hr with ⟨inside, htext, hmeans⟩
    rw [htext, hmeans.width_closed] at hwidth
    rw [List.append_cons] at htext
    have hword : word = inside ++ ['"'] := List.append_inj_left htext (Nat.succ.inj hwidth).symm
    rw [if_pos hquote, hword, ← List.append_cons, hmeans.read_closed, hmeans.width_closed]
    rfl
  next hquote =>
    rw [if_neg hquote]
    split at h
    next hname =>
      rcases Prod.mk.inj (Except.ok.inj h) with ⟨hl, hlength⟩
      rw [if_pos hname, takeWhile_replace (hstops _ And.left) (Nat.succ.inj hlength)]
      exact h
    next hname =>
      rw [if_neg hname]
      split at h
      next hnumber =>
        rcases Prod.mk.inj (Except.ok.inj h) with ⟨hl, hlength⟩
        rw [if_pos hnumber, takeWhile_replace (hstops _ And.right) (Nat.succ.inj hlength)]
        exact h
      next hnumber =>
        rw [if_neg hnumber]
        exact h

/-- A text that is read starts with the characters of a word. -/
theorem isSpelled_of_read {n : Nat} (h : read cs = .ok (l, n)) :
    ∃ word rest, cs = word ++ rest ∧ n = word.length ∧ IsSpelled l word := by
  cases cs with
  | nil =>
      cases h
      exact ⟨[], [], rfl, rfl, rfl⟩
  | cons c cs =>
      rw [read] at h
      split at h
      next hquote =>
        rcases map_eq_ok h with ⟨⟨s, rest⟩, hread, hl⟩
        rcases Text.Quoted.read_eq_ok_iff.1 hread with ⟨inside, rfl, hmeans⟩
        cases hl
        refine ⟨'"' :: (inside ++ ['"']), rest, by simp [hquote], ?_, inside, rfl, ?_⟩
        · rw [hmeans.width_closed, List.length_cons]
        · rw [String.toList_ofList]
          exact hmeans
      · -- A name or a number is as long as it can be, and anything else is one character.
        repeat' split at h
        all_goals cases h
        · refine ⟨_, cs.dropWhile isNameRest, ?_, rfl, String.toList_ofList.symm⟩
          rw [List.cons_append, List.takeWhile_append_dropWhile]
        · refine ⟨_, cs.dropWhile isNumberRest, ?_, rfl, String.toList_ofList.symm⟩
          rw [List.cons_append, List.takeWhile_append_dropWhile]
        · exact ⟨[c], cs, rfl, rfl, by simp [IsSpelled, text]⟩
        · exact ⟨[c], cs, rfl, rfl, by simp [IsSpelled, text]⟩

/-- Only a `#` that starts no comment is read as what is not known at all. -/
theorem eq_unknown_of_read {n : Nat} (h : read ('#' :: cs) = .ok (l, n)) : l = .unknown '#' := by
  have hread : read ('#' :: cs) = .ok (.unknown '#', 1) := rfl
  cases hread.symm.trans h
  rfl

/-- A text starts with the same word behind blanks and comments. -/
theorem Starts.skip {gap : List Char}
    (hgap : Trivia.leading false (gap ++ cs) = gap ++ Trivia.leading false cs)
    (h : Starts cs l rest) : Starts (gap ++ cs) l rest := by
  rcases h with ⟨n, hread, hrest⟩
  have hdrop : (gap ++ cs).drop (Trivia.leading false (gap ++ cs)).length =
      cs.drop (Trivia.leading false cs).length := by
    rw [hgap, List.length_append, List.drop_length_add_append]
  exact ⟨n, by rw [hdrop]; exact hread, by rw [hdrop]; exact hrest⟩

/-- A text that starts with a word consists of blanks and comments, the word, and what is left. The
    blanks and comments are such by themselves, and the word is what it is by itself. -/
theorem Starts.split (h : Starts cs l rest) (hl : l ≠ .eof) :
    ∃ gap c word, cs = gap ++ c :: (word ++ rest) ∧ Trivia.IsSkipped gap ∧
      Trivia.isSpace c = false ∧ read (c :: (word ++ rest)) = .ok (l, word.length + 1) := by
  rcases h with ⟨n, hread, hrest⟩
  rcases Trivia.exists_separates cs with ⟨gap, body, rfl, hseparates⟩
  rw [Trivia.separates_iff.1 hseparates, List.drop_left] at hread hrest
  cases body with
  | nil =>
      cases hread
      exact absurd rfl hl
  | cons c tail =>
      rcases isSpelled_of_read hread with ⟨word, behind, htext, rfl, -⟩
      cases word with
      | nil => exact absurd (width_pos_of_read hread nofun) (Nat.lt_irrefl 0)
      | cons d word =>
          rcases List.cons.inj htext with ⟨rfl, rfl⟩
          have hbehind : rest = behind := hrest.trans List.drop_left
          rw [hbehind]
          exact ⟨gap, c, word, rfl, hseparates.isSkipped, hseparates.isSpace_eq_false, hread⟩

/-- A character that is a word by itself stands behind blanks and comments. -/
theorem Starts.punct (h : Starts cs (.punct c) rest) :
    ∃ gap, cs = gap ++ c :: rest ∧ Trivia.IsSkipped gap ∧ isPunctuation c = true := by
  rcases h.split nofun with ⟨gap, d, word, rfl, hgap, -, hread⟩
  rw [read] at hread
  split at hread
  · rcases map_eq_ok hread with ⟨r, -, hl⟩
    cases hl
  · repeat' split at hread
    · cases hread
    · cases hread
    next hpunct =>
      rcases Prod.mk.inj (Except.ok.inj hread) with ⟨hl, hlength⟩
      cases hl
      rw [List.eq_nil_of_length_eq_zero (Nat.succ.inj hlength).symm]
      exact ⟨gap, rfl, hgap, hpunct⟩
    · cases hread

/-- Neither a blank nor a comment nor a character that is a word by itself goes on with a word. -/
theorem breaks_of_other (hc : Trivia.isSpace c = true ∨ c = '#' ∨ isPunctuation c = true)
    (rest : List Char) : Breaks (c :: rest) := by
  have hall : ∀ others : List Char,
      (others.all fun x => isNameRest x = false ∧ isNumberRest x = false) = true → c ∈ others →
        Breaks (c :: rest) := by
    intro others hothers hmem
    rcases of_decide_eq_true (List.all_eq_true.1 hothers c hmem) with ⟨hname, hnumber⟩
    exact breaks_cons hname hnumber rest
  rcases hc with hspace | hcomment | hpunct
  · refine hall [' ', '\t', '\r', '\n'] (by decide) ?_
    simpa [Trivia.isSpace, or_assoc] using hspace
  · exact hall ['#'] (by decide) (List.mem_singleton.2 hcomment)
  · exact hall _ (by decide) (List.contains_iff_mem.1 hpunct)

/-- No word runs on into what starts, behind blanks and comments, with a character that is a word by
    itself. -/
theorem Starts.breaks (h : Starts cs (.punct c) rest) : Breaks cs := by
  rcases h.punct with ⟨gap, rfl, hgap, hpunct⟩
  cases gap with
  | nil => exact breaks_of_other (.inr (.inr hpunct)) rest
  | cons x gap =>
      have hleading : Trivia.leading false (x :: (gap ++ [])) = x :: gap ++ [] := hgap []
      rw [Trivia.leading] at hleading
      refine breaks_of_other ?_ (gap ++ c :: rest)
      split at hleading
      next hspace => exact .inl hspace
      · rw [if_neg Bool.false_ne_true] at hleading
        split at hleading
        next hcomment => exact .inr (.inl hcomment.1)
        · cases hleading

/-- The text begins with these words, one behind the other, and this is left of it. -/
inductive Passes : List Char → List Lexeme → List Char → Prop where
  | nil {cs : List Char} : Passes cs [] cs
  | cons {cs mid rest : List Char} {l : Lexeme} {ls : List Lexeme} (h : Starts cs l mid)
      (hl : l ≠ .eof) (hrest : Passes mid ls rest) : Passes cs (l :: ls) rest

theorem Passes.of_append {ls' : List Lexeme} (h : Passes cs (ls ++ ls') rest) :
    ∃ mid, Passes cs ls mid ∧ Passes mid ls' rest := by
  induction ls generalizing cs with
  | nil => exact ⟨cs, .nil, h⟩
  | cons l ls ih =>
      cases h with
      | cons h hl hrest =>
          rcases ih hrest with ⟨mid, hfront, hbehind⟩
          exact ⟨mid, .cons h hl hfront, hbehind⟩

theorem Passes.concat (h : Passes cs (ls ++ [l]) rest) :
    ∃ mid, Passes cs ls mid ∧ Starts mid l rest ∧ l ≠ .eof := by
  rcases h.of_append with ⟨mid, hfront, hlast⟩
  cases hlast with
  | cons h hl hrest =>
      cases hrest
      exact ⟨mid, hfront, h, hl⟩

/-- What is left may be replaced by something that the last word does not run on into. The words in
    front of it stay, and so do the characters. -/
theorem Passes.replace (h : Passes cs ls rest) (hknown : .unknown '#' ∉ ls) :
    ∃ front, cs = front ++ rest ∧
      ∀ rest', Continues rest rest' → Passes (front ++ rest') ls rest' := by
  induction h with
  | nil => exact ⟨[], rfl, fun _ _ => .nil⟩
  | @cons cs mid rest l ls hstarts hl _ ih =>
      rcases ih fun hmem => hknown (List.mem_cons_of_mem _ hmem) with ⟨front, rfl, hpasses⟩
      rcases hstarts.split hl with ⟨gap, c, word, rfl, hgap, hspace, hread⟩
      refine ⟨gap ++ c :: (word ++ front), by simp, fun rest' hrest' => ?_⟩
      have hcomment : c ≠ '#' := by
        rintro rfl
        exact hknown (List.mem_cons.2 (.inl (eq_unknown_of_read hread).symm))
      -- Behind this word comes the next one, if there is one.
      have hcontinues : Continues (front ++ rest) (front ++ rest') := by
        cases front with
        | nil => exact hrest'
        | cons x front => exact .inl rfl
      have hword := starts_of_read hspace hcomment (read_replace hread hcontinues)
      rw [List.drop_succ_cons, List.drop_left] at hword
      have hstarts' := hword.skip (hgap _)
      refine .cons ?_ hl (hpasses rest' hrest')
      simpa using hstarts'

/-- The character stands behind this part of the text, and is a word behind these words. -/
structure Stands (text front : List Char) (before : List Lexeme) (c : Char)
    (behind : List Char) : Prop where
  split : text = front ++ c :: behind
  passes : Passes text (before ++ [.punct c]) behind

/-- Two texts go on with the same character and the same text behind it, and in front of the
    character one of them has a comma, with this behind the comma. -/
structure Comma (close : Char) (bare trailed middle behind : List Char) : Prop where
  bare : Starts bare (.punct close) behind
  comma : Starts trailed (.punct ',') middle
  trailed : Starts middle (.punct close) behind

variable {text front behind gap : List Char} {before : List Lexeme} {close : Char}

/-- What stands between the last of the words and the character. -/
theorem Stands.words (h : Stands text front before c behind) (hknown : .unknown '#' ∉ before) :
    ∃ words gap, front = words ++ gap ∧ Trivia.IsSkipped gap ∧ isPunctuation c = true ∧
      Passes text before (gap ++ c :: behind) ∧
      ∀ rest', Continues (gap ++ c :: behind) rest' → Passes (words ++ rest') before rest' := by
  rcases h.passes.concat with ⟨mid, hpasses, hstarts, -⟩
  rcases hstarts.punct with ⟨gap, rfl, hgap, hpunct⟩
  rcases hpasses.replace hknown with ⟨words, htext, hreplace⟩
  have hsplit := h.split
  rw [htext, ← List.append_assoc] at hsplit
  exact ⟨words, gap, (List.append_cancel_right hsplit).symm, hgap, hpunct, hpasses, hreplace⟩

/-- A comma is inserted in front of a character. -/
theorem Stands.insert (h : Stands text front before close behind)
    (hknown : .unknown '#' ∉ before) :
    ∃ bare trailed, Comma close bare trailed (close :: behind) behind ∧ Passes text before bare ∧
      Passes (front ++ ',' :: close :: behind) before trailed := by
  rcases h.words hknown with ⟨words, gap, rfl, hgap, hpunct, hpasses, hreplace⟩
  have hclose := starts_punct hpunct behind
  refine ⟨_, gap ++ ',' :: close :: behind, ⟨hclose.skip (hgap _), ?_, hclose⟩, hpasses, ?_⟩
  · exact (starts_punct (by decide) _).skip (hgap _)
  · rw [List.append_assoc]
    refine hreplace _ ?_
    cases gap with
    | nil => exact .inr (breaks_of_other (.inr (.inr (by decide))) _)
    | cons x gap => exact .inl rfl

/-- A comma in front of a character is removed. -/
theorem Stands.remove (h : Stands text front before ',' (gap ++ close :: behind))
    (hclose : Starts (gap ++ close :: behind) (.punct close) behind)
    (hknown : .unknown '#' ∉ before) :
    ∃ bare trailed, Comma close bare trailed (gap ++ close :: behind) behind ∧
      Passes text before trailed ∧ Passes (front ++ (gap ++ close :: behind)) before bare := by
  rcases h.words hknown with ⟨words, gap', rfl, hgap', -, hpasses, hreplace⟩
  refine ⟨gap' ++ (gap ++ close :: behind), _, ⟨hclose.skip (hgap' _), ?_, hclose⟩, hpasses, ?_⟩
  · exact (starts_punct (by decide) _).skip (hgap' _)
  · rw [List.append_assoc]
    refine hreplace _ ?_
    cases gap' with
    | nil => exact .inr hclose.breaks
    | cons x gap' => exact .inl rfl

/-- The comma in front of a character. -/
theorem Stands.comma (h : Stands text front (before ++ [.punct ',']) close behind)
    (hknown : .unknown '#' ∉ before) :
    ∃ front' gap, front = front' ++ ',' :: gap ∧
      Starts (gap ++ close :: behind) (.punct close) behind ∧
      Stands text front' before ',' (gap ++ close :: behind) := by
  have hknown' : .unknown '#' ∉ before ++ [.punct ','] := by
    rw [List.mem_append, List.mem_singleton, not_or]
    exact ⟨hknown, nofun⟩
  rcases h.words hknown' with ⟨words, gap, rfl, hgap, hpunct, hpasses, -⟩
  rcases hpasses.replace hknown' with ⟨front, htext, -⟩
  rcases hpasses.concat with ⟨mid, hbefore, hstarts, -⟩
  rcases hstarts.punct with ⟨gap', rfl, -, -⟩
  rcases hbefore.replace hknown with ⟨front', htext', -⟩
  -- What stands in front of the character is what stands in front of the comma, and the comma.
  have hsplit : words = front' ++ gap' ++ [','] := by
    have heq := h.split
    rw [htext', List.append_assoc] at heq
    have hends : words ++ (gap ++ close :: behind) =
        front' ++ gap' ++ [','] ++ (gap ++ close :: behind) := by
      simpa using heq.symm
    exact List.append_cancel_right hends
  refine ⟨front' ++ gap', gap, by rw [hsplit]; simp, (starts_punct hpunct behind).skip (hgap _), ?_,
    hpasses⟩
  rw [htext', List.append_assoc]

end

end Lexeme

/-- A cursor in front of a character that is a word by itself, behind blanks and comments. -/
theorem Cursor.tokenStart_of_punct {cursor : Cursor} {c : Char} {rest : List Char}
    (h : Lexeme.Starts cursor.rest (.punct c) rest) : cursor.tokenStart.rest = c :: rest := by
  rcases h.punct with ⟨gap, hrest, hgap, hpunct⟩
  have hskip := Lexeme.not_skipped (.inr (.inr (.inl hpunct)))
  have hleading : Trivia.leading false cursor.rest = gap := by
    rw [hrest, hgap, Lexeme.leading_eq_nil hskip.1 hskip.2, List.append_nil]
  rw [tokenStart, advance, hleading, hrest, List.drop_left]

end GraphText
