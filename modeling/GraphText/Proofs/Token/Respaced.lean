import GraphText.Proofs.Token.Comments
import GraphText.Proofs.Token.Passages
import GraphText.Proofs.Token.Strings

/-!
# Words kept apart

The words of a text can be written again, one behind the other with a blank in
between, and are read as the same words. What this needs is that each word is
read as itself in front of a blank, and nothing else is known of what is left in
front of it and behind it. A name or a number was cut off where it could not run
on, and it cannot run on into a blank. A string ends with its own quote, whatever
escapes it is written with. So no word needs its old neighbours.

The gaps do not matter either: they may be any blanks and comments, as long as
there is something between two words. In front of a word a gap is a gap in front
of every other word, so gaps and words can be chosen one by one.

There is one word that needs its neighbours, the lone `#`. It is a word only if
a carriage return ends its line without a newline, and in any other place it
begins a comment. In a text without carriage returns it does not come up.

## Main definitions

* `Lexeme.written`, `Lexeme.respaced`: words as they are written, with single blanks.
* `Lexeme.LiesApart`: texts of some words that do not touch.

## Theorems

* `Lexeme.starts_spelled`: a word in front of something else.
* `Lexeme.Spells.ne_unknown`: where a `#` is no word.
* `Lexeme.Spells.liesApart`: other gaps and other spellings.
* `Cursor.words_respaced`: the words of a text, kept apart.
-/

namespace GraphText

/-- What a text starts with is its next token. -/
theorem Cursor.starts_of_next {c d : Cursor} {l : Lexeme} {p : Position}
    (h : c.next = .ok (⟨l, p⟩, d)) : Lexeme.Starts c.rest l d.rest := by
  rcases next_eq_ok_iff.1 h with ⟨n, hread, -, rfl⟩
  exact ⟨n, hread, rfl⟩

namespace Lexeme

/-- A word as it is written: a string in quotes, with its escapes, and any other word as it is
    spelled. -/
def written : Lexeme → String
  | .quoted s => Writer.quote s
  | l => l.text

/-- Words as they are written, with a blank between any two of them. -/
def respaced (ls : List Lexeme) : String :=
  String.intercalate " " (ls.map written)

/-- The text consists of these words, each in one of its spellings, and of blanks and comments
    around them, at least one character of them between any two words. -/
inductive LiesApart : List Char → List Lexeme → Prop where
  | nil {gap : List Char} (hgap : Trivia.Fills gap []) : LiesApart gap []
  | cons {gap word rest : List Char} {l : Lexeme} {ls : List Lexeme}
      (hgap : Trivia.Fills gap (word ++ rest)) (hword : l.IsSpelled word)
      (hapart : ∀ c ∈ rest.head?, c ∈ [' ', '\t', '\r', '\n', '#']) (hrest : LiesApart rest ls) :
      LiesApart (gap ++ (word ++ rest)) (l :: ls)

variable {cs gap rest rest' word : List Char} {l : Lexeme} {ls : List Lexeme}

theorem isSpelled_iff (hquoted : ∀ s, l ≠ .quoted s) : l.IsSpelled word ↔ word = l.text.toList := by
  cases l with
  | quoted s => exact absurd rfl (hquoted s)
  | name | number | punct | unknown | eof => exact Iff.rfl

/-- What is written of a word is one of its spellings. -/
theorem isSpelled_written (l : Lexeme) : l.IsSpelled l.written.toList := by
  cases l with
  | quoted s =>
      refine ⟨Text.Quoted.body s.toList, ?_, Text.Quoted.means_body s.toList⟩
      exact String.toList_ofList
  | name | number | punct | unknown | eof => rfl

/-- Neither a blank nor a comment goes on with a word. -/
theorem breaks_of_apart (h : ∀ c ∈ rest.head?, c ∈ [' ', '\t', '\r', '\n', '#']) :
    Breaks rest := by
  cases rest with
  | nil => exact ⟨nofun, nofun⟩
  | cons c rest =>
      have hc := h c rfl
      refine breaks_of_other ?_ rest
      by_cases hcomment : c = '#'
      · exact .inr (.inl hcomment)
      · exact .inl (by simpa [Trivia.isSpace, hcomment, or_assoc] using hc)

/-- A string is read in any of its spellings, whatever is left. -/
theorem starts_quoted_spelled {s : String} (hword : (quoted s).IsSpelled word) (rest : List Char) :
    Starts (word ++ rest) (.quoted s) rest := by
  rcases hword with ⟨inside, rfl, hmeans⟩
  have hnext := Cursor.next_closed hmeans rest .start
  rw [String.ofList_toList] at hnext
  rw [List.cons_append, List.append_assoc]
  exact Cursor.starts_of_next hnext

/-- A word that a text starts with is read in any of its spellings, in front of anything that it
    does not run on into. -/
theorem starts_spelled (h : Starts cs l rest) (hl : l ≠ .eof) (hother : l ≠ .unknown '#')
    (hword : l.IsSpelled word) (hrest : Breaks rest') : Starts (word ++ rest') l rest' := by
  by_cases hquoted : ∃ s, l = .quoted s
  · rcases hquoted with ⟨s, rfl⟩
    exact starts_quoted_spelled hword rest'
  · have hplain : ∀ s, l ≠ .quoted s := fun s heq => hquoted ⟨s, heq⟩
    rcases h.split hl with ⟨gap, c, tail, rfl, -, hspace, hread⟩
    have hcomment : c ≠ '#' := by
      rintro rfl
      exact hother (eq_unknown_of_read hread)
    -- There is one spelling only, and it is what was read.
    have hspelling : word = c :: tail := by
      rcases isSpelled_of_read hread with ⟨word', behind, htext, hlength, hword'⟩
      rw [(isSpelled_iff hplain).1 hword, ← (isSpelled_iff hplain).1 hword']
      rw [← List.cons_append] at htext
      exact (List.append_inj_left htext hlength).symm
    rw [hspelling]
    have hagain := read_replace hread (.inr hrest)
    have hstarts := starts_of_read hspace hcomment hagain
    simpa using hstarts

/-- A line without carriage returns ends a comment properly. -/
theorem closesComment_of_not_mem (h : '\r' ∉ cs) : Trivia.closesComment cs = true := by
  have hsub : cs.dropWhile Trivia.isComment ⊆ cs := (List.dropWhile_sublist _).subset
  unfold Trivia.closesComment
  split
  · rfl
  next heq => exact absurd (hsub (heq ▸ List.mem_cons_self)) h
  · rfl

/-- In a text without carriage returns a `#` is no word. -/
theorem Starts.ne_unknown (h : Starts cs l rest) (hreturn : '\r' ∉ cs) : l ≠ .unknown '#' := by
  rintro rfl
  rcases h with ⟨n, hread, -⟩
  rcases Trivia.exists_separates cs with ⟨gap, body, rfl, hseparates⟩
  rw [Trivia.separates_iff.1 hseparates, List.drop_left] at hread
  rcases isSpelled_of_read hread with ⟨word, behind, rfl, -, hword⟩
  -- It would begin a comment, but behind the gap there is none.
  have hnone := hseparates.leading_eq_nil
  have hmark : word ++ behind = '#' :: behind := by rw [hword]; rfl
  have hcloses : Trivia.closesComment behind = true :=
    closesComment_of_not_mem fun hmem =>
      hreturn (List.mem_append_right _ (List.mem_append_right _ hmem))
  rw [hmark, Trivia.leading, if_neg (by decide), if_neg Bool.false_ne_true,
    if_pos ⟨rfl, hcloses⟩] at hnone
  cases hnone

theorem Starts.rest_subset (h : Starts cs l rest) : rest ⊆ cs := by
  rcases h with ⟨n, -, rfl⟩
  exact ((List.drop_sublist _ _).trans (List.drop_sublist _ _)).subset

namespace Spells

/-- In a text without carriage returns none of the words is a `#`. -/
theorem ne_unknown (h : Spells cs ls) (hreturn : '\r' ∉ cs) : ∀ l ∈ ls, l ≠ .unknown '#' := by
  induction h with
  | nil => exact nofun
  | cons hstarts _ _ ih =>
      intro l hl
      rcases List.mem_cons.1 hl with rfl | hl
      · exact hstarts.ne_unknown hreturn
      · exact ih (fun hmem => hreturn (hstarts.rest_subset hmem)) l hl

/-- The words of a text are read as such when they do not touch, in whatever spelling and with
    whatever gaps. -/
theorem liesApart (h : Spells cs ls) (hother : ∀ l ∈ ls, l ≠ .unknown '#')
    (hapart : LiesApart rest ls) : Spells rest ls := by
  induction hapart generalizing cs with
  | nil hgap =>
      have hend := starts_eof.skip hgap.leading_append
      rw [List.append_nil] at hend
      exact .nil hend
  | cons hgap hword hstop _ ih =>
      cases h with
      | cons hstarts hl hrest =>
          have hbreaks := breaks_of_apart hstop
          have hagain := starts_spelled hstarts hl (hother _ List.mem_cons_self) hword hbreaks
          refine .cons (hagain.skip hgap.leading_append) hl (ih hrest fun l hmem => ?_)
          exact hother l (List.mem_cons_of_mem _ hmem)

end Spells

theorem toList_respaced (l m : Lexeme) (ls : List Lexeme) :
    (respaced (l :: m :: ls)).toList = l.written.toList ++ ' ' :: (respaced (m :: ls)).toList := by
  rw [respaced, List.map_cons, List.map_cons, String.intercalate_cons_cons, String.toList_append,
    String.toList_append, List.append_assoc]
  rfl

/-- Words with blanks between them do not touch. -/
theorem liesApart_respaced (ls : List Lexeme) : LiesApart (respaced ls).toList ls := by
  -- Every word but the first has a blank in front of it.
  have hgaps : ∀ gap, gap = [] ∨ gap = [' '] → LiesApart (gap ++ (respaced ls).toList) ls := by
    induction ls with
    | nil =>
        intro gap hgap
        rcases hgap with rfl | rfl
        · exact .nil (.nil _)
        · exact .nil (.blank (by decide) (.nil _))
    | cons l ls ih =>
        intro gap hgap
        have hfills : ∀ rest, Trivia.Fills gap rest := by
          intro rest
          rcases hgap with rfl | rfl
          · exact .nil rest
          · exact .blank (by decide) (.nil rest)
        cases ls with
        | nil =>
            have hlast : (respaced [l]).toList = l.written.toList ++ [] := by
              rw [respaced, List.map_singleton, String.intercalate_singleton, List.append_nil]
            rw [hlast]
            exact .cons (hfills _) (isSpelled_written l) nofun (.nil (.nil _))
        | cons m ls =>
            rw [toList_respaced]
            refine .cons (hfills _) (isSpelled_written l) ?_ (ih [' '] (.inr rfl))
            rintro c ⟨⟩
            decide
  exact hgaps [] (.inl rfl)

end Lexeme

namespace Cursor

/-- What has words has a next token, which is the first of them or the end. -/
theorem exists_next_of_words {c : Cursor} {ls : List Lexeme} (h : c.words = .ok ls) :
    ∃ l p d, c.next = .ok (⟨l, p⟩, d) ∧
      (if l = .eof then .ok [] else d.words.map (l :: ·)) = .ok ls := by
  cases hnext : c.next with
  | error flaw =>
      rw [words_of_error hnext] at h
      cases h
  | ok r =>
      rcases r with ⟨⟨l, p⟩, d⟩
      rw [words_of_ok hnext] at h
      exact ⟨l, p, d, rfl, h⟩

/-- The words of what is left of a text are those that it spells. -/
theorem words_eq_ok_iff {c : Cursor} {ls : List Lexeme} :
    c.words = .ok ls ↔ Lexeme.Spells c.rest ls := by
  constructor
  · intro h
    -- The first word is the end exactly if no words are left.
    induction ls generalizing c with
    | nil =>
        rcases exists_next_of_words h with ⟨l, p, d, hnext, hwords⟩
        by_cases hl : l = .eof
        · exact .nil (hl ▸ starts_of_next hnext)
        · rw [if_neg hl] at hwords
          rcases map_eq_ok hwords with ⟨rest, -, hcons⟩
          cases hcons
    | cons first ls ih =>
        rcases exists_next_of_words h with ⟨l, p, d, hnext, hwords⟩
        by_cases hl : l = .eof
        · rw [if_pos hl] at hwords
          cases hwords
        · rw [if_neg hl] at hwords
          rcases map_eq_ok hwords with ⟨rest, hrest, hcons⟩
          cases hcons
          exact .cons (starts_of_next hnext) hl (ih hrest)
  · intro h
    rcases tokens_of_spells h c.position with ⟨tokens, htokens, rfl⟩
    rw [words, htokens]
    rfl

/-- In a text without carriage returns all that matters is the words. They are read as the same
    words, each as a string or number or whatever it was and with the same text, when they are
    written again with single blanks between them. The same is so of any other text of these words
    that do not touch, with other blanks and comments around them and other escapes in strings. -/
theorem words_respaced {text : String} {ls : List Lexeme} (hreturn : '\r' ∉ text.toList)
    (h : (ofText text).words = .ok ls) :
    (ofText (Lexeme.respaced ls)).words = .ok ls ∧
      ∀ text', Lexeme.LiesApart text'.toList ls → (ofText text').words = .ok ls := by
  have hspells := words_eq_ok_iff.1 h
  have hother := hspells.ne_unknown hreturn
  have hapart : ∀ text', Lexeme.LiesApart text'.toList ls → (ofText text').words = .ok ls :=
    fun text' hapart => words_eq_ok_iff.2 (hspells.liesApart hother hapart)
  exact ⟨hapart _ (Lexeme.liesApart_respaced ls), hapart⟩

/-- Words that touch, a string that is written with other escapes, and comments. -/
theorem words_respaced_touching :
    '\r' ∉ "a:-.5x$\"\\'\"é # c\n".toList ∧
      (ofText "a:-.5x$\"\\'\"é # c\n").words =
        .ok [.name "a", .punct ':', .number "-.5x", .punct '$', .quoted "'", .unknown 'é'] ∧
      Lexeme.respaced
        [.name "a", .punct ':', .number "-.5x", .punct '$', .quoted "'", .unknown 'é'] =
          "a : -.5x $ \"'\" é" ∧
      (ofText "a : -.5x $ \"'\" é").words =
        .ok [.name "a", .punct ':', .number "-.5x", .punct '$', .quoted "'", .unknown 'é'] := by
  have hreturn : '\r' ∉ "a:-.5x$\"\\'\"é # c\n".toList := by decide
  have hwords : (ofText "a:-.5x$\"\\'\"é # c\n").words =
      .ok [.name "a", .punct ':', .number "-.5x", .punct '$', .quoted "'", .unknown 'é'] := by
    decide +kernel
  have hrespaced : Lexeme.respaced
      [.name "a", .punct ':', .number "-.5x", .punct '$', .quoted "'", .unknown 'é'] =
        "a : -.5x $ \"'\" é" := by decide +kernel
  have hagain := (words_respaced hreturn hwords).1
  rw [hrespaced] at hagain
  exact ⟨hreturn, hwords, hrespaced, hagain⟩

end Cursor

end GraphText
