import GraphText.Proofs.Token.Blur
import GraphText.Proofs.Token.Gaps
import GraphText.Writer

/-!
# Written comments

A comment is written line by line, each line behind a `#`, and reading skips it
again, line by line. But the two do not mean the same by a line. In writing a
line ends at a newline only. In reading a lone carriage return ends a comment
too, and ends it badly: the `#` in front of it starts no comment at all and is a
word that nothing accepts. So what a writer has put into one line is skipped
exactly if all its carriage returns are at its end, where they belong to the
newline that follows.

Skipping leaves a cursor in front of the same characters as if nothing had been
there, and in the same column, since a comment ends with its line. Only the
number of the line is another one. Cursors that differ in no more than that go
on in the same way.

## Main definitions

* `Writer.IsSkippable`: a comment that is skipped when it is read.
* `Trivia.written`: the lines of a comment as they are written.
* `Blur.columns`: the column of a position.
* `Cursor.Alike`: cursors in front of the same words.
* `Cursor.words`: the words of a text, without their places.

## Theorems

* `Trivia.closesComment_iff`: when a line ends a comment properly.
* `Trivia.fills_comment`: the line of a comment is a gap.
* `Cursor.alike_commentText`: a comment that can be skipped is skipped.
* `Cursor.words_commentText_iff`: which comments do not change the words.
-/

namespace GraphText

/-- Every carriage return of the text stands at the end of a line. -/
def Writer.IsSkippable (text : String) : Prop :=
  ∀ line ∈ Text.lines text.toList, '\r' ∉ line.dropLast

instance (text : String) : Decidable (Writer.IsSkippable text) :=
  inferInstanceAs (Decidable (∀ line ∈ Text.lines text.toList, '\r' ∉ line.dropLast))

namespace Text

theorem not_mem_of_mem_pieces {sep : Char} {cs piece : List Char} (h : piece ∈ pieces sep cs) :
    sep ∉ piece := by
  induction cs generalizing piece with
  | nil =>
      rw [List.mem_singleton.1 h]
      exact List.not_mem_nil
  | cons c cs ih =>
      rw [pieces] at h
      split at h
      · rcases List.mem_cons.1 h with rfl | h
        · exact List.not_mem_nil
        · exact ih h
      next hc =>
        -- A character that is not the separator goes to the front of the first piece.
        cases hps : pieces sep cs with
        | nil => exact absurd hps (pieces_ne_nil sep cs)
        | cons p ps =>
            simp only [hps] at h
            rcases List.mem_cons.1 h with rfl | h
            · intro hmem
              rcases List.mem_cons.1 hmem with heq | hmem
              · exact hc heq.symm
              · exact ih (hps ▸ List.mem_cons_self) hmem
            · exact ih (hps ▸ List.mem_cons_of_mem _ h)

/-- A line has no newline in it. -/
theorem not_newline_of_mem_lines {cs line : List Char} (h : line ∈ lines cs) : '\n' ∉ line := by
  rcases List.mem_append.1 h with h | h
  · rcases List.mem_map.1 h with ⟨piece, hpiece, rfl⟩
    have hnone := not_mem_of_mem_pieces ((List.dropLast_sublist _).subset hpiece)
    unfold withoutReturn
    split
    · exact fun hmem => hnone ((List.dropLast_sublist _).subset hmem)
    · exact hnone
  · split at h
    · cases h
    next hne =>
      rw [List.mem_singleton.1 h]
      rw [List.getLastD_eq_getLast?] at hne ⊢
      rw [List.getLast?_eq_some_getLast (pieces_ne_nil '\n' cs), Option.getD_some]
      exact not_mem_of_mem_pieces (List.getLast_mem _)

end Text

namespace Trivia

/-- Lines, each behind a `#`, as a comment is written. -/
def written (lines : List (List Char)) : List Char :=
  lines.flatMap fun line => '#' :: ' ' :: (line ++ ['\n'])

theorem written_cons (line : List Char) (lines : List (List Char)) :
    written (line :: lines) = '#' :: ' ' :: (line ++ ['\n']) ++ written lines :=
  List.flatMap_cons

variable {line : List Char}

/-- A line ends a comment properly if all its carriage returns stand right before its newline. -/
theorem closesComment_iff (hline : '\n' ∉ line) (rest : List Char) :
    closesComment (line ++ '\n' :: rest) = true ↔ '\r' ∉ line.dropLast := by
  induction line with
  | nil => exact iff_of_true rfl List.not_mem_nil
  | cons c cs ih =>
      have hc : c ≠ '\n' := fun heq => hline (heq ▸ List.mem_cons_self)
      have hcs : '\n' ∉ cs := fun hmem => hline (List.mem_cons_of_mem _ hmem)
      by_cases hreturn : c = '\r'
      · subst hreturn
        cases cs with
        | nil => exact iff_of_true rfl List.not_mem_nil
        | cons d ds =>
            -- Behind this carriage return stands no newline.
            have hd : d ≠ '\n' := fun heq => hcs (heq ▸ List.mem_cons_self)
            refine iff_of_false ?_ fun hnone => hnone ?_
            · have hstop : isComment '\r' = false := by decide
              rw [closesComment, List.cons_append, List.dropWhile_cons_of_neg (by simp [hstop])]
              simp [hd]
            · rw [List.dropLast_cons_cons]
              exact List.mem_cons_self
      · have hgo : isComment c = true := by simp [isComment, hreturn, hc]
        have hskip : closesComment (c :: cs ++ '\n' :: rest) =
            closesComment (cs ++ '\n' :: rest) := by
          rw [closesComment, closesComment, List.cons_append, List.dropWhile_cons_of_pos hgo]
        rw [hskip, ih hcs]
        cases cs with
        | nil => exact Iff.rfl
        | cons d ds =>
            rw [List.dropLast_cons_cons, List.mem_cons, not_or, and_iff_right (Ne.symm hreturn)]

/-- Whether a `#` starts a comment, by the line behind it. -/
theorem closesComment_blank_iff (hline : '\n' ∉ line) (rest : List Char) :
    closesComment (' ' :: line ++ '\n' :: rest) = true ↔ '\r' ∉ line.dropLast := by
  have hskip : closesComment (' ' :: line ++ '\n' :: rest) =
      closesComment (line ++ '\n' :: rest) := by
    rw [closesComment, closesComment, List.cons_append, List.dropWhile_cons_of_pos (by decide)]
  rw [hskip, closesComment_iff hline]

/-- The line of a comment is a gap. A carriage return at its end belongs to the newline. -/
theorem fills_comment (hline : '\n' ∉ line) (hreturns : '\r' ∉ line.dropLast) (rest : List Char) :
    Fills ('#' :: ' ' :: (line ++ ['\n'])) rest := by
  have hsplit : ∃ body ends, line = body ++ ends ∧ '\r' ∉ body ∧ (ends = [] ∨ ends = ['\r']) := by
    rcases line.eq_nil_or_concat' with rfl | ⟨body, c, rfl⟩
    · exact ⟨[], [], rfl, List.not_mem_nil, .inl rfl⟩
    · rw [List.dropLast_concat] at hreturns
      by_cases hc : c = '\r'
      · exact ⟨body, [c], rfl, hreturns, .inr (by rw [hc])⟩
      · exact ⟨body ++ [c], [], by simp, by simp [hreturns, Ne.symm hc], .inl rfl⟩
  rcases hsplit with ⟨body, ends, rfl, hbody, hends⟩
  have hword : ∀ c ∈ ' ' :: body, c ≠ '\r' ∧ c ≠ '\n' := by
    refine List.forall_mem_cons.2 ⟨by decide, fun c hc => ⟨?_, ?_⟩⟩
    · exact fun heq => hbody (heq ▸ hc)
    · exact fun heq => hline (heq ▸ List.mem_append_left ends hc)
  rw [List.append_assoc, ← List.cons_append]
  rcases hends with rfl | rfl
  · exact .comment hword (.inr (.inl ⟨rest, rfl⟩)) (.blank (by decide) (.nil rest))
  · refine .comment hword (.inr (.inr ⟨rest, rfl⟩)) ?_
    exact .blank (by decide) (.blank (by decide) (.nil rest))

/-- The line of a comment is skipped. -/
theorem leading_comment (hline : '\n' ∉ line) (hreturns : '\r' ∉ line.dropLast)
    (rest : List Char) :
    leading false ('#' :: ' ' :: (line ++ ['\n']) ++ rest) =
      '#' :: ' ' :: (line ++ ['\n']) ++ leading false rest :=
  (fills_comment hline hreturns rest).leading_append

/-- The lines of a comment are skipped. -/
theorem leading_comments {lines : List (List Char)}
    (hlines : ∀ line ∈ lines, '\n' ∉ line ∧ '\r' ∉ line.dropLast) (rest : List Char) :
    leading false (written lines ++ rest) = written lines ++ leading false rest := by
  induction lines with
  | nil => rfl
  | cons line lines ih =>
      rcases hlines line List.mem_cons_self with ⟨hline, hreturns⟩
      rw [written_cons, List.append_assoc, leading_comment hline hreturns,
        ih fun l hl => hlines l (List.mem_cons_of_mem _ hl), List.append_assoc]

/-- In front of the first line that cannot be skipped stands a `#` that starts no comment. -/
theorem leading_badComment {lines : List (List Char)} (hlines : ∀ line ∈ lines, '\n' ∉ line)
    (hbad : ¬ ∀ line ∈ lines, '\r' ∉ line.dropLast) (rest : List Char) :
    ∃ before behind,
      written lines ++ rest = before ++ '#' :: behind ∧
        leading false (written lines ++ rest) = before := by
  induction lines with
  | nil => exact absurd (fun line hline => absurd hline List.not_mem_nil) hbad
  | cons line lines ih =>
      have hline := hlines line List.mem_cons_self
      by_cases hreturns : '\r' ∉ line.dropLast
      · rcases ih (fun l hl => hlines l (List.mem_cons_of_mem _ hl))
          fun hall => hbad (List.forall_mem_cons.2 ⟨hreturns, hall⟩) with
          ⟨before, behind, hsplit, hbefore⟩
        refine ⟨'#' :: ' ' :: (line ++ ['\n']) ++ before, behind, ?_, ?_⟩
        · rw [written_cons, List.append_assoc, hsplit, ← List.append_assoc]
        · rw [written_cons, List.append_assoc, leading_comment hline hreturns, hbefore]
      · -- The line itself cannot be skipped, so nothing is, and its own sign comes first.
        refine ⟨[], ' ' :: (line ++ ['\n']) ++ (written lines ++ rest), ?_, ?_⟩
        · rw [written_cons, List.append_assoc]
          rfl
        · have hopen := mt (closesComment_blank_iff hline (written lines ++ rest)).1 hreturns
          have hspace : isSpace '#' = false := by decide
          simp only [written_cons, List.cons_append, List.append_assoc, List.nil_append] at hopen ⊢
          rw [leading, hspace, if_neg Bool.false_ne_true, if_neg Bool.false_ne_true,
            if_neg fun h => hopen h.2]

end Trivia

/-- Where a reader stands in its line depends on where it stood in its line. -/
theorem Position.column_after {p q : Position} (h : p.column = q.column) (cs : List Char) :
    (p.after cs).column = (q.after cs).column := by
  induction cs generalizing p q with
  | nil => exact h
  | cons c cs ih =>
      refine ih ?_
      unfold step
      split
      · rfl
      · exact congrArg (· + 1) h

/-- The column is seen of a position, and not the line. -/
def Blur.columns : Blur where
  view := fun p => ⟨1, p.column⟩
  after := fun h cs => congrArg (Position.mk 1) (Position.column_after (Position.mk.inj h).2 cs)

namespace Cursor

/-- The cursors stand, behind blanks and comments, in front of the same characters and in the same
    column. -/
structure Alike (c d : Cursor) : Prop where
  rest : c.tokenStart.rest = d.tokenStart.rest
  column : c.tokenStart.position.column = d.tokenStart.position.column

/-- The words of what is left of a text, or the flaw of the first that cannot be read. -/
def words (c : Cursor) : Except Text.Quoted.Flaw (List Lexeme) :=
  (c.tokens.map (List.map Token.lexeme)).mapError Prod.fst

section

variable {c d : Cursor}

theorem alike_iff : Alike c d ↔ Blur.columns.Cursors c d := by
  constructor
  · exact fun h => ⟨h.rest, congrArg (Position.mk 1) h.column⟩
  · exact fun h => ⟨h.rest, (Position.mk.inj h.place).2⟩

theorem words_of_error {flaw : Text.Quoted.Flaw} (h : c.next = .error flaw) :
    c.words = .error flaw := by
  rw [words, tokens]
  split
  next flaw' hflaw =>
    cases h.symm.trans hflaw
    rfl
  next hok => cases h.symm.trans hok

theorem words_of_ok {l : Lexeme} {p : Position} (h : c.next = .ok (⟨l, p⟩, d)) :
    c.words = if l = .eof then .ok [] else d.words.map (l :: ·) := by
  rw [words, tokens]
  split
  next hflaw => cases h.symm.trans hflaw
  next token after hok =>
    cases h.symm.trans hok
    simp only [dite_eq_ite]
    split
    · rfl
    · rw [words]
      cases d.tokens <;> rfl

/-- Cursors that are alike have the same words before them. -/
theorem Alike.words (h : Alike c d) : c.words = d.words := by
  induction hlen : c.rest.length using Nat.strongRecOn generalizing c d with
  | ind n ih =>
      rcases (alike_iff.1 h).next with ⟨flaw, hc, hd⟩ | ⟨l, p, q, c', d', hc, hd, -, hnext⟩
      · rw [words_of_error hc, words_of_error hd]
      · rw [words_of_ok hc, words_of_ok hd]
        split
        · rfl
        next hl => rw [ih _ (hlen ▸ next_rest_lt hc hl) (alike_iff.2 hnext) rfl]

end

/-- A text behind another one that is skipped. -/
theorem alike_append {skipped rest : List Char} {p q : Position}
    (h : Trivia.leading false (skipped ++ rest) = skipped ++ Trivia.leading false rest)
    (hcolumn : (p.after skipped).column = q.column) : Alike ⟨skipped ++ rest, p⟩ ⟨rest, q⟩ := by
  have hstart : (⟨skipped ++ rest, p⟩ : Cursor).tokenStart =
      (⟨rest, p.after skipped⟩ : Cursor).tokenStart := by
    unfold tokenStart advance
    simp only [h, List.length_append, List.drop_length_add_append, List.take_length_add_append,
      Position.after_append]
  have halike : Alike ⟨rest, p.after skipped⟩ ⟨rest, q⟩ :=
    alike_iff.2 (.of_rest rfl (congrArg (Position.mk 1) hcolumn))
  exact ⟨hstart ▸ halike.rest, hstart ▸ halike.column⟩

/-- A comment ends where a line starts. -/
theorem column_comments (lines : List (List Char)) {p : Position} (hp : p.column = 1) :
    (p.after (Trivia.written lines)).column = 1 := by
  induction lines generalizing p with
  | nil => exact hp
  | cons line lines ih =>
      rw [Trivia.written_cons, Position.after_append]
      refine ih ?_
      rw [← List.cons_append, ← List.cons_append, Position.after_append]
      rfl

theorem ofText_commentText (text rest : String) :
    ofText (Writer.commentText text ++ rest) =
      ⟨Trivia.written (Text.lines text.toList) ++ rest.toList, .start⟩ := by
  rw [ofText, String.toList_append, Writer.commentText, String.toList_ofList, Trivia.written]

/-- What a writer puts out for a comment that can be skipped is skipped. -/
theorem alike_commentText {text : String} (h : Writer.IsSkippable text) (rest : String) :
    Alike (ofText (Writer.commentText text ++ rest)) (ofText rest) := by
  rw [ofText_commentText]
  refine alike_append (Trivia.leading_comments (fun line hline => ?_) rest.toList) ?_
  · exact ⟨Text.not_newline_of_mem_lines hline, h line hline⟩
  · exact column_comments _ rfl

/-- A comment that cannot be skipped puts a `#` that is a word in front of everything. -/
theorem next_commentText {text : String} (h : ¬ Writer.IsSkippable text) (rest : String) :
    ∃ p c, (ofText (Writer.commentText text ++ rest)).next = .ok (⟨.unknown '#', p⟩, c) := by
  rcases Trivia.leading_badComment (fun line => Text.not_newline_of_mem_lines) h rest.toList with
    ⟨before, behind, hsplit, hbefore⟩
  rw [ofText_commentText]
  generalize Trivia.written (Text.lines text.toList) ++ rest.toList = cs at hsplit hbefore
  have hstart : (⟨cs, .start⟩ : Cursor).tokenStart.rest = '#' :: behind := by
    rw [tokenStart, advance, hbefore, hsplit, List.drop_left]
  have hread : Lexeme.read ('#' :: behind) = .ok (.unknown '#', 1) := rfl
  exact ⟨_, _, next_eq_ok_iff.2 ⟨1, hstart ▸ hread, rfl, rfl⟩⟩

/-- The comments that do not change the words of any text behind them are those that can be
    skipped. -/
theorem words_commentText_iff {text : String} :
    (∀ rest, (ofText (Writer.commentText text ++ rest)).words = (ofText rest).words) ↔
      Writer.IsSkippable text := by
  constructor
  · intro hall
    by_contra hskip
    -- In front of no text there are no words, and then there is at least the `#`.
    rcases next_commentText hskip "" with ⟨p, c, hnext⟩
    have hend : (ofText "").next = .ok (⟨.eof, .start⟩, ofText "") := rfl
    have hwords := hall ""
    rw [words_of_ok hnext, if_neg (by decide), words_of_ok hend, if_pos rfl] at hwords
    rcases map_eq_ok hwords with ⟨ls, -, hls⟩
    cases hls
  · exact fun h rest => (alike_commentText h rest).words

end Cursor

end GraphText
