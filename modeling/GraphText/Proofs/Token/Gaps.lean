import GraphText.Proofs.Token.Words

/-!
# Blanks and comments

What stands between two words is a gap, and a gap is blanks and comments. What
they are is said here without skipping them. A comment runs from a `#` to the end
of its line, and it needs that end: a carriage return ends a line together with a
newline only, so a `#` in front of a lone one is no comment and belongs to no gap.

Whether something is a gap therefore depends on what stands behind it, at the end
of its last comment. In front of a word it does not. The line of the last comment
has ended in the gap, since what ends a line is no word, and so the same gap may
stand in front of any other text.

Skipping finds the longest gap. Gaps can be put together, so behind the longest
one there is none but the empty one, and from this the longest is known.

## Main definitions

* `Trivia.EndsLine`: where a comment ends.
* `Trivia.Fills`: a gap in front of a text.
* `Trivia.Separates`: the longest gap in front of a text.
* `Trivia.IsSkipped`: characters that are skipped, whatever stands behind them.

## Theorems

* `Trivia.separates_iff`: skipping finds the longest gap.
* `Trivia.Separates.isSkipped`: what is skipped in front of a word is skipped in
  front of everything.
-/

namespace GraphText

namespace Trivia

/-- The text is at its end or at the end of a line. A carriage return ends a line together with a
    newline only. -/
def EndsLine (cs : List Char) : Prop :=
  cs = [] ∨ (∃ rest, cs = '\n' :: rest) ∨ ∃ rest, cs = '\r' :: '\n' :: rest

/-- The characters in front of this text are blanks and comments. A comment runs from a `#` to the
    end of its line. -/
inductive Fills : List Char → List Char → Prop where
  | nil (rest : List Char) : Fills [] rest
  | blank {c : Char} {gap rest : List Char} (hc : c ∈ [' ', '\t', '\r', '\n'])
      (h : Fills gap rest) : Fills (c :: gap) rest
  | comment {line gap rest : List Char} (hline : ∀ c ∈ line, c ≠ '\r' ∧ c ≠ '\n')
      (hend : EndsLine (gap ++ rest)) (h : Fills gap rest) : Fills ('#' :: (line ++ gap)) rest

/-- The characters in front of this text are blanks and comments, and the text does not begin with
    more of them. -/
structure Separates (gap rest : List Char) : Prop where
  fills : Fills gap rest
  maximal : ∀ more rest', rest = more ++ rest' → Fills more rest' → more = []

/-- The characters are skipped in front of every text, and no others with them. -/
def IsSkipped (gap : List Char) : Prop :=
  ∀ rest, leading false (gap ++ rest) = gap ++ leading false rest

variable {cs gap rest : List Char} {c : Char}

theorem isSpace_iff : isSpace c = true ↔ c ∈ [' ', '\t', '\r', '\n'] := by
  simp [isSpace, or_assoc]

theorem isComment_iff : isComment c = true ↔ c ≠ '\r' ∧ c ≠ '\n' := by
  simp [isComment]

/-- Inside a comment every character but a line end goes on with it. -/
theorem leading_true_cons (c : Char) (cs : List Char) :
    leading true (c :: cs) = c :: leading (isComment c) cs := by
  rw [leading]
  split
  · rw [Bool.true_and]
  next hspace =>
    have hgo : isComment c = true := by
      simp only [isSpace, Bool.or_eq_true, decide_eq_true_eq, not_or] at hspace
      simp [isComment, hspace]
    rw [if_pos rfl, hgo]

/-- A comment goes on to the end of its line, and behind it blanks and comments go on. -/
theorem leading_true (cs : List Char) :
    leading true cs = cs.takeWhile isComment ++ leading false (cs.dropWhile isComment) := by
  induction cs with
  | nil => rfl
  | cons c cs ih =>
      rw [leading_true_cons]
      by_cases hc : isComment c = true
      · rw [List.takeWhile_cons_of_pos hc, List.dropWhile_cons_of_pos hc, hc, ih, List.cons_append]
      · have hspace : isSpace c = true := by
          rw [isComment_iff, not_and_or, not_not, not_not] at hc
          rcases hc with rfl | rfl <;> rfl
        rw [List.takeWhile_cons_of_neg hc, List.dropWhile_cons_of_neg hc, List.nil_append, leading,
          if_pos hspace, Bool.false_and, eq_false_of_ne_true hc]

/-- A comment runs up to the first character that it may not run over. -/
theorem EndsLine.head (h : EndsLine cs) : ∀ c ∈ cs.head?, isComment c = false := by
  rcases h with rfl | ⟨rest, rfl⟩ | ⟨rest, rfl⟩
  · nofun
  · rintro c ⟨⟩
    rfl
  · rintro c ⟨⟩
    rfl

theorem closesComment_eq_true_iff :
    closesComment cs = true ↔ EndsLine (cs.dropWhile isComment) := by
  have hhead := List.head?_dropWhile_not isComment cs
  unfold closesComment EndsLine
  generalize cs.dropWhile isComment = ends at hhead
  cases ends with
  | nil => simp
  | cons c rest =>
      have hc : c = '\r' ∨ c = '\n' := by
        simpa [isComment, or_iff_not_imp_left] using hhead
      rcases hc with rfl | rfl
      · cases rest with
        | nil => simp
        | cons d rest =>
            by_cases hd : d = '\n'
            · simp [hd]
            · simp [hd]
      · simp

/-- A comment that ends its line properly has a line, and is skipped together with what is skipped
    behind it. -/
theorem exists_line (h : closesComment cs = true) :
    ∃ line tail, cs = line ++ tail ∧ (∀ c ∈ line, c ≠ '\r' ∧ c ≠ '\n') ∧ EndsLine tail ∧
      leading true cs = line ++ leading false tail :=
  ⟨_, _, List.takeWhile_append_dropWhile.symm,
    fun _ hc => isComment_iff.1 (List.mem_takeWhile_imp hc), closesComment_eq_true_iff.1 h,
    leading_true cs⟩

/-- All of the blanks and comments in front of a text are skipped, and what comes then. -/
theorem Fills.leading_append (h : Fills gap rest) :
    leading false (gap ++ rest) = gap ++ leading false rest := by
  induction h with
  | nil => rfl
  | blank hc _ ih =>
      rw [List.cons_append, leading, if_pos (isSpace_iff.2 hc), Bool.false_and, ih,
        List.cons_append]
  | @comment line gap rest hline hend _ ih =>
      have hword : ∀ c ∈ line, isComment c = true := fun c hc => isComment_iff.2 (hline c hc)
      -- The comment is skipped up to its end, where the same begins again.
      have htake := takeWhile_append_of_stops hword hend.head
      have hdrop : (line ++ (gap ++ rest)).dropWhile isComment = gap ++ rest := by
        have hline := List.takeWhile_append_dropWhile (p := isComment) (l := line ++ (gap ++ rest))
        rw [htake] at hline
        exact List.append_cancel_left hline
      have hcloses : closesComment (line ++ (gap ++ rest)) = true := by
        rw [closesComment_eq_true_iff, hdrop]
        exact hend
      rw [List.cons_append, List.append_assoc, leading, if_neg (by decide), if_neg (by decide),
        if_pos ⟨rfl, hcloses⟩, leading_true, htake, hdrop, ih]
      simp

/-- What is skipped is blanks and comments. -/
theorem fills_of_leading (h : leading false (gap ++ rest) = gap) : Fills gap rest := by
  -- A comment takes its whole line at once, so the induction is on the length.
  induction hn : gap.length using Nat.strong_induction_on generalizing gap with
  | _ n ih =>
      subst hn
      cases gap with
      | nil => exact .nil rest
      | cons c gap =>
          rw [List.cons_append, leading] at h
          split at h
          next hspace =>
            exact .blank (isSpace_iff.1 hspace) (ih _ (Nat.lt_succ_self _) (List.cons.inj h).2 rfl)
          · rw [if_neg Bool.false_ne_true] at h
            split at h
            next hopens =>
              rcases hopens with ⟨rfl, hcloses⟩
              rcases exists_line hcloses with ⟨line, tail, htext, hline, hend, hleading⟩
              have hgap : gap = line ++ leading false tail := by
                rw [← hleading, (List.cons.inj h).2]
              have htail : leading false tail ++ rest = tail := by
                rw [hgap, List.append_assoc] at htext
                exact List.append_cancel_left htext
              have hshort : (leading false tail).length < ('#' :: gap).length := by
                rw [hgap, List.length_cons, List.length_append]
                omega
              rw [hgap]
              refine .comment hline (by rwa [htail]) (ih _ hshort ?_ rfl)
              rw [htail]
            · cases h

/-- Behind what separates it, nothing is skipped in front of a text. -/
theorem Separates.leading_eq_nil (h : Separates gap rest) : leading false rest = [] := by
  rcases leading_isPrefix false rest with ⟨rest', hsplit⟩
  refine h.maximal _ rest' hsplit.symm (fills_of_leading ?_)
  rw [hsplit]

/-- What is skipped is what separates a text from what was in front of it. -/
theorem separates_iff : Separates gap rest ↔ leading false (gap ++ rest) = gap := by
  constructor
  · intro h
    rw [h.fills.leading_append, h.leading_eq_nil, List.append_nil]
  · intro h
    have hfills := fills_of_leading h
    have hrest : leading false rest = [] := by
      rw [hfills.leading_append] at h
      simpa using h
    -- More of them would have been skipped as well.
    refine ⟨hfills, fun more rest' hsplit hmore => ?_⟩
    rw [hsplit, hmore.leading_append] at hrest
    exact (List.append_eq_nil_iff.1 hrest).1

theorem exists_separates (cs : List Char) :
    ∃ gap rest, cs = gap ++ rest ∧ Separates gap rest := by
  rcases leading_isPrefix false cs with ⟨rest, hrest⟩
  refine ⟨leading false cs, rest, hrest.symm, separates_iff.2 ?_⟩
  rw [hrest]

/-- In front of a word a comment ends as it does in front of any other text: what its line ends with
    is no word. -/
theorem EndsLine.replace (h : EndsLine (gap ++ c :: rest)) (hc : isSpace c = false)
    (rest' : List Char) : EndsLine (gap ++ rest') := by
  have hspace : ∀ {d}, d ∈ [' ', '\t', '\r', '\n'] → c ≠ d := by
    rintro d hd rfl
    exact Bool.false_ne_true (hc.symm.trans (isSpace_iff.2 hd))
  cases gap with
  | nil =>
      rcases h with h | ⟨_, h⟩ | ⟨_, h⟩
      · cases h
      · exact absurd (List.cons.inj h).1 (hspace (by decide))
      · exact absurd (List.cons.inj h).1 (hspace (by decide))
  | cons d gap =>
      -- The line ends in the gap, at the latest with a newline that is all of what is left of it.
      rcases h with h | ⟨_, h⟩ | ⟨_, h⟩
      · cases h
      · rw [(List.cons.inj h).1]
        exact .inr (.inl ⟨_, rfl⟩)
      · rcases List.cons.inj h with ⟨rfl, htail⟩
        cases gap with
        | nil => exact absurd (List.cons.inj htail).1 (hspace (by decide))
        | cons e gap =>
            rw [(List.cons.inj htail).1]
            exact .inr (.inr ⟨_, rfl⟩)

/-- In front of a word blanks and comments are such in front of any other text. -/
theorem Fills.replace (h : Fills gap (c :: rest)) (hc : isSpace c = false) (rest' : List Char) :
    Fills gap rest' := by
  generalize hbody : c :: rest = body at h
  induction h with
  | nil => exact .nil rest'
  | blank hblank _ ih => exact .blank hblank (ih hbody)
  | comment hline hend _ ih =>
      subst hbody
      exact .comment hline (hend.replace hc rest') (ih rfl)

theorem Separates.isSpace_eq_false (h : Separates gap (c :: rest)) : isSpace c = false := by
  by_contra hspace
  have hnone := h.leading_eq_nil
  rw [leading, if_pos (by simpa using hspace)] at hnone
  cases hnone

/-- What separates a word is skipped in front of everything. -/
theorem Separates.isSkipped (h : Separates gap (c :: rest)) : IsSkipped gap :=
  fun rest' => (h.fills.replace h.isSpace_eq_false rest').leading_append

end Trivia

end GraphText
