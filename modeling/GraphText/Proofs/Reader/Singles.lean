import GraphText.Proofs.Number.ReadBack
import GraphText.Proofs.Reader.Scalars

/-!
# Singles that were read

A literal may have any number of digits and any exponent, and a single is
written in another form, with few digits and none. What is written is one word
wherever it stands, and a field takes it for the same single, bit for bit, as
long as the number of the literal is one that rounds to a finite single.

There are literals beyond that, and reading does not refuse them: they are read
as infinities. An infinity is written as a word too, but no field takes it. So
whether a single can be read, written and read again is decided by the number of
its literal alone.

## Main definitions

* `Reader.IsWordOf`: a text that is read as one word wherever it stands.

## Theorems

* `Reader.isWordOf_lexeme`, `Reader.isWordOf_float`: the text of a scalar, and of a single, is one
  word.
* `Reader.readsBack_float_iff`: the singles that are read back.
* `Reader.reread_float`: which literals are read, written and read as the same single.
-/

namespace GraphText.Reader

/-- The text is read as this word and as nothing else, whatever stands behind it as long as the word
    does not run on, and a scalar is read from the word as from the text. -/
structure IsWordOf (text : String) (l : Lexeme) : Prop where
  literal : l.literal? = some text
  starts : ∀ rest, Stops Lexeme.isNameRest rest → Stops Lexeme.isNumberRest rest →
    Lexeme.Starts (text.toList ++ rest) l rest
  tokens : ∃ p, (Cursor.ofText text).tokens = .ok [⟨l, p⟩]

/-- What is written for a scalar whose word spells it is this one word. -/
theorem isWordOf_lexeme {v : Value} {l : Lexeme} (hword : v.lexeme? = some l)
    (hliteral : l.literal? = some v.text) : IsWordOf v.text l := by
  have hstarts : ∀ rest, Stops Lexeme.isNameRest rest → Stops Lexeme.isNumberRest rest →
      Lexeme.Starts (v.text.toList ++ rest) l rest :=
    fun rest hname hnumber => starts_lexeme hword hname hnumber
  refine ⟨hliteral, hstarts, ?_⟩
  have hnone : ∀ p, Stops p [] := fun p c hc => nomatch hc
  have hspells : Lexeme.Spells (v.text.toList ++ []) [l] := by
    refine .cons (hstarts [] (hnone _) (hnone _)) (fun heof => ?_) .end_of_text
    rw [heof] at hliteral
    cases hliteral
  rw [List.append_nil] at hspells
  rcases Cursor.tokens_of_spells hspells .start with ⟨tokens, htokens, hlexemes⟩
  rcases List.map_eq_singleton_iff.1 hlexemes with ⟨⟨l', p⟩, rfl, rfl⟩
  exact ⟨p, htokens⟩

/-- The text of a single is one word, also if the single is not finite. -/
theorem isWordOf_float (x : Number.Single) :
    ∃ l, (Value.float x).lexeme? = some l ∧ IsWordOf (Value.float x).text l := by
  refine ⟨_, rfl, isWordOf_lexeme rfl ?_⟩
  split <;> rfl

/-- The text of a finite single is a literal of it, and that of another one is no literal. -/
theorem float_text (x : Number.Single) :
    Literal.float (Value.float x).text =
      if x.magnitude < Number.Single.infiniteBits then .ok x
      else .error (.badLiteral .float (Value.float x).text) := by
  have hread : Number.Single.read (Value.float x).text.toList =
      if x.magnitude < Number.Single.infiniteBits then some x else none := by
    rw [Value.text, String.toList_ofList, Number.Single.read_text]
  rw [Literal.float, hread]
  split
  next y hy =>
    split at hy
    next hfinite => rw [if_pos hfinite, Option.some.inj hy]
    next => cases hy
  next hnone =>
    split at hnone
    next => cases hnone
    next hinfinite => rw [if_neg hinfinite]

/-- The singles that are read back are the finite ones. -/
theorem readsBack_float_iff (x : Number.Single) :
    (Value.float x).ReadsBack ↔ x.magnitude < Number.Single.infiniteBits := by
  rw [Value.ReadsBack, Number.Single.read_text]
  split
  next hfinite => exact iff_of_true rfl hfinite
  next hinfinite => exact iff_of_false nofun hinfinite

/-- A single that was read from a literal is written as one word. If the number of the literal
    rounds to a finite single, a field takes the word for the same single again; if it is beyond
    those, the word is refused. -/
theorem reread_float {text : String} {x : Number.Single} (hread : Literal.float text = .ok x) :
    ∃ d l, Number.Decimal.ofText? text.toList = some d ∧ IsWordOf (Value.float x).text l ∧
      (d.size < Number.Single.overflow →
        Literal.float (Value.float x).text = .ok x ∧
          ∀ p, readScalar .float ⟨l, p⟩ = .ok (.float x)) ∧
      (Number.Single.overflow ≤ d.size →
        Literal.float (Value.float x).text = .error (.badLiteral .float (Value.float x).text) ∧
          ∀ p, readScalar .float ⟨l, p⟩ =
            .error (.badLiteral .float (Value.float x).text, p)) := by
  have hsingle : Number.Single.read text.toList = some x := by
    unfold Literal.float at hread
    split at hread
    next y hy =>
      cases hread
      exact hy
    next => cases hread
  rcases Number.Single.finite_of_read hsingle with ⟨d, hd, hfinite⟩
  rcases isWordOf_float x with ⟨l, -, hword⟩
  refine ⟨d, l, hd, hword, fun hsmall => ?_, fun hlarge => ?_⟩
  · have hback : Literal.float (Value.float x).text = .ok x := by
      rw [float_text, if_pos (hfinite.2 hsmall)]
    refine ⟨hback, fun p => ?_⟩
    simp only [readScalar, hword.literal, hback, report]
    rfl
  · have hback : Literal.float (Value.float x).text =
        .error (.badLiteral .float (Value.float x).text) := by
      rw [float_text, if_neg fun hsmall => hlarge.not_gt (hfinite.1 hsmall)]
    refine ⟨hback, fun p => ?_⟩
    simp only [readScalar, hword.literal, hback, report]
    rfl

/-- A fraction that no single is, written with the digits that tell it from its neighbours. -/
theorem reread_float_tenth :
    Literal.float "0.1000000014" = .ok ⟨0x3DCCCCCD⟩ ∧
      Literal.float (Value.float ⟨0x3DCCCCCD⟩).text = .ok ⟨0x3DCCCCCD⟩ := by
  have hread : Literal.float "0.1000000014" = .ok ⟨0x3DCCCCCD⟩ := by decide +kernel
  have hdecimal : Number.Decimal.ofText? "0.1000000014".toList =
      some ⟨false, 1000000014, -10⟩ := by decide
  rcases reread_float hread with ⟨d, l, hd, -, hsmall, -⟩
  cases hdecimal.symm.trans hd
  refine ⟨hread, (hsmall ?_).1⟩
  norm_num [Number.Decimal.size, Number.Single.overflow]

/-- A literal beyond the finite singles is read, and what is then written is not. -/
theorem not_reread_float :
    ¬ ∀ (text : String) (x : Number.Single), Literal.float text = .ok x →
      ∃ l p again, (Cursor.ofText (Value.float x).text).tokens = .ok [⟨l, p⟩] ∧
        l.literal? = some again ∧ Literal.float again = .ok x := by
  intro hall
  have hread : Literal.float "1e39" = .ok ⟨0x7F800000⟩ := by decide +kernel
  rcases hall _ _ hread with ⟨l, p, again, hword, hliteral, hagain⟩
  -- The word of the infinity is `inf`, whatever way it is taken.
  rcases isWordOf_float ⟨0x7F800000⟩ with ⟨l', -, hliteral', -, p', hword'⟩
  rw [hword', Except.ok.injEq, List.singleton_inj, Token.mk.injEq] at hword
  rw [hword.1, hliteral, Option.some.injEq] at hliteral'
  rw [hliteral', float_text, if_neg (by decide)] at hagain
  cases hagain

end GraphText.Reader
