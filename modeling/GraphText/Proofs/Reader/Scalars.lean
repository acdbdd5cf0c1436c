import GraphText.Proofs.Number.Written
import GraphText.Proofs.Token.Words
import GraphText.Reader.Turn

/-!
# Written scalars

A scalar is written as one word, and the word is read as the scalar: a truth
value as a name, a number as a number and a string in quotes. So values may
stand side by side as long as no word runs on into the next one.

A single is read back as it was only if its text is that of a number, and of
this number. That is asked of the single here. The finite ones have it, as
`Singles` proves.

## Main definitions

* `Value.lexeme?`: the word of a value.
* `Value.ReadsBack`: a value whose text is read as the value.

## Theorems

* `starts_lexeme`, `starts_scalar`: a written scalar is one word, which is read as the scalar.
-/

namespace GraphText

/-- The word that a scalar is written as. -/
def Value.lexeme? : Value → Option Lexeme
  | .bool b => some (.name (Literal.boolText b))
  | .int n => some (.number (String.ofList (Number.intText n)))
  | .uint n => some (.number (String.ofList (Number.uintText n)))
  | .float x =>
    -- Only what is infinite or no number begins with a letter.
    some (if x.text.head?.any Lexeme.isNameStart then .name (String.ofList x.text)
      else .number (String.ofList x.text))
  | .string s => some (.quoted s)
  | .object _ | .objects _ => none

/-- Whether the value, if it is a single, is read back as it was. -/
def Value.ReadsBack : Value → Prop
  | .float x => Number.Single.read x.text = some x
  | _ => True

namespace Reader

theorem isNumberStart_of_digit {c : Char} (h : c.isDigit = true ∨ c = '.' ∨ c = '-') :
    Lexeme.isNumberStart c = true := by
  rcases h with hdigit | rfl | rfl
  · simp [Lexeme.isNumberStart, hdigit]
  · rfl
  · rfl

/-- A text of digits, points and signs is read as a number. -/
theorem starts_digits {cs rest : List Char} (hne : cs ≠ [])
    (hcs : ∀ c ∈ cs, c.isDigit = true ∨ c = '.' ∨ c = '-')
    (hrest : Stops Lexeme.isNumberRest rest) :
    Lexeme.Starts (cs ++ rest) (.number (String.ofList cs)) rest := by
  cases cs with
  | nil => exact absurd rfl hne
  | cons c cs =>
      refine Lexeme.starts_number (isNumberStart_of_digit (hcs c List.mem_cons_self))
        (fun x hx => ?_) hrest
      rcases hcs x (List.mem_cons_of_mem c hx) with hdigit | rfl | rfl
      · simp [Lexeme.isNumberRest, Char.isAlphanum, hdigit]
      · rfl
      · rfl

theorem intText_chars (n : Int32) :
    Number.intText n ≠ [] ∧ ∀ c ∈ Number.intText n, c.isDigit = true ∨ c = '.' ∨ c = '-' := by
  have hdigits : ∀ c ∈ Nat.toDigits 10 n.toInt.natAbs, c.isDigit = true ∨ c = '.' ∨ c = '-' :=
    fun c hc => .inl (Nat.isDigit_of_mem_toDigits (by decide) (by decide) hc)
  unfold Number.intText
  split
  · refine ⟨List.cons_ne_nil _ _, fun c hc => ?_⟩
    rcases List.mem_cons.1 hc with rfl | hc
    · exact .inr (.inr rfl)
    · exact hdigits c hc
  · exact ⟨Nat.toDigits_ne_nil, hdigits⟩

theorem uintText_chars (n : UInt32) :
    Number.uintText n ≠ [] ∧ ∀ c ∈ Number.uintText n, c.isDigit = true ∨ c = '.' ∨ c = '-' :=
  ⟨Nat.toDigits_ne_nil, fun _ hc =>
    .inl (Nat.isDigit_of_mem_toDigits (by decide) (by decide) hc)⟩

/-- A single whose text is made of digits is a number. -/
theorem float_lexeme {cs : List Char} (hne : cs ≠ [])
    (hcs : ∀ c ∈ cs, c.isDigit = true ∨ c = '.' ∨ c = '-') :
    (if cs.head?.any Lexeme.isNameStart then Lexeme.name (String.ofList cs)
      else .number (String.ofList cs)) = .number (String.ofList cs) := by
  cases cs with
  | nil => exact absurd rfl hne
  | cons c cs =>
      have hstart := isNumberStart_of_digit (hcs c List.mem_cons_self)
      simp [Lexeme.isNameStart_eq_false hstart]

/-- A written scalar is one word. -/
theorem starts_lexeme {v : Value} {l : Lexeme} {rest : List Char} (hl : v.lexeme? = some l)
    (hname : Stops Lexeme.isNameRest rest) (hnumber : Stops Lexeme.isNumberRest rest) :
    Lexeme.Starts (v.text.toList ++ rest) l rest := by
  cases v with
  | bool b =>
      cases hl
      have hword : Lexeme.IsWord (Literal.boolText b) := by
        cases b
        · exact ⟨'F', ['a', 'l', 's', 'e'], rfl, rfl, List.all_eq_true.1 rfl⟩
        · exact ⟨'T', ['r', 'u', 'e'], rfl, rfl, List.all_eq_true.1 rfl⟩
      exact Lexeme.starts_name hword hname
  | int n =>
      cases hl
      rw [Value.text, String.toList_ofList]
      exact starts_digits (intText_chars n).1 (intText_chars n).2 hnumber
  | uint n =>
      cases hl
      rw [Value.text, String.toList_ofList]
      exact starts_digits (uintText_chars n).1 (uintText_chars n).2 hnumber
  | float x =>
      rw [Value.lexeme?, Option.some.injEq] at hl
      subst hl
      rw [Value.text, String.toList_ofList]
      -- `NaN` and `inf` are names, while `-inf` is taken for a number.
      rcases x.text_cases with htext | htext | htext | ⟨hne, hchars⟩
      · have hword : Lexeme.IsWord "NaN" := ⟨'N', ['a', 'N'], rfl, rfl, List.all_eq_true.1 rfl⟩
        rw [htext]
        exact Lexeme.starts_name hword hname
      · rw [htext]
        exact Lexeme.starts_number (c := '-') rfl (List.all_eq_true.1 rfl) hnumber
      · have hword : Lexeme.IsWord "inf" := ⟨'i', ['n', 'f'], rfl, rfl, List.all_eq_true.1 rfl⟩
        rw [htext]
        exact Lexeme.starts_name hword hname
      · rw [float_lexeme hne hchars]
        exact starts_digits hne hchars hnumber
  | string s =>
      cases hl
      rw [Value.text, String.toList_ofList]
      exact Lexeme.starts_quoted s rest
  | object r => cases hl
  | objects rs => cases hl

/-- What has no word is written as nothing. -/
theorem text_of_lexeme?_eq_none {v : Value} (h : v.lexeme? = none) : v.text = "" := by
  cases v with
  | object r => rfl
  | objects rs => rfl
  | _ => cases h

/-- The word of a written scalar is read as the scalar. -/
theorem starts_scalar {type : ScalarType} {v : Value} {rest : List Char}
    (htype : v.type = .scalar type) (hback : v.ReadsBack)
    (hname : Stops Lexeme.isNameRest rest) (hnumber : Stops Lexeme.isNumberRest rest) :
    ∃ l, Lexeme.Starts (v.text.toList ++ rest) l rest ∧ (∀ c, l ≠ .punct c) ∧
      ∀ p, readScalar type ⟨l, p⟩ = .ok v := by
  have hstarts : ∀ l, v.lexeme? = some l → Lexeme.Starts (v.text.toList ++ rest) l rest :=
    fun l hl => starts_lexeme hl hname hnumber
  cases v with
  | bool b =>
      cases htype
      refine ⟨_, hstarts _ rfl, fun c => nofun, fun p => ?_⟩
      cases b <;> rfl
  | int n =>
      cases htype
      refine ⟨_, hstarts _ rfl, fun c => nofun, fun p => ?_⟩
      have hread : Literal.int (String.ofList (Number.intText n)) = .ok n := by
        rw [Literal.int, String.toList_ofList, Number.readInt_intText]
      simp only [readScalar, Lexeme.literal?, hread, report]
      rfl
  | uint n =>
      cases htype
      refine ⟨_, hstarts _ rfl, fun c => nofun, fun p => ?_⟩
      have hread : Literal.uint (String.ofList (Number.uintText n)) = .ok n := by
        rw [Literal.uint, String.toList_ofList, Number.readUInt_uintText]
      simp only [readScalar, Lexeme.literal?, hread, report]
      rfl
  | float x =>
      cases htype
      -- What reads back is not one of the floats without digits, so its text is a number.
      have hchars := Number.Single.text_chars hback
      refine ⟨.number (String.ofList x.text), ?_, fun c => nofun, fun p => ?_⟩
      · exact hstarts _ (congrArg some (float_lexeme hchars.1 hchars.2))
      · have hread : Literal.float (String.ofList x.text) = .ok x := by
          have hsome : Number.Single.read x.text = some x := hback
          rw [Literal.float, String.toList_ofList, hsome]
        simp only [readScalar, Lexeme.literal?, hread, report]
        rfl
  | string s =>
      cases htype
      exact ⟨_, hstarts _ rfl, fun c => nofun, fun p => rfl⟩
  | object r => cases htype
  | objects rs => cases htype

end Reader

end GraphText
