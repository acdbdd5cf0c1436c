import GraphText.Proofs.Number.Numerals
import GraphText.Proofs.Reader.Singles

/-!
# Whole numbers in texts

A literal of a whole number is read if it is a numeral of the right kind and its
value fits into 32 bits; then it is read as this value, and any other text is an
error that names it. The text may have any length, since leading zeros do not
count, except that they make an unsigned number octal.

That is what writing has to avoid, and does: it writes decimal digits, of which
the first is zero only if there is no other. So what is written is one word, and
a literal of the number that was written.

## Theorems

* `Literal.int_eq_ok_iff`, `Literal.uint_eq_ok_iff`: reading a literal is reading a number.
* `Reader.integers_coded`: which texts are whole numbers, and that written ones are.
-/

namespace GraphText

namespace Literal

variable {text : String}

theorem int_eq_ok_iff {v : Int32} : int text = .ok v ↔ Number.readInt text.toList = some v := by
  unfold int
  split
  next n hn => rw [hn, Except.ok.injEq, Option.some.injEq]
  next hnone => simp [hnone]

theorem uint_eq_ok_iff {v : UInt32} : uint text = .ok v ↔ Number.readUInt text.toList = some v := by
  unfold uint
  split
  next n hn => rw [hn, Except.ok.injEq, Option.some.injEq]
  next hnone => simp [hnone]

/-- What is no signed number is refused. -/
theorem int_eq_error (h : ∀ v, int text ≠ .ok v) : int text = .error (.badLiteral .int text) := by
  unfold int at h ⊢
  split
  next n hn =>
    rw [hn] at h
    exact absurd rfl (h n)
  next => rfl

/-- What is no unsigned number is refused. -/
theorem uint_eq_error (h : ∀ v, uint text ≠ .ok v) :
    uint text = .error (.badLiteral .uint text) := by
  unfold uint at h ⊢
  split
  next n hn =>
    rw [hn] at h
    exact absurd rfl (h n)
  next => rfl

end Literal

namespace Reader

/-- A text is read as a signed number if it is a decimal numeral behind at most one sign, and as an
    unsigned one if it is a hexadecimal, octal or decimal numeral as its beginning tells, provided
    that its value has 32 bits; any other text is refused. What is written for a number is its
    decimal numeral, which is one word and is read as this number. -/
theorem integers_coded :
    (∀ (text : String) (n : Int), (∃ v, Literal.int text = .ok v ∧ v.toInt = n) ↔
      Number.IsSigned text.toList n ∧ -2 ^ 31 ≤ n ∧ n < 2 ^ 31) ∧
    (∀ (text : String) (n : Nat), (∃ v, Literal.uint text = .ok v ∧ v.toNat = n) ↔
      Number.IsUnsigned text.toList n ∧ n < 2 ^ 32) ∧
    (∀ text, (∀ n, Number.IsSigned text.toList n → n < -2 ^ 31 ∨ 2 ^ 31 ≤ n) →
      Literal.int text = .error (.badLiteral .int text)) ∧
    (∀ text, (∀ n, Number.IsUnsigned text.toList n → 2 ^ 32 ≤ n) →
      Literal.uint text = .error (.badLiteral .uint text)) ∧
    (∀ v : Int32, IsWordOf (Value.int v).text (.number (Value.int v).text) ∧
      Literal.int (Value.int v).text = .ok v) ∧
    ∀ v : UInt32, IsWordOf (Value.uint v).text (.number (Value.uint v).text) ∧
      Number.Numeral 10 (Value.uint v).text.toList v.toNat ∧
      Literal.uint (Value.uint v).text = .ok v := by
  have hint : ∀ (text : String) (n : Int), (∃ v, Literal.int text = .ok v ∧ v.toInt = n) ↔
      Number.IsSigned text.toList n ∧ -2 ^ 31 ≤ n ∧ n < 2 ^ 31 := by
    intro text n
    simp only [Literal.int_eq_ok_iff, Number.readInt_iff]
  have huint : ∀ (text : String) (n : Nat), (∃ v, Literal.uint text = .ok v ∧ v.toNat = n) ↔
      Number.IsUnsigned text.toList n ∧ n < 2 ^ 32 := by
    intro text n
    simp only [Literal.uint_eq_ok_iff, Number.readUInt_iff]
  -- What is refused is known from what is read.
  refine ⟨hint, huint, fun text hnone => ?_, fun text hnone => ?_, fun v => ⟨?_, ?_⟩,
    fun v => ⟨?_, ?_, ?_⟩⟩
  · refine Literal.int_eq_error fun v hv => ?_
    rcases (hint text v.toInt).1 ⟨v, hv, rfl⟩ with ⟨hsigned, hlow, hhigh⟩
    have hbeyond := hnone v.toInt hsigned
    omega
  · refine Literal.uint_eq_error fun v hv => ?_
    rcases (huint text v.toNat).1 ⟨v, hv, rfl⟩ with ⟨hunsigned, hfits⟩
    have hbeyond := hnone v.toNat hunsigned
    omega
  · exact isWordOf_lexeme rfl rfl
  · rw [Literal.int_eq_ok_iff, Value.text, String.toList_ofList, Number.readInt_intText]
  · exact isWordOf_lexeme rfl rfl
  · rw [Value.text, String.toList_ofList]
    exact (Number.natural?_eq_some_iff_numeral (by decide)).1 (Number.natural?_toDigits v.toNat)
  · rw [Literal.uint_eq_ok_iff, Value.text, String.toList_ofList, Number.readUInt_uintText]

end Reader

end GraphText
