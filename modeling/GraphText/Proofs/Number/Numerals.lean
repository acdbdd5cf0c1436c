import GraphText.Proofs.Number.Written
import Mathlib.Algebra.Group.Int.Defs
import Mathlib.Algebra.Group.Nat.Defs
import Mathlib.Data.List.Induction

/-!
# Numerals

Which texts are whole numbers, and of which value, said without reading them. A
numeral is a row of digits, and its value is found from the back: one digit more
counts the digits before it as many times as the radix says. A digit is one of a
row of sixteen, of which there are two because letters have two cases.

A signed number is a decimal numeral with at most one sign. Of an unsigned one
the first characters tell the radix, so that no text has two values: a numeral
that begins with a zero is octal unless it is that zero alone.

Reading takes these texts and no others. It asks about the sign and the radix
first and about the size last, which is why the size is not said here but where
numbers are read.

## Main definitions

* `IsDigitOf`: a digit and its value.
* `Numeral`: a row of digits and its value.
* `IsSigned`, `IsUnsigned`: a text that is a whole number, and its value.

## Theorems

* `natural?_eq_some_iff_numeral`: reading a row of digits.
* `readInt_iff`, `readUInt_iff`: reading a signed and an unsigned number.
-/

namespace GraphText.Number

/-- The digits in the order of their values, with small letters. -/
def lowerDigits : List Char :=
  ['0', '1', '2', '3', '4', '5', '6', '7', '8', '9', 'a', 'b', 'c', 'd', 'e', 'f']

/-- The digits in the order of their values, with capital letters. -/
def upperDigits : List Char :=
  ['0', '1', '2', '3', '4', '5', '6', '7', '8', '9', 'A', 'B', 'C', 'D', 'E', 'F']

/-- The character is the digit of this value. -/
def IsDigitOf (radix : Nat) (c : Char) (value : Nat) : Prop :=
  value < radix ∧ (lowerDigits[value]? = some c ∨ upperDigits[value]? = some c)

/-- A row of digits, at least one, and the number that it stands for. -/
inductive Numeral (radix : Nat) : List Char → Nat → Prop where
  | one {c : Char} {d : Nat} (hc : IsDigitOf radix c d) : Numeral radix [c] d
  | more {cs : List Char} {n : Nat} {c : Char} {d : Nat} (h : Numeral radix cs n)
      (hc : IsDigitOf radix c d) : Numeral radix (cs ++ [c]) (n * radix + d)

/-- A decimal numeral with at most one sign in front of it. -/
inductive IsSigned : List Char → Int → Prop where
  | bare {cs : List Char} {n : Nat} (h : Numeral 10 cs n) : IsSigned cs n
  | plus {cs : List Char} {n : Nat} (h : Numeral 10 cs n) : IsSigned ('+' :: cs) n
  | minus {cs : List Char} {n : Nat} (h : Numeral 10 cs n) : IsSigned ('-' :: cs) (-n)

/-- A numeral whose radix is told by how it begins. -/
inductive IsUnsigned : List Char → Nat → Prop where
  | hex {x : Char} {cs : List Char} {n : Nat} (hx : x = 'x' ∨ x = 'X') (h : Numeral 16 cs n) :
      IsUnsigned ('0' :: x :: cs) n
  | octal {cs : List Char} {n : Nat} (h : Numeral 8 cs n) : IsUnsigned ('0' :: cs) n
  | decimal {cs : List Char} {n : Nat} (h : Numeral 10 cs n)
      (hzero : cs.head? = some '0' → cs = ['0']) : IsUnsigned cs n

variable {radix n d : Nat} {c : Char} {cs : List Char}

/-- A smaller radix has fewer digits, of the same values. -/
theorem digit?_eq_some_of_le (hradix : radix ≤ 16) :
    digit? radix c = some d ↔ d < radix ∧ digit? 16 c = some d := by
  simp only [digit?, Char.reduceToNat, Char.le_def, UInt32.le_iff_toNat_le]
  have hval : c.val.toNat = c.toNat := rfl
  simp only [hval, Char.reduceVal, UInt32.reduceToNat]
  split_ifs <;> simp <;> omega

theorem digit?_sixteen : digit? 16 c = some d ↔
    d < 16 ∧ (lowerDigits[d]? = some c ∨ upperDigits[d]? = some c) := by
  constructor
  · -- The characters of each of the three ranges stand in the order of the row.
    have hranges : (∀ k < 10, lowerDigits[k]? = some (Char.ofNat (48 + k))) ∧
        (∀ k < 6, lowerDigits[k + 10]? = some (Char.ofNat (97 + k))) ∧
        (∀ k < 6, upperDigits[k + 10]? = some (Char.ofNat (65 + k))) := by decide
    have hchar : ∀ first : Nat, first ≤ c.toNat → Char.ofNat (first + (c.toNat - first)) = c :=
      fun first hfirst => by rw [Nat.add_sub_cancel' hfirst, Char.ofNat_toNat]
    intro h
    simp only [digit?, Char.le_def, UInt32.le_iff_toNat_le] at h
    have hval : c.val.toNat = c.toNat := rfl
    simp only [hval, Char.reduceVal, UInt32.reduceToNat, Char.reduceToNat] at h
    split_ifs at h <;> cases h
    · refine ⟨by omega, .inl ?_⟩
      rw [hranges.1 _ (by omega), hchar 48 (by omega)]
    · refine ⟨by omega, .inl ?_⟩
      rw [hranges.2.1 _ (by omega), hchar 97 (by omega)]
    · refine ⟨by omega, .inr ?_⟩
      rw [hranges.2.2 _ (by omega), hchar 65 (by omega)]
    · omega
  · have hall : ∀ d < 16, lowerDigits[d]?.bind (digit? 16) = some d ∧
        upperDigits[d]?.bind (digit? 16) = some d := by decide
    rintro ⟨hd, hlower | hupper⟩
    · have hread := (hall d hd).1
      rwa [hlower] at hread
    · have hread := (hall d hd).2
      rwa [hupper] at hread

theorem digit?_eq_some_iff (hradix : radix ≤ 16) :
    digit? radix c = some d ↔ IsDigitOf radix c d := by
  rw [digit?_eq_some_of_le hradix, digit?_sixteen, IsDigitOf]
  exact ⟨fun h => ⟨h.1, h.2.2⟩, fun h => ⟨h.1, Nat.lt_of_lt_of_le h.1 hradix, h.2⟩⟩

/-- A row of digits is read as the number that it stands for. -/
theorem natural?_eq_some_iff_numeral (hradix : radix ≤ 16) :
    natural? radix cs = some n ↔ Numeral radix cs n := by
  rw [natural?_eq_some_iff]
  constructor
  · rintro ⟨hne, hall, rfl⟩
    -- A numeral grows at its end, so the induction takes the last digit off.
    induction cs using List.reverseRecOn with
    | nil => exact absurd rfl hne
    | append_singleton cs c ih =>
        rw [List.forall_mem_append, List.forall_mem_singleton] at hall
        rcases Option.isSome_iff_exists.1 hall.2 with ⟨d, hd⟩
        have hc := (digit?_eq_some_iff hradix).1 hd
        rw [digitsValue_append, List.foldl_cons, List.foldl_nil, hd, Option.getD_some]
        by_cases hcs : cs = []
        · subst hcs
          have hzero : digitsValue radix [] = 0 := rfl
          rw [hzero, Nat.zero_mul, Nat.zero_add]
          exact .one hc
        · exact .more (ih hcs hall.1) hc
  · intro h
    induction h with
    | one hc =>
        have hd := (digit?_eq_some_iff hradix).2 hc
        simp [isDigit, digitsValue, hd]
    | @more cs n c d _ hc ih =>
        have hd := (digit?_eq_some_iff hradix).2 hc
        refine ⟨by simp, fun x hx => ?_, ?_⟩
        · rcases List.mem_append.1 hx with hx | hx
          · exact ih.2.1 x hx
          · rw [List.mem_singleton.1 hx, isDigit, hd]
            rfl
        · rw [digitsValue_append, ih.2.2, List.foldl_cons, List.foldl_nil, hd, Option.getD_some]

/-- The signed numbers that are read are those of 32 bits. -/
theorem readInt_iff {m : Int} : (∃ v, readInt cs = some v ∧ v.toInt = m) ↔
    IsSigned cs m ∧ -2 ^ 31 ≤ m ∧ m < 2 ^ 31 := by
  have hbound : Nat.pow 2 31 = 2 ^ 31 := rfl
  have hnumeral : ∀ {cs n}, natural? 10 cs = some n ↔ Numeral 10 cs n :=
    natural?_eq_some_iff_numeral (by decide)
  constructor
  · rintro ⟨v, hv, rfl⟩
    unfold readInt at hv
    -- A sign or none: the three ways in which a signed number begins.
    split at hv
    all_goals
      simp only [Option.bind_eq_bind, Option.bind_eq_some_iff, Option.ite_none_right_eq_some,
        Option.some.injEq] at hv
      rcases hv with ⟨n, hn, hfits, rfl⟩
      rw [Int32.toInt_ofInt_of_le (by omega) (by omega)]
    · exact ⟨.minus (hnumeral.1 hn), by omega, by omega⟩
    · exact ⟨.plus (hnumeral.1 hn), by omega, by omega⟩
    · exact ⟨.bare (hnumeral.1 hn), by omega, by omega⟩
  · rintro ⟨hsigned, hlow, hhigh⟩
    refine ⟨Int32.ofInt m, ?_, Int32.toInt_ofInt_of_le hlow hhigh⟩
    cases hsigned with
    | @bare _ n h =>
        have hfits : n < Nat.pow 2 31 := by omega
        rw [readInt_digits (natural?_eq_some_iff.1 (hnumeral.2 h)).2.1, hnumeral.2 h,
          Option.bind_some, if_pos hfits]
    | @plus cs n h =>
        have hfits : n < Nat.pow 2 31 := by omega
        simp only [readInt, hnumeral.2 h, Option.bind_eq_bind, Option.bind_some, if_pos hfits]
    | @minus cs n h =>
        have hfits : n ≤ Nat.pow 2 31 := by omega
        simp only [readInt, hnumeral.2 h, Option.bind_eq_bind, Option.bind_some, if_pos hfits]

/-- What an unsigned text stands for. -/
theorem unsigned?_eq_some_iff : unsigned? cs = some n ↔ IsUnsigned cs n := by
  have hhex : ∀ {cs n}, natural? 16 cs = some n ↔ Numeral 16 cs n :=
    natural?_eq_some_iff_numeral (by decide)
  have hdecimal : ∀ {cs n}, natural? 10 cs = some n ↔ Numeral 10 cs n :=
    natural?_eq_some_iff_numeral (by decide)
  have hoctal : ∀ {cs n}, natural? 8 cs = some n ↔ Numeral 8 cs n :=
    natural?_eq_some_iff_numeral (by decide)
  constructor
  · intro h
    unfold unsigned? at h
    split at h
    · exact .hex (.inl rfl) (hhex.1 h)
    · exact .hex (.inr rfl) (hhex.1 h)
    · cases h
      exact .decimal (hdecimal.1 rfl) fun _ => rfl
    · exact .octal (hoctal.1 h)
    next hother =>
      refine .decimal (hdecimal.1 h) fun hzero => ?_
      rcases List.head?_eq_some_iff.1 hzero with ⟨ds, rfl⟩
      exact absurd rfl (hother ds)
  · intro h
    cases h with
    | hex hx h =>
        rcases hx with rfl | rfl
        · exact hhex.2 h
        · exact hhex.2 h
    | octal h =>
        have hread := hoctal.2 h
        rcases natural?_eq_some_iff.1 hread with ⟨hne, hall, -⟩
        -- What is octal is not nothing, and does not begin with an `x`.
        unfold unsigned?
        split
        next heq =>
          cases heq
          exact absurd (hall 'x' List.mem_cons_self) (by decide)
        next heq =>
          cases heq
          exact absurd (hall 'X' List.mem_cons_self) (by decide)
        next heq =>
          cases heq
          exact absurd rfl hne
        next heq =>
          cases heq
          exact hread
        next hother => exact absurd rfl (hother _)
    | decimal h hzero =>
        have hread := hdecimal.2 h
        unfold unsigned?
        split
        next => cases hzero rfl
        next => cases hzero rfl
        next => exact hread
        next hne => exact absurd (List.cons.inj (hzero rfl)).2 hne
        next => exact hread

/-- The unsigned numbers that are read are those of 32 bits. -/
theorem readUInt_iff {m : Nat} :
    (∃ v, readUInt cs = some v ∧ v.toNat = m) ↔ IsUnsigned cs m ∧ m < 2 ^ 32 := by
  have hbound : Nat.pow 2 32 = 2 ^ 32 := rfl
  rw [← unsigned?_eq_some_iff]
  constructor
  · rintro ⟨v, hv, rfl⟩
    simp only [readUInt, Option.bind_eq_bind, Option.bind_eq_some_iff,
      Option.ite_none_right_eq_some, Option.some.injEq] at hv
    rcases hv with ⟨n, hn, hfits, rfl⟩
    rw [UInt32.toNat_ofNat_of_lt' hfits]
    exact ⟨hn, hfits⟩
  · rintro ⟨hn, hfits⟩
    refine ⟨UInt32.ofNat m, ?_, UInt32.toNat_ofNat_of_lt' hfits⟩
    simp only [readUInt, hn, Option.bind_eq_bind, Option.bind_some, hbound, if_pos hfits]

end GraphText.Number
