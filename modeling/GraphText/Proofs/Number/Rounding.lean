import GraphText.Number.Single
import Mathlib.Algebra.Order.Field.Power
import Mathlib.Algebra.Order.Floor.Semifield
import Mathlib.Data.Int.Log
import Mathlib.Data.Rat.Floor
import Mathlib.Tactic.Linarith
import Mathlib.Tactic.NormNum
import Mathlib.Tactic.Positivity

/-!
# Rounding

A literal is a fraction of whole numbers, and it is rounded with whole numbers
only: quotients, remainders and shifts. Here the same is said of the number
itself. The quantum of a number is the distance of its neighbours among the
singles, and the number is rounded to the nearest multiple of it. So two
literals of the same number are read as the same single, however their digits
and exponents are spelled, and the shortcuts for exponents that are far off
change nothing.

All of this follows from two facts. The exponent that is guessed from the
lengths of a fraction is the binary logarithm of its value, and a number is
rounded to more than `n` exactly if it is beyond the middle between `n` and
`n + 1`, or in it with `n` odd.

## Main definitions

* `Decimal.size`: the number of a decimal fraction, without its sign.
* `roundEven`, `quantumExponent`, `nearestMagnitude`: rounding, said of numbers.
* `Single.size`: the number of a finite single, without its sign.
* `Single.overflow`: the least number that is read as an infinity.

## Theorems

* `lt_roundEven_iff`: when a number is rounded to more than `n`.
* `Single.magnitudeOfDecimal_eq`, `Single.ofDecimal_congr`: what a decimal fraction is read as
  depends on its number.
* `Single.magnitudeOfDecimal_eq_infinite_iff`: what is read as an infinity.
* `Single.nearestMagnitude_size`: a single is nearest to itself.
-/

namespace GraphText.Number

/-- The number of a decimal fraction, without its sign. -/
def Decimal.size (d : Decimal) : ℚ :=
  d.coefficient * 10 ^ d.exponent

theorem Decimal.size_eq_zero_iff (d : Decimal) : d.size = 0 ↔ d.coefficient = 0 := by
  have hten : (10 : ℚ) ^ d.exponent ≠ 0 := by positivity
  rw [size, mul_eq_zero, or_iff_left hten, Nat.cast_eq_zero]

theorem Decimal.size_pos {d : Decimal} (hpos : 0 < d.coefficient) : 0 < d.size := by
  have hcoefficient : (0 : ℚ) < d.coefficient := by exact_mod_cast hpos
  unfold size
  positivity

/-- The whole number nearest to a number, of two equally near ones the even one. -/
def roundEven (x : ℚ) : ℕ :=
  if x - ⌊x⌋₊ < 1 / 2 then ⌊x⌋₊
  else if 1 / 2 < x - ⌊x⌋₊ then ⌊x⌋₊ + 1
  else ⌊x⌋₊ + ⌊x⌋₊ % 2

/-- The number is beyond the middle between `n` and its successor, or in the middle and rounded
    up because `n` is odd. -/
theorem lt_roundEven_iff {x : ℚ} (hx : 0 ≤ x) (n : ℕ) :
    n < roundEven x ↔ n + 1 / 2 < x ∨ (n + 1 / 2 = x ∧ n % 2 = 1) := by
  have hfloor : (⌊x⌋₊ : ℚ) ≤ x := Nat.floor_le hx
  have hnext : x < ⌊x⌋₊ + 1 := Nat.lt_floor_add_one x
  unfold roundEven
  generalize ⌊x⌋₊ = f at hfloor hnext ⊢
  rcases lt_trichotomy n f with hlt | rfl | hgt
  · -- The whole part is beyond the middle already.
    have hstep : (n : ℚ) + 1 ≤ f := by exact_mod_cast hlt
    refine iff_of_true ?_ (.inl (by linarith))
    split
    · exact hlt
    · split <;> omega
  · split
    next hbelow =>
      refine iff_of_false (by omega) ?_
      rintro (h | ⟨h, -⟩) <;> linarith
    next hbelow =>
      split
      next habove => exact iff_of_true (by omega) (.inl (by linarith))
      next habove =>
        have hmiddle : (n : ℚ) + 1 / 2 = x := by linarith
        constructor
        · intro hodd
          exact .inr ⟨hmiddle, by omega⟩
        · rintro (h | ⟨-, hodd⟩)
          · exact absurd h (by linarith)
          · omega
  · have hstep : (f : ℚ) + 1 ≤ n := by exact_mod_cast hgt
    refine iff_of_false ?_ ?_
    · split
      · omega
      · split <;> omega
    · rintro (h | ⟨h, -⟩) <;> linarith

theorem le_roundEven {x : ℚ} {n : ℕ} (h : (n : ℚ) ≤ x) : n ≤ roundEven x := by
  cases n with
  | zero => exact Nat.zero_le _
  | succ n =>
      rw [Nat.cast_succ] at h
      have hx : 0 ≤ x := (Nat.cast_nonneg n).trans (by linarith)
      exact (lt_roundEven_iff hx n).2 (.inl (by linarith))

theorem roundEven_le {x : ℚ} {n : ℕ} (hx : 0 ≤ x) (h : x ≤ n) : roundEven x ≤ n := by
  refine Nat.le_of_not_lt fun hlt => ?_
  rcases (lt_roundEven_iff hx n).1 hlt with hlt | ⟨heq, -⟩ <;> linarith

theorem roundEven_natCast (n : ℕ) : roundEven n = n :=
  Nat.le_antisymm (roundEven_le (Nat.cast_nonneg n) le_rfl) (le_roundEven le_rfl)

/-- A quotient is rounded as the number that it is. -/
theorem roundQuotient_eq {num den : ℕ} (hden : 0 < den) :
    roundQuotient num den = roundEven (num / den : ℚ) := by
  have hpos : (0 : ℚ) < den := by exact_mod_cast hden
  have hrest : (num / den : ℚ) - (num / den : ℕ) = (num % den : ℕ) / den := by
    have hparts : ((den * (num / den) + num % den : ℕ) : ℚ) = num := by
      exact_mod_cast congrArg Nat.cast (Nat.div_add_mod num den)
    rw [eq_div_iff hpos.ne', sub_mul, div_mul_cancel₀ _ hpos.ne']
    push_cast at hparts ⊢
    linarith
  have hbelow : (num % den : ℕ) / (den : ℚ) < 1 / 2 ↔ 2 * (num % den) < den := by
    rw [div_lt_div_iff₀ hpos two_pos, one_mul, mul_comm]
    exact_mod_cast Iff.rfl
  have habove : 1 / 2 < (num % den : ℕ) / (den : ℚ) ↔ den < 2 * (num % den) := by
    rw [div_lt_div_iff₀ two_pos hpos, one_mul, mul_comm _ (2 : ℚ)]
    exact_mod_cast Iff.rfl
  unfold roundQuotient roundEven
  simp only [Nat.floor_div_eq_div, hrest, hbelow, habove]

/-- The value of a fraction that was divided by a power of two. -/
theorem scaleBinary_value (num den : ℕ) (power : ℤ) :
    ((scaleBinary num den power).1 / (scaleBinary num den power).2 : ℚ) =
      num / den / 2 ^ power := by
  cases power with
  | ofNat n =>
      simp only [scaleBinary, Nat.pow_eq, Int.ofNat_eq_natCast, zpow_natCast]
      push_cast
      rw [div_div]
  | negSucc n =>
      simp only [scaleBinary, Nat.pow_eq, zpow_negSucc, div_inv_eq_mul]
      push_cast
      rw [div_mul_eq_mul_div]

theorem scaleBinary_pos {num den : ℕ} (hden : 0 < den) (power : ℤ) :
    0 < (scaleBinary num den power).2 := by
  cases power with
  | ofNat n => exact Nat.mul_pos hden (Nat.pow_pos (by decide))
  | negSucc n => exact hden

/-- The binary logarithm, by the two powers that a number lies between. -/
theorem log_eq {x : ℚ} {n : ℤ} (hle : 2 ^ n ≤ x) (hlt : x < 2 ^ (n + 1)) : Int.log 2 x = n := by
  have hx : 0 < x := lt_of_lt_of_le (by positivity) hle
  have hlower : n ≤ Int.log 2 x :=
    (Int.zpow_le_iff_le_log one_lt_two hx).1 (by exact_mod_cast hle)
  have hupper : Int.log 2 x < n + 1 :=
    (Int.lt_zpow_iff_log_lt one_lt_two hx).1 (by exact_mod_cast hlt)
  omega

/-- The guessed exponent, once corrected, is the binary logarithm. -/
theorem binaryExponent_eq {num den : ℕ} (hnum : 0 < num) (hden : 0 < den) :
    binaryExponent num den = Int.log 2 (num / den : ℚ) := by
  have hn : (0 : ℚ) < num := by exact_mod_cast hnum
  have hd : (0 : ℚ) < den := by exact_mod_cast hden
  have hnlower : (2 : ℚ) ^ (num.log2 : ℤ) ≤ num := by
    exact_mod_cast Nat.log2_self_le hnum.ne'
  have hnupper : (num : ℚ) < 2 ^ ((num.log2 : ℤ) + 1) := by
    exact_mod_cast Nat.lt_log2_self (n := num)
  have hdlower : (2 : ℚ) ^ (den.log2 : ℤ) ≤ den := by
    exact_mod_cast Nat.log2_self_le hden.ne'
  have hdupper : (den : ℚ) < 2 ^ ((den.log2 : ℤ) + 1) := by
    exact_mod_cast Nat.lt_log2_self (n := den)
  have hvalue := scaleBinary_value num den (num.log2 - den.log2)
  have hpos : 0 < (scaleBinary num den (num.log2 - den.log2)).2 := scaleBinary_pos hden _
  unfold binaryExponent
  simp only
  generalize scaleBinary num den (num.log2 - den.log2) = scaled at hvalue hpos ⊢
  have hscaled : (0 : ℚ) < scaled.2 := by exact_mod_cast hpos
  -- The test asks whether the guessed power is above the number.
  have htest : scaled.2 ≤ scaled.1 ↔ (2 : ℚ) ^ ((num.log2 : ℤ) - den.log2) ≤ num / den := by
    rw [← one_le_div (by positivity : (0 : ℚ) < 2 ^ ((num.log2 : ℤ) - den.log2)), ← hvalue,
      one_le_div hscaled, Nat.cast_le]
  split
  next hle =>
    refine (log_eq (htest.1 hle) ?_).symm
    calc (num / den : ℚ) < 2 ^ ((num.log2 : ℤ) + 1) / 2 ^ (den.log2 : ℤ) :=
          div_lt_div₀ hnupper hdlower (by positivity) (by positivity)
      _ = 2 ^ ((num.log2 : ℤ) - den.log2 + 1) := by
          rw [← zpow_sub₀ two_ne_zero]
          ring_nf
  next hlt =>
    refine (log_eq ?_ ?_).symm
    · calc (2 : ℚ) ^ ((num.log2 : ℤ) - den.log2 - 1) =
            2 ^ (num.log2 : ℤ) / 2 ^ ((den.log2 : ℤ) + 1) := by
              rw [← zpow_sub₀ two_ne_zero]
              ring_nf
        _ ≤ num / den := div_le_div₀ hn.le hnlower hd hdupper.le
    · rw [sub_add_cancel]
      exact lt_of_not_ge fun hge => hlt (htest.2 hge)

/-- The power of two that the singles next to a number are apart. -/
def quantumExponent (x : ℚ) : ℤ :=
  max (-149) (Int.log 2 x - 23)

namespace Single

/-- The magnitude bits nearest to a positive number. -/
def nearestMagnitude (x : ℚ) : ℕ :=
  let m := roundEven (x / 2 ^ quantumExponent x)
  min (if m < 2 ^ 23 then m else (quantumExponent x + 150).toNat * 2 ^ 23 + (m - 2 ^ 23))
    infiniteBits

theorem magnitudeOfFraction_eq {num den : ℕ} (hnum : 0 < num) (hden : 0 < den) :
    magnitudeOfFraction num den = nearestMagnitude (num / den) := by
  have hpower : max (-149) (binaryExponent num den - 23) = quantumExponent (num / den) := by
    rw [binaryExponent_eq hnum hden, quantumExponent]
  unfold magnitudeOfFraction nearestMagnitude
  simp only [hpower, Nat.pow_eq]
  rw [roundQuotient_eq (scaleBinary_pos hden _), scaleBinary_value]

/-- The number that the largest finite single and the power of two above it are equally near to. -/
def overflow : ℚ :=
  (2 ^ 25 - 1) * 2 ^ 103

/-- A number in quanta: below the normal range there are fewer than `2 ^ 23` of them, and in it
    there are `2 ^ 23` at least; in no range are there more than `2 ^ 24`. -/
theorem quanta_bounds {x : ℚ} (hx : 0 < x) :
    x / 2 ^ quantumExponent x < 2 ^ 24 ∧
      (-126 ≤ Int.log 2 x → 2 ^ 23 ≤ x / 2 ^ quantumExponent x) ∧
      (Int.log 2 x < -126 → x / 2 ^ quantumExponent x < 2 ^ 23) := by
  have hupper : x < 2 ^ (Int.log 2 x + 1) := by
    exact_mod_cast Int.lt_zpow_succ_log_self one_lt_two x
  have hlower : 2 ^ Int.log 2 x ≤ x := by
    exact_mod_cast Int.zpow_log_le_self one_lt_two hx
  have hquantum : (0 : ℚ) < 2 ^ quantumExponent x := by positivity
  have hle : ∀ n : ℕ, Int.log 2 x + 1 ≤ n + quantumExponent x →
      x / 2 ^ quantumExponent x < 2 ^ n := by
    intro n hn
    rw [div_lt_iff₀ hquantum, ← zpow_natCast, ← zpow_add₀ two_ne_zero]
    exact hupper.trans_le (zpow_le_zpow_right₀ one_le_two hn)
  -- A quantum is so large that 24 digits are enough, and no smaller than the least of all.
  refine ⟨hle 24 ?_, fun hnormal => ?_, fun hbelow => hle 23 ?_⟩
  · unfold quantumExponent
    omega
  · rw [le_div_iff₀ hquantum, ← zpow_natCast, ← zpow_add₀ two_ne_zero]
    refine le_trans (zpow_le_zpow_right₀ one_le_two ?_) hlower
    unfold quantumExponent
    omega
  · unfold quantumExponent
    omega

/-- Exactly the numbers from half a quantum above the largest finite single on are read as an
    infinity. -/
theorem nearestMagnitude_eq_infinite_iff {x : ℚ} (hx : 0 < x) :
    nearestMagnitude x = infiniteBits ↔ overflow ≤ x := by
  have hbounds := quanta_bounds hx
  have hupper : x < 2 ^ (Int.log 2 x + 1) := by
    exact_mod_cast Int.lt_zpow_succ_log_self one_lt_two x
  have hlower : 2 ^ Int.log 2 x ≤ x := by
    exact_mod_cast Int.zpow_log_le_self one_lt_two hx
  have hnonneg : 0 ≤ x / 2 ^ quantumExponent x := by positivity
  have hmost : roundEven (x / 2 ^ quantumExponent x) ≤ 2 ^ 24 :=
    roundEven_le hnonneg (by exact_mod_cast hbounds.1.le)
  have hleast : -126 ≤ Int.log 2 x → 2 ^ 23 ≤ roundEven (x / 2 ^ quantumExponent x) :=
    fun h => le_roundEven (by exact_mod_cast hbounds.2.1 h)
  have hinfinite : infiniteBits = 255 * 2 ^ 23 := rfl
  unfold nearestMagnitude
  simp only
  rcases lt_trichotomy (Int.log 2 x) 127 with hbelow | htop | habove
  · -- The exponent is one less than the largest, so there is room for a carry.
    refine iff_of_false ?_ fun h => ?_
    · unfold quantumExponent at hmost ⊢
      split <;> omega
    · have hlt : x < 2 ^ (127 : ℤ) :=
        hupper.trans_le (zpow_le_zpow_right₀ one_le_two (by omega))
      have hle : (2 : ℚ) ^ (127 : ℤ) ≤ overflow := by norm_num [overflow]
      exact absurd h (not_le.2 (hlt.trans_le hle))
  · -- The exponent is the largest, so a carry leads to the infinity.
    have hquantum : quantumExponent x = 104 := by
      rw [quantumExponent, htop]
      rfl
    rw [hquantum] at hmost hleast hnonneg ⊢
    have hcarry : 2 ^ 24 - 1 < roundEven (x / 2 ^ (104 : ℤ)) ↔ overflow ≤ x := by
      have hmiddle : ((2 ^ 24 - 1 : ℕ) : ℚ) + 1 / 2 = overflow / 2 ^ (104 : ℤ) := by
        norm_num [overflow]
      rw [lt_roundEven_iff hnonneg, hmiddle, and_iff_left (by decide), ← le_iff_lt_or_eq,
        div_le_div_iff_of_pos_right (by positivity)]
    rw [← hcarry]
    have := hleast (by omega)
    have : (((104 : ℤ) + 150).toNat) = 254 := rfl
    split <;> omega
  · -- The exponent is larger than any single has.
    refine iff_of_true ?_ ?_
    · have := hleast (by omega)
      unfold quantumExponent at this ⊢
      split <;> omega
    · have hle : (2 : ℚ) ^ (128 : ℤ) ≤ x :=
        (zpow_le_zpow_right₀ one_le_two (by omega)).trans hlower
      refine le_trans ?_ hle
      norm_num [overflow]

/-- A number below half the smallest single is read as a zero. -/
theorem nearestMagnitude_of_tiny {x : ℚ} (hx : 0 < x) (htiny : x < 2 ^ (-150 : ℤ)) :
    nearestMagnitude x = 0 := by
  have hlog : Int.log 2 x < -150 :=
    (Int.lt_zpow_iff_log_lt one_lt_two hx).1 (by exact_mod_cast htiny)
  have hquantum : quantumExponent x = -149 := by
    unfold quantumExponent
    omega
  -- In quanta the number is less than one half, which is rounded down.
  have hhalf : x / 2 ^ (-149 : ℤ) < 1 / 2 := by
    rw [div_lt_iff₀ (by positivity)]
    refine htiny.trans_eq ?_
    norm_num
  have hzero : roundEven (x / 2 ^ (-149 : ℤ)) = 0 := by
    refine Nat.eq_zero_of_not_pos fun hpos => ?_
    rcases (lt_roundEven_iff (by positivity) 0).1 hpos with hlt | ⟨-, hodd⟩
    · rw [Nat.cast_zero, zero_add] at hlt
      exact absurd hhalf hlt.not_gt
    · cases hodd
  unfold nearestMagnitude
  simp only [hquantum, hzero]
  rfl

/-- A number of quanta has the quantum that they are counted in, if there are enough of them for a
    normal number or the quantum is the least. -/
theorem quantumExponent_eq {m : ℕ} {q : ℤ} (hpos : 0 < m) (hmost : m < 2 ^ 24) (hq : -149 ≤ q)
    (hleast : 2 ^ 23 ≤ m ∨ q = -149) : quantumExponent ((m : ℚ) * 2 ^ q) = q := by
  have hm : (0 : ℚ) < m := by exact_mod_cast hpos
  have hsize : (0 : ℚ) < m * 2 ^ q := by positivity
  have hupper : Int.log 2 ((m : ℚ) * 2 ^ q) < 24 + q := by
    refine (Int.lt_zpow_iff_log_lt one_lt_two hsize).1 ?_
    rw [Nat.cast_ofNat, zpow_add₀ two_ne_zero]
    gcongr
    exact_mod_cast hmost
  unfold quantumExponent
  rcases hleast with hleast | rfl
  · have hlower : 23 + q ≤ Int.log 2 ((m : ℚ) * 2 ^ q) := by
      refine (Int.zpow_le_iff_le_log one_lt_two hsize).1 ?_
      rw [Nat.cast_ofNat, zpow_add₀ two_ne_zero]
      gcongr
      exact_mod_cast hleast
    omega
  · omega

/-- The number of a finite single without its sign. -/
def size (x : Single) : ℚ :=
  x.significand.1 * 2 ^ x.significand.2

/-- The significand of a single that is not a zero counts its quanta. -/
theorem quantumExponent_size {x : Single} (hpos : 0 < x.magnitude) :
    0 < x.significand.1 ∧ quantumExponent x.size = x.significand.2 := by
  have hparts : 0 < x.significand.1 ∧ x.significand.1 < 2 ^ 24 ∧ -149 ≤ x.significand.2 ∧
      (2 ^ 23 ≤ x.significand.1 ∨ x.significand.2 = -149) := by
    have hfraction : x.magnitude % 2 ^ 23 < 2 ^ 23 := Nat.mod_lt _ (by decide)
    unfold significand
    simp only [Nat.pow_eq]
    split
    next hfield =>
      refine ⟨?_, ?_, le_refl _, .inr rfl⟩ <;> simp only <;> omega
    next hfield =>
      refine ⟨?_, ?_, ?_, .inl ?_⟩ <;> simp only <;> omega
  exact ⟨hparts.1, quantumExponent_eq hparts.1 hparts.2.1 hparts.2.2.1 hparts.2.2.2⟩

theorem size_pos {x : Single} (hpos : 0 < x.magnitude) : 0 < x.size := by
  have hcount : (0 : ℚ) < x.significand.1 := by exact_mod_cast (quantumExponent_size hpos).1
  unfold size
  positivity

/-- A finite single that is not a zero is the one nearest to its number. -/
theorem nearestMagnitude_size {x : Single} (hpos : 0 < x.magnitude)
    (hfinite : x.magnitude < infiniteBits) : nearestMagnitude x.size = x.magnitude := by
  -- The number is a whole number of quanta, so it is not changed by rounding.
  have hcount : x.size / 2 ^ x.significand.2 = x.significand.1 :=
    mul_div_cancel_right₀ _ (by positivity)
  have hfraction : x.magnitude % 2 ^ 23 < 2 ^ 23 := Nat.mod_lt _ (by decide)
  unfold nearestMagnitude
  simp only [(quantumExponent_size hpos).2, hcount, roundEven_natCast]
  unfold significand
  simp only [Nat.pow_eq]
  split
  next hfield =>
    simp only
    omega
  next hfield =>
    rw [if_neg (by omega)]
    omega

end Single

theorem powerOfTen_pos (exponent : ℤ) :
    0 < (powerOfTen exponent).1 ∧ 0 < (powerOfTen exponent).2 := by
  cases exponent with
  | ofNat n => exact ⟨Nat.pow_pos (by decide), Nat.one_pos⟩
  | negSucc n => exact ⟨Nat.one_pos, Nat.pow_pos (by decide)⟩

theorem powerOfTen_value (exponent : ℤ) :
    ((powerOfTen exponent).1 / (powerOfTen exponent).2 : ℚ) = 10 ^ exponent := by
  cases exponent with
  | ofNat n => simp [powerOfTen]
  | negSucc n => simp [powerOfTen]

namespace Single

/-- What a decimal fraction is read as depends on its number alone: the shortcuts for exponents that
    are far off agree with rounding. -/
theorem magnitudeOfDecimal_eq {d : Decimal} (hpos : 0 < d.coefficient) :
    magnitudeOfDecimal d.coefficient d.exponent = nearestMagnitude d.size := by
  have hsize : 0 < d.size := Decimal.size_pos hpos
  unfold magnitudeOfDecimal
  rw [if_neg hpos.ne']
  split
  next hlarge =>
    -- With this exponent even the coefficient one is beyond the singles.
    refine ((nearestMagnitude_eq_infinite_iff hsize).2 ?_).symm
    have hone : (1 : ℚ) ≤ d.coefficient := by exact_mod_cast hpos
    calc overflow ≤ 1 * 10 ^ (60 : ℤ) := by norm_num [overflow]
      _ ≤ d.coefficient * 10 ^ d.exponent :=
          mul_le_mul hone (zpow_le_zpow_right₀ (by norm_num) hlarge.le) (by positivity)
            (Nat.cast_nonneg _)
  · split
    next hsmall =>
      -- The coefficient is below the power of ten with as many digits as it has binary ones.
      refine (nearestMagnitude_of_tiny hsize ?_).symm
      have hupper : (d.coefficient : ℚ) < 2 ^ (d.coefficient.log2 + 1) := by
        exact_mod_cast Nat.lt_log2_self (n := d.coefficient)
      calc (d.coefficient : ℚ) * 10 ^ d.exponent
          < 2 ^ (d.coefficient.log2 + 1) * 10 ^ d.exponent := by gcongr
        _ ≤ 10 ^ (d.coefficient.log2 + 1) * 10 ^ d.exponent := by gcongr; norm_num
        _ = 10 ^ ((d.coefficient.log2 + 1 : ℕ) + d.exponent) := by
            rw [zpow_add₀ (by norm_num), zpow_natCast]
        _ ≤ 10 ^ (-60 : ℤ) := zpow_le_zpow_right₀ (by norm_num) (by push_cast; omega)
        _ < 2 ^ (-150 : ℤ) := by norm_num
    next =>
      have hten := powerOfTen_pos d.exponent
      simp only
      rw [magnitudeOfFraction_eq (Nat.mul_pos hpos hten.1) hten.2, Nat.cast_mul, mul_div_assoc,
        powerOfTen_value, Decimal.size]

/-- Decimal fractions of the same number and sign are read as the same single. -/
theorem ofDecimal_congr {d e : Decimal} (hnegative : d.negative = e.negative)
    (hsize : d.size = e.size) : ofDecimal d = ofDecimal e := by
  have hmagnitude : magnitudeOfDecimal d.coefficient d.exponent =
      magnitudeOfDecimal e.coefficient e.exponent := by
    rcases Nat.eq_zero_or_pos d.coefficient with hd | hd
    · have he : e.coefficient = 0 :=
        e.size_eq_zero_iff.1 (hsize ▸ d.size_eq_zero_iff.2 hd)
      rw [magnitudeOfDecimal, if_pos hd, magnitudeOfDecimal, if_pos he]
    · have he : 0 < e.coefficient := by
        refine Nat.pos_of_ne_zero fun he => hd.ne' (d.size_eq_zero_iff.1 ?_)
        rw [hsize, e.size_eq_zero_iff.2 he]
      rw [magnitudeOfDecimal_eq hd, magnitudeOfDecimal_eq he, hsize]
  rw [ofDecimal, ofDecimal, hnegative, hmagnitude]

/-- A literal is read as an infinity exactly if its number is beyond the largest finite single by
    half a quantum. -/
theorem magnitudeOfDecimal_eq_infinite_iff (d : Decimal) :
    magnitudeOfDecimal d.coefficient d.exponent = infiniteBits ↔ overflow ≤ d.size := by
  rcases Nat.eq_zero_or_pos d.coefficient with hd | hd
  · rw [magnitudeOfDecimal, if_pos hd, d.size_eq_zero_iff.2 hd]
    refine iff_of_false (by decide) ?_
    norm_num [overflow]
  · rw [magnitudeOfDecimal_eq hd, nearestMagnitude_eq_infinite_iff (Decimal.size_pos hd)]

/-- No literal is read as something that is not a number. -/
theorem magnitudeOfDecimal_le (coefficient : ℕ) (exponent : ℤ) :
    magnitudeOfDecimal coefficient exponent ≤ infiniteBits := by
  unfold magnitudeOfDecimal
  split
  · exact Nat.zero_le _
  · split
    · exact le_refl _
    · split
      · exact Nat.zero_le _
      · exact Nat.min_le_right _ _

end Single

end GraphText.Number
