import GraphText.Proofs.Number.Rounding
import GraphText.Proofs.Number.Written
import Mathlib.Data.List.DropRight
import Mathlib.Tactic.FieldSimp

/-!
# Written singles are read back

A finite single is written as a decimal fraction that reading has already been
asked about, in positional form. That form has other digits than the fraction:
zeros at the end are dropped, zeros are put in front of the point or behind it.
But it is the same number, and reading rounds numbers. So the text of a finite
single is read as the single, bit for bit and with its sign, also that of a
zero.

The text of an infinity is a word that no literal is. So the singles that are
read back are the finite ones, and a literal is read as another one exactly if
its number is beyond them.

## Theorems

* `Decimal.ofText?_text`: the positional form says the same number.
* `Single.ofDecimal_shortest`: what a single is written as is read as the single.
* `Single.read_text`: which singles are read back.
-/

namespace GraphText.Number

theorem digitsValue_zeros (cs : List Char) (n : ℕ) :
    digitsValue 10 (cs ++ List.replicate n '0') = digitsValue 10 cs * 10 ^ n := by
  induction n with
  | zero => simp
  | succ n ih =>
      have hdigit : digit? 10 '0' = some 0 := by decide
      rw [List.replicate_succ', ← List.append_assoc, digitsValue_append, ih, List.foldl_cons,
        List.foldl_nil, hdigit, Option.getD_some, pow_succ]
      ring

theorem zeros_digitsValue (n : ℕ) (cs : List Char) :
    digitsValue 10 (List.replicate n '0' ++ cs) = digitsValue 10 cs := by
  have hnone : digitsValue 10 [] = 0 := rfl
  have hzeros := digitsValue_zeros [] n
  rw [List.nil_append, hnone, zero_mul] at hzeros
  rw [digitsValue_append, hzeros]
  rfl

namespace Decimal

section

variable {whole fraction : List Char}

theorem splitSign_digits (hne : whole ≠ []) (hwhole : ∀ c ∈ whole, isDigit 10 c = true)
    (rest : List Char) : splitSign (whole ++ rest) = (false, whole ++ rest) := by
  cases whole with
  | nil => exact absurd rfl hne
  | cons c cs =>
      have hc := hwhole c List.mem_cons_self
      unfold splitSign
      split
      next heq =>
        rw [List.cons_append, List.cons.injEq] at heq
        exact absurd (heq.1 ▸ hc) (by decide)
      next heq =>
        rw [List.cons_append, List.cons.injEq] at heq
        exact absurd (heq.1 ▸ hc) (by decide)
      · rfl

/-- Digits alone are a whole number. -/
theorem ofText?_whole (hne : whole ≠ []) (hwhole : ∀ c ∈ whole, isDigit 10 c = true) :
    ofText? whole = some ⟨false, digitsValue 10 whole, 0⟩ := by
  have hsign := splitSign_digits hne hwhole []
  have htake : whole.takeWhile (isDigit 10) = whole := List.takeWhile_eq_self_iff.2 hwhole
  have hdrop : whole.dropWhile (isDigit 10) = [] := List.dropWhile_eq_nil_iff.2 hwhole
  have hvalue := natural?_eq_some_iff.2 ⟨hne, hwhole, rfl⟩
  rw [List.append_nil] at hsign
  unfold ofText?
  simp only [hsign, htake, hdrop, List.append_nil, hvalue, exponent?, Option.bind_eq_bind,
    Option.bind_some]
  rfl

/-- Digits around a point. -/
theorem ofText?_point (hne : whole ≠ []) (hwhole : ∀ c ∈ whole, isDigit 10 c = true)
    (hfraction : ∀ c ∈ fraction, isDigit 10 c = true) :
    ofText? (whole ++ '.' :: fraction) =
      some ⟨false, digitsValue 10 (whole ++ fraction), -(fraction.length : ℤ)⟩ := by
  have hpoint : isDigit 10 '.' = false := by decide
  have hsign := splitSign_digits hne hwhole ('.' :: fraction)
  -- The digits in front of the point and those behind it are taken, and nothing is left.
  have htake : (whole ++ '.' :: fraction).takeWhile (isDigit 10) = whole := by
    rw [List.takeWhile_append_of_pos hwhole, List.takeWhile_cons_of_neg (by simp [hpoint]),
      List.append_nil]
  have hdrop : (whole ++ '.' :: fraction).dropWhile (isDigit 10) = '.' :: fraction := by
    rw [List.dropWhile_append_of_pos hwhole, List.dropWhile_cons_of_neg (by simp [hpoint])]
  have htake' : fraction.takeWhile (isDigit 10) = fraction :=
    List.takeWhile_eq_self_iff.2 hfraction
  have hdrop' : fraction.dropWhile (isDigit 10) = [] := List.dropWhile_eq_nil_iff.2 hfraction
  have hvalue : natural? 10 (whole ++ fraction) = some (digitsValue 10 (whole ++ fraction)) := by
    refine natural?_eq_some_iff.2 ⟨List.append_ne_nil_of_left_ne_nil hne _, fun c hc => ?_, rfl⟩
    rcases List.mem_append.1 hc with hc | hc
    · exact hwhole c hc
    · exact hfraction c hc
  unfold ofText?
  simp only [hsign, htake, hdrop, htake', hdrop', hvalue, exponent?, Option.bind_eq_bind,
    Option.bind_some, zero_sub]

/-- Digits that are put in their place begin with a digit. -/
theorem splitSign_place {digits : List Char} (hne : digits ≠ [])
    (hdigits : ∀ c ∈ digits, isDigit 10 c = true) (exponent : ℤ) :
    splitSign (place digits exponent) = (false, place digits exponent) := by
  cases exponent with
  | ofNat n => exact splitSign_digits hne hdigits _
  | negSucc n =>
      simp only [place]
      split
      next hinside =>
        refine splitSign_digits (fun hnil => ?_) (fun c hc => hdigits c (List.mem_of_mem_take hc)) _
        rw [List.take_eq_nil_iff] at hnil
        rcases hnil with hnone | hnil
        · omega
        · exact hne hnil
      next houtside => rfl

/-- Digits that are put in their place say the number that they stand for. -/
theorem ofText?_place {digits : List Char} (hne : digits ≠ [])
    (hdigits : ∀ c ∈ digits, isDigit 10 c = true) (exponent : ℤ) :
    ∃ d, ofText? (place digits exponent) = some d ∧ d.negative = false ∧
      d.size = digitsValue 10 digits * 10 ^ exponent := by
  have hzero : isDigit 10 '0' = true := by decide
  have hzeros : ∀ n, ∀ c ∈ List.replicate n '0', isDigit 10 c = true :=
    fun n c hc => List.eq_of_mem_replicate hc ▸ hzero
  cases exponent with
  | ofNat n =>
      -- There is no point, and zeros stand behind the digits.
      refine ⟨_, ofText?_whole (List.append_ne_nil_of_left_ne_nil hne _) fun c hc => ?_, rfl, ?_⟩
      · rcases List.mem_append.1 hc with hc | hc
        · exact hdigits c hc
        · exact hzeros n c hc
      · simp only [size, place, digitsValue_zeros, Int.ofNat_eq_natCast, zpow_natCast, zpow_zero,
          mul_one]
        push_cast
        rfl
  | negSucc n =>
      simp only [place]
      split
      next hinside =>
        -- The point stands among the digits.
        refine ⟨_, ofText?_point (fun hnil => ?_) (fun c hc => hdigits c (List.mem_of_mem_take hc))
          (fun c hc => hdigits c (List.mem_of_mem_drop hc)), rfl, ?_⟩
        · rw [List.take_eq_nil_iff] at hnil
          rcases hnil with hnone | hnil
          · omega
          · exact hne hnil
        · have hplaces : -((digits.length - (digits.length - (n + 1)) : ℕ) : ℤ) = .negSucc n := by
            omega
          simp only [size, List.take_append_drop, List.length_drop, hplaces]
      next houtside =>
        -- The point stands in front of the digits, with zeros around it.
        have hfirst : ∀ c ∈ ['0'], isDigit 10 c = true :=
          fun c hc => List.mem_singleton.1 hc ▸ hzero
        refine ⟨_, ofText?_point (List.cons_ne_nil _ _) hfirst (fun c hc => ?_), rfl, ?_⟩
        · rcases List.mem_append.1 hc with hc | hc
          · exact hzeros _ c hc
          · exact hdigits c hc
        · have hplaces : -((n + 1 - digits.length + digits.length : ℕ) : ℤ) = .negSucc n := by
            omega
          have hvalue := zeros_digitsValue (n + 1 - digits.length + 1) digits
          rw [List.replicate_succ, List.cons_append] at hvalue
          simp only [size, List.length_append, List.length_replicate, hplaces, List.cons_append,
            List.nil_append, hvalue]

/-- What is dropped at the end of the digits are zeros. -/
theorem kept_append_zeros (digits : List Char) :
    (digits.reverse.dropWhile (· = '0')).reverse ++
      List.replicate (digits.length - (digits.reverse.dropWhile (· = '0')).reverse.length) '0' =
        digits := by
  have hsplit := List.takeWhile_append_dropWhile (p := (· = '0')) (l := digits.reverse)
  have hzeros : digits.reverse.takeWhile (· = '0') =
      List.replicate (digits.reverse.takeWhile (· = '0')).length '0' :=
    List.eq_replicate_of_mem fun c hc =>
      of_decide_eq_true (List.mem_takeWhile_imp (p := (· = '0')) hc)
  have hlength := congrArg List.length hsplit
  rw [List.length_append, List.length_reverse] at hlength
  have hcount : digits.length - (digits.reverse.dropWhile (· = '0')).reverse.length =
      (digits.reverse.takeWhile (· = '0')).length := by
    rw [List.length_reverse]
    omega
  rw [hcount, ← List.reverse_replicate, ← hzeros, ← List.reverse_append, hsplit,
    List.reverse_reverse]

/-- A minus in front of an unsigned number is its sign. -/
theorem ofText?_signed {cs : List Char} {d : Decimal} (h : ofText? cs = some d)
    (hunsigned : splitSign cs = (false, cs)) (negative : Bool) :
    ofText? (if negative then '-' :: cs else cs) = some { d with negative } := by
  have hminus : splitSign ('-' :: cs) = (true, cs) := rfl
  unfold ofText? at h ⊢
  rw [hunsigned] at h
  -- Both sides take the unsigned rest apart in the same way.
  cases negative with
  | false =>
      rw [if_neg Bool.false_ne_true, hunsigned]
      simp only [Option.bind_eq_bind, Option.bind_eq_some_iff, Option.some.injEq] at h ⊢
      rcases h with ⟨coefficient, hcoefficient, power, hpower, rfl⟩
      exact ⟨coefficient, hcoefficient, power, hpower, rfl⟩
  | true =>
      rw [if_pos rfl, hminus]
      simp only [Option.bind_eq_bind, Option.bind_eq_some_iff, Option.some.injEq] at h ⊢
      rcases h with ⟨coefficient, hcoefficient, power, hpower, rfl⟩
      exact ⟨coefficient, hcoefficient, power, hpower, rfl⟩

/-- The positional form says the same number. -/
theorem ofText?_text (d : Decimal) :
    ∃ e, ofText? d.text = some e ∧ e.negative = d.negative ∧ e.size = d.size := by
  have hzeros := kept_append_zeros (Nat.toDigits 10 d.coefficient)
  unfold text
  simp only
  generalize hkept : ((Nat.toDigits 10 d.coefficient).reverse.dropWhile (· = '0')).reverse = kept
    at hzeros ⊢
  generalize (Nat.toDigits 10 d.coefficient).length - kept.length = count at hzeros ⊢
  -- Zeros at the end of the coefficient are dropped from the digits and go to the exponent.
  have hvalue : d.coefficient = digitsValue 10 kept * 10 ^ count := by
    rw [← digitsValue_zeros, hzeros, digitsValue_toDigits]
  have hdigits : ∀ c ∈ kept, isDigit 10 c = true := fun c hc =>
    isDigit_of_mem_toDigits (hzeros ▸ List.mem_append_left _ hc)
  by_cases hne : kept = []
  · -- Nothing is left only of a zero.
    have hzero : digitsValue 10 [] = 0 := rfl
    rw [hne, hzero, zero_mul] at hvalue
    rw [if_pos hne]
    refine ⟨_, ofText?_signed (d := ⟨false, 0, 0⟩) (by decide) rfl d.negative, rfl, ?_⟩
    rw [size, size, hvalue, Nat.cast_zero, zero_mul, zero_mul]
  · rw [if_neg hne]
    rcases ofText?_place hne hdigits (d.exponent + count) with ⟨e, he, -, hsize⟩
    refine ⟨_, ofText?_signed he (splitSign_place hne hdigits _) d.negative, rfl, ?_⟩
    calc e.size = digitsValue 10 kept * 10 ^ (d.exponent + count) := hsize
      _ = d.size := by
        rw [size, hvalue, zpow_add₀ (by norm_num), zpow_natCast]
        push_cast
        ring

end

end Decimal

namespace Single

/-- A single is its sign and its magnitude bits. -/
theorem ofParts_eq (x : Single) : ofParts x.isNegative x.magnitude = x := by
  have hlt : x.bits.toNat < 2 ^ 32 := x.bits.toNat_lt
  have hsign : signBit = 2 ^ 31 := rfl
  have hbits : (if x.isNegative then signBit + x.magnitude else x.magnitude) = x.bits.toNat := by
    unfold isNegative magnitude
    rw [hsign]
    split
    next hnegative =>
      have hle := of_decide_eq_true hnegative
      omega
    next hpositive =>
      have hle := of_decide_eq_false (Bool.eq_false_iff.2 hpositive)
      omega
  rw [ofParts, hbits, UInt32.ofNat_toNat]

theorem parts_ofParts (negative : Bool) {bits : ℕ} (hbits : bits < signBit) :
    (ofParts negative bits).isNegative = negative ∧ (ofParts negative bits).magnitude = bits := by
  have hsign : signBit = 2 ^ 31 := rfl
  unfold isNegative magnitude ofParts
  rw [hsign] at hbits ⊢
  cases negative with
  | false =>
      simp only [Bool.false_eq_true, if_false, UInt32.toNat_ofNat']
      refine ⟨decide_eq_false ?_, ?_⟩ <;> omega
  | true =>
      simp only [if_true, UInt32.toNat_ofNat']
      refine ⟨decide_eq_true ?_, ?_⟩ <;> omega

/-- A decimal fraction is read as a finite single if it is the number of the single. -/
theorem ofDecimal_of_size {x : Single} {d : Decimal} (hpos : 0 < x.magnitude)
    (hfinite : x.magnitude < infiniteBits) (hsize : d.size = x.size)
    (hnegative : d.negative = x.isNegative) : ofDecimal d = x := by
  have hcoefficient : 0 < d.coefficient := by
    refine Nat.pos_of_ne_zero fun hzero => (size_pos hpos).ne' ?_
    rw [← hsize, d.size_eq_zero_iff.2 hzero]
  rw [ofDecimal, magnitudeOfDecimal_eq hcoefficient, hsize, nearestMagnitude_size hpos hfinite,
    hnegative, ofParts_eq]

/-- A neighbour on a decimal grid is one that is read back. -/
theorem ofDecimal_of_neighbour? {x : Single} {num den : ℕ} {exponent : ℤ} {d : Decimal}
    (h : x.neighbour? num den exponent = some d) : ofDecimal d = x := by
  unfold neighbour? at h
  simp only at h
  split at h
  next hupper =>
    cases h
    exact hupper.1
  next =>
    split at h
    next hlower =>
      cases h
      exact hlower
    next => cases h

/-- The decimal fraction that was searched for is read back, whether the search has found it or
    every digit of the single had to be taken. -/
theorem ofDecimal_shortestOfPositive {x : Single} (hpos : 0 < x.magnitude)
    (hfinite : x.magnitude < infiniteBits) (hsign : x.isNegative = false) :
    ofDecimal x.shortestOfPositive = x := by
  unfold shortestOfPositive
  simp only
  split
  next d hfound =>
    rcases List.exists_of_findSome?_eq_some hfound with ⟨digits, -, hneighbour⟩
    exact ofDecimal_of_neighbour? hneighbour
  next =>
    -- What is taken then is the number of the single itself.
    split
    next n hq =>
      refine ofDecimal_of_size hpos hfinite ?_ hsign.symm
      simp [Decimal.size, size, hq]
    next n hq =>
      refine ofDecimal_of_size hpos hfinite ?_ hsign.symm
      have hten : (10 : ℚ) ^ (n + 1) = 2 ^ (n + 1) * 5 ^ (n + 1) := by
        rw [← mul_pow]
        norm_num
      simp only [Decimal.size, size, hq, zpow_negSucc, Nat.pow_eq, hten]
      push_cast
      field_simp

/-- What a finite single is written as is read as the single. -/
theorem ofDecimal_shortest {x : Single} (hfinite : x.magnitude < infiniteBits) :
    ofDecimal x.shortest = x := by
  unfold shortest
  split
  next hzero =>
    have hnone : magnitudeOfDecimal 0 0 = 0 := rfl
    rw [ofDecimal, hnone]
    conv_rhs => rw [← ofParts_eq x, hzero]
  next hnonzero =>
    have hbits : x.magnitude < signBit := hfinite.trans (by decide)
    have hparts := parts_ofParts false hbits
    have hread := ofDecimal_shortestOfPositive (x := ofParts false x.magnitude)
      (by rw [hparts.2]; exact Nat.pos_of_ne_zero hnonzero) (by rw [hparts.2]; exact hfinite)
      hparts.1
    generalize (ofParts false x.magnitude).shortestOfPositive = d at hread ⊢
    -- The sign goes through reading untouched.
    have hmagnitude : magnitudeOfDecimal d.coefficient d.exponent = x.magnitude := by
      have hlt : magnitudeOfDecimal d.coefficient d.exponent < signBit :=
        (magnitudeOfDecimal_le _ _).trans_lt (by decide)
      rw [← (parts_ofParts d.negative hlt).2, ← ofDecimal, hread, hparts.2]
    rw [ofDecimal, hmagnitude, ofParts_eq]

/-- The text of a finite single is read as the single, and that of another one is no literal. -/
theorem read_text (x : Single) :
    read x.text = if x.magnitude < infiniteBits then some x else none := by
  unfold text
  split
  next hnan =>
    rw [if_neg hnan.not_gt]
    rfl
  next =>
    split
    next hinfinite =>
      rw [if_neg hinfinite.not_lt]
      split <;> rfl
    next hne =>
      have hfinite : x.magnitude < infiniteBits := by omega
      rcases Decimal.ofText?_text x.shortest with ⟨d, hd, hnegative, hsize⟩
      rw [if_pos hfinite, read, hd, Option.map_some, ofDecimal_congr hnegative hsize,
        ofDecimal_shortest hfinite]

/-- A literal is read as a single that is finite or, if its number is beyond those, infinite. -/
theorem finite_of_read {cs : List Char} {x : Single} (h : read cs = some x) :
    ∃ d, Decimal.ofText? cs = some d ∧ (x.magnitude < infiniteBits ↔ d.size < overflow) := by
  rcases Option.map_eq_some_iff.1 h with ⟨d, hd, rfl⟩
  refine ⟨d, hd, ?_⟩
  have hle := magnitudeOfDecimal_le d.coefficient d.exponent
  have hparts := parts_ofParts d.negative (hle.trans_lt (by decide))
  rw [ofDecimal, hparts.2, hle.lt_iff_ne, ← not_le, ← magnitudeOfDecimal_eq_infinite_iff]

end Single

end GraphText.Number
