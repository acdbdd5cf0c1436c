import GraphText.Number.Single

/-!
# Written numbers

Whole numbers are written in decimal without leading zeros, and read back as
they were. The zeros matter: an unsigned number that began with one would be
read as octal.

Of the text of a single only the characters matter here. They are digits, points
and signs, unless the single is an infinity or no number, and then the text is
one that reading refuses.

## Theorems

* `natural?_toDigits`: the digits of a number are read as the number.
* `readInt_intText`, `readUInt_uintText`: written whole numbers are read back.
* `Single.text_cases`, `Single.text_chars`: what the text of a single is made of.
-/

namespace GraphText.Number

theorem digit?_digitChar {d : Nat} (hd : d < 10) : digit? 10 d.digitChar = some d := by
  revert d
  decide

theorem digitsValue_toDigits (n : Nat) : digitsValue 10 (Nat.toDigits 10 n) = n := by
  induction n using Nat.strongRecOn with
  | ind n ih =>
    rw [Nat.toDigits_eq_if (by decide)]
    split
    next hlt => simp [digitsValue, digit?_digitChar hlt]
    next hge =>
      have hdigit : n % 10 < 10 := Nat.mod_lt n (by decide)
      rw [digitsValue_append, ih (n / 10) (by omega), List.foldl_cons, List.foldl_nil,
        digit?_digitChar hdigit, Option.getD_some]
      omega

theorem isDigit_of_mem_toDigits {n : Nat} {c : Char} (hc : c ∈ Nat.toDigits 10 n) :
    isDigit 10 c = true := by
  induction n using Nat.strongRecOn with
  | ind n ih =>
    rw [Nat.toDigits_eq_if (by decide)] at hc
    split at hc
    next hlt =>
      rw [List.mem_singleton.1 hc, isDigit, digit?_digitChar hlt]
      rfl
    next hge =>
      have hdigit : n % 10 < 10 := Nat.mod_lt n (by decide)
      rcases List.mem_append.1 hc with hc | hc
      · exact ih (n / 10) (by omega) hc
      · rw [List.mem_singleton.1 hc, isDigit, digit?_digitChar hdigit]
        rfl

/-- The digits of a number are read as the number. -/
theorem natural?_toDigits (n : Nat) : natural? 10 (Nat.toDigits 10 n) = some n :=
  natural?_eq_some_iff.2
    ⟨Nat.toDigits_ne_nil, fun _ hc => isDigit_of_mem_toDigits hc, digitsValue_toDigits n⟩

/-- The first digit of a number that is not zero is not zero. -/
theorem head_toDigits {n : Nat} (hn : n ≠ 0) {c : Char} {cs : List Char}
    (h : Nat.toDigits 10 n = c :: cs) : c ≠ '0' := by
  induction n using Nat.strongRecOn generalizing cs with
  | ind n ih =>
    rw [Nat.toDigits_eq_if (by decide)] at h
    split at h
    next hlt =>
      have hall : ∀ d < 10, d ≠ 0 → Nat.digitChar d ≠ '0' := by decide
      rw [List.cons.injEq] at h
      exact h.1 ▸ hall n hlt hn
    next hge =>
      cases hfirst : Nat.toDigits 10 (n / 10) with
      | nil => exact absurd hfirst Nat.toDigits_ne_nil
      | cons d ds =>
          rw [hfirst, List.cons_append, List.cons.injEq] at h
          rw [h.1] at hfirst
          exact ih (n / 10) (by omega) (by omega) hfirst

/-- A text of digits has no sign. -/
theorem readInt_digits {cs : List Char} (hcs : ∀ c ∈ cs, isDigit 10 c = true) :
    readInt cs =
      (natural? 10 cs).bind fun n => if n < Nat.pow 2 31 then some (Int32.ofInt n) else none := by
  unfold readInt
  split
  next cs =>
    have hsign : isDigit 10 '-' = false := by decide
    rw [hcs '-' List.mem_cons_self] at hsign
    cases hsign
  next cs =>
    have hsign : isDigit 10 '+' = false := by decide
    rw [hcs '+' List.mem_cons_self] at hsign
    cases hsign
  · rfl

/-- A written signed number is read back. -/
theorem readInt_intText (n : Int32) : readInt (intText n) = some n := by
  have hle := n.le_toInt
  have hlt := n.toInt_lt
  have hbound : Nat.pow 2 31 = 2147483648 := rfl
  unfold intText
  split
  next hneg =>
    have habs : n.toInt.natAbs ≤ Nat.pow 2 31 := by omega
    have hback : -(n.toInt.natAbs : Int) = n.toInt := by omega
    simp only [readInt, natural?_toDigits, Option.bind_eq_bind, Option.bind_some, if_pos habs,
      hback, Int32.ofInt_toInt]
  next hpos =>
    have habs : n.toInt.natAbs < Nat.pow 2 31 := by omega
    have hback : (n.toInt.natAbs : Int) = n.toInt := by omega
    rw [readInt_digits fun _ hc => isDigit_of_mem_toDigits hc, natural?_toDigits]
    simp only [Option.bind_some, if_pos habs, hback, Int32.ofInt_toInt]

/-- Digits without a leading zero are decimal. -/
theorem unsigned?_of_head {c : Char} {cs : List Char} (hc : c ≠ '0') :
    unsigned? (c :: cs) = natural? 10 (c :: cs) := by
  unfold unsigned?
  split <;> simp_all

/-- A written unsigned number is read back. -/
theorem readUInt_uintText (n : UInt32) : readUInt (uintText n) = some n := by
  have hlt : n.toNat < Nat.pow 2 32 := n.toNat_lt
  have hread : unsigned? (Nat.toDigits 10 n.toNat) = some n.toNat := by
    by_cases hzero : n.toNat = 0
    · rw [hzero]
      rfl
    · cases hdigits : Nat.toDigits 10 n.toNat with
      | nil => exact absurd hdigits Nat.toDigits_ne_nil
      | cons c cs =>
          rw [unsigned?_of_head (head_toDigits hzero hdigits), ← hdigits, natural?_toDigits]
  unfold readUInt uintText
  simp only [hread, Option.bind_eq_bind, Option.bind_some, if_pos hlt, UInt32.ofNat_toNat]

namespace Decimal

theorem place_chars {digits : List Char} {exponent : Int} {c : Char}
    (hc : c ∈ place digits exponent) : c ∈ digits ∨ c = '0' ∨ c = '.' := by
  unfold place at hc
  -- Whole numbers get zeros at the end; the point of the others is among the digits or in front of
  -- them.
  split at hc
  next n =>
    rcases List.mem_append.1 hc with hc | hc
    · exact .inl hc
    · exact .inr (.inl (List.eq_of_mem_replicate hc))
  next n =>
    dsimp only at hc
    split at hc
    · rcases List.mem_append.1 hc with hc | hc
      · exact .inl (List.mem_of_mem_take hc)
      · rcases List.mem_cons.1 hc with rfl | hc
        · exact .inr (.inr rfl)
        · exact .inl (List.mem_of_mem_drop hc)
    · rw [List.mem_cons, List.mem_cons, List.mem_append] at hc
      rcases hc with rfl | rfl | hc | hc
      · exact .inr (.inl rfl)
      · exact .inr (.inr rfl)
      · exact .inr (.inl (List.eq_of_mem_replicate hc))
      · exact .inl hc

/-- A positional number is made of digits, points and a sign. -/
theorem text_chars {d : Decimal} {c : Char} (hc : c ∈ d.text) :
    c.isDigit = true ∨ c = '.' ∨ c = '-' := by
  have hdigits : ∀ x ∈ ((Nat.toDigits 10 d.coefficient).reverse.dropWhile (· = '0')).reverse,
      x.isDigit = true := by
    intro x hx
    have hmem := (List.dropWhile_sublist _).subset (List.mem_reverse.1 hx)
    exact Nat.isDigit_of_mem_toDigits (by decide) (by decide) (List.mem_reverse.1 hmem)
  have hmagnitude : ∀ kept : List Char, ∀ e, (∀ x ∈ kept, x.isDigit = true) →
      ∀ x ∈ (if kept = [] then ['0'] else place kept e), x.isDigit = true ∨ x = '.' := by
    intro kept e hkept x hx
    split at hx
    · rw [List.mem_singleton.1 hx]
      exact .inl rfl
    · rcases place_chars hx with hx | rfl | rfl
      · exact .inl (hkept x hx)
      · exact .inl rfl
      · exact .inr rfl
  unfold text at hc
  dsimp only at hc
  -- A sign is written in front of negative numbers only.
  split at hc
  · rcases List.mem_cons.1 hc with rfl | hc
    · exact .inr (.inr rfl)
    · exact (hmagnitude _ _ hdigits c hc).imp_right .inl
  · exact (hmagnitude _ _ hdigits c hc).imp_right .inl

theorem place_ne_nil {digits : List Char} (hne : digits ≠ []) (exponent : Int) :
    place digits exponent ≠ [] := by
  unfold place
  split
  · simp [hne]
  · dsimp only
    split <;> simp

theorem text_ne_nil (d : Decimal) : d.text ≠ [] := by
  have hmagnitude : ∀ kept : List Char, ∀ e, (if kept = [] then ['0'] else place kept e) ≠ [] := by
    intro kept e
    split
    · simp
    next hne => exact place_ne_nil hne e
  unfold text
  dsimp only
  split
  · simp
  · exact hmagnitude _ _

end Decimal

/-- The text of a single that is finite is made of digits, points and signs. -/
theorem Single.text_cases (x : Single) :
    x.text = ['N', 'a', 'N'] ∨ x.text = ['-', 'i', 'n', 'f'] ∨ x.text = ['i', 'n', 'f'] ∨
      (x.text ≠ [] ∧ ∀ c ∈ x.text, c.isDigit = true ∨ c = '.' ∨ c = '-') := by
  unfold Single.text
  split
  · exact .inl rfl
  · split
    · split
      · exact .inr (.inl rfl)
      · exact .inr (.inr (.inl rfl))
    · exact .inr (.inr (.inr ⟨Decimal.text_ne_nil _, fun c hc => Decimal.text_chars hc⟩))

/-- The text of a single that can be read is that of one that is finite. -/
theorem Single.text_chars {x y : Single} (hread : Single.read x.text = some y) :
    x.text ≠ [] ∧ ∀ c ∈ x.text, c.isDigit = true ∨ c = '.' ∨ c = '-' := by
  rcases x.text_cases with htext | htext | htext | hfinite
  · rw [htext] at hread
    cases hread
  · rw [htext] at hread
    cases hread
  · rw [htext] at hread
    cases hread
  · exact hfinite

end GraphText.Number
