/-!
# Digits and whole numbers

The integer literals of a graph text. A signed number is decimal with at most
one sign. An unsigned number has no sign and chooses its radix by how it
begins: `0x` or `0X` for hexadecimal, another leading `0` for octal, and
decimal otherwise; a lone `0` is decimal. Leading zeros never make a decimal
number invalid, they make an unsigned one octal.

## Main definitions

* `digit?`: the value of a digit in a radix.
* `natural?`: the value of a nonempty run of digits.
* `readInt`, `readUInt`: the two kinds of integer literal.
* `intText`, `uintText`: how integers are written.

## Theorems

* `digitsValue_append`: a run of digits is valued from the left.
* `natural?_eq_some_iff`: what a run of digits is, and its value.
-/

namespace GraphText.Number

/-- The value of a character as a digit, if it is one in this radix (at most sixteen). -/
def digit? (radix : Nat) (c : Char) : Option Nat :=
  let value :=
    if '0' ≤ c ∧ c ≤ '9' then c.toNat - '0'.toNat
    else if 'a' ≤ c ∧ c ≤ 'f' then c.toNat - 'a'.toNat + 10
    else if 'A' ≤ c ∧ c ≤ 'F' then c.toNat - 'A'.toNat + 10
    else radix
  if value < radix then some value else none

/-- Whether a character is a digit in this radix. -/
def isDigit (radix : Nat) (c : Char) : Bool :=
  (digit? radix c).isSome

/-- The value of a run of digits, the most significant first. -/
def digitsValue (radix : Nat) (cs : List Char) : Nat :=
  cs.foldl (fun n c => n * radix + (digit? radix c).getD 0) 0

/-- The value of a nonempty text that holds nothing but digits. -/
def natural? (radix : Nat) (cs : List Char) : Option Nat :=
  if cs ≠ [] ∧ cs.all (isDigit radix) then some (digitsValue radix cs) else none

theorem digitsValue_append (radix : Nat) (cs ds : List Char) :
    digitsValue radix (cs ++ ds) = ds.foldl (fun n c => n * radix + (digit? radix c).getD 0)
      (digitsValue radix cs) := by
  simp [digitsValue]

theorem natural?_eq_some_iff {radix : Nat} {cs : List Char} {n : Nat} :
    natural? radix cs = some n ↔
      cs ≠ [] ∧ (∀ c ∈ cs, isDigit radix c = true) ∧ digitsValue radix cs = n := by
  unfold natural?
  split
  next h => simpa [h.1] using fun _ => by simpa using h.2
  next h =>
    simp only [List.all_eq_true, not_and] at h
    simp only [reduceCtorEq, false_iff, not_and]
    exact fun hne hall => absurd hall (h hne)

/-- A signed decimal number that fits into 32 bits. -/
def readInt : List Char → Option Int32
  | '-' :: cs => do
    let n ← natural? 10 cs
    if n ≤ Nat.pow 2 31 then some (Int32.ofInt (-n)) else none
  | '+' :: cs => do
    let n ← natural? 10 cs
    if n < Nat.pow 2 31 then some (Int32.ofInt n) else none
  | cs => do
    let n ← natural? 10 cs
    if n < Nat.pow 2 31 then some (Int32.ofInt n) else none

/-- An unsigned number, in the radix that its beginning chooses. -/
def unsigned? : List Char → Option Nat
  | '0' :: 'x' :: cs => natural? 16 cs
  | '0' :: 'X' :: cs => natural? 16 cs
  | ['0'] => some 0
  | '0' :: cs => natural? 8 cs
  | cs => natural? 10 cs

/-- An unsigned number that fits into 32 bits. -/
def readUInt (cs : List Char) : Option UInt32 := do
  let n ← unsigned? cs
  if n < Nat.pow 2 32 then some (UInt32.ofNat n) else none

/-- A signed number is written in decimal, with a sign only if it is negative. -/
def intText (n : Int32) : List Char :=
  if n.toInt < 0 then '-' :: Nat.toDigits 10 n.toInt.natAbs else Nat.toDigits 10 n.toInt.natAbs

/-- An unsigned number is written in decimal. -/
def uintText (n : UInt32) : List Char :=
  Nat.toDigits 10 n.toNat

end GraphText.Number
