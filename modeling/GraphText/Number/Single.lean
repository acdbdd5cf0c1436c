import GraphText.Number.Decimal

/-!
# Single precision numbers

A number of the binary format with 24 significant bits is kept as its 32 bits,
so that equality is equality of bits: a zero and its negative differ, and a
number that is not one equals itself.

Reading rounds the exact value of a decimal literal to the nearest single, a
tie to the one with the even last bit. A literal beyond the largest finite
single is read as an infinity, one too small for the smallest as a zero.
Writing looks for the fewest digits that are read back as the same single. For
each count of digits the only candidates are the two neighbours of the value
on that decimal grid, so the search asks reading itself about both and takes
the nearer; of two equally near ones, the larger.

## Main definitions

* `Single`: a single precision number.
* `Single.ofDecimal`: the single nearest to a decimal fraction.
* `Single.shortest`: the decimal fraction that a finite single is written as.
* `Single.read`, `Single.text`: the literals of singles.
-/

namespace GraphText.Number

/-- A single precision number, as the bits of its standard layout. -/
structure Single where
  bits : UInt32
  deriving DecidableEq

/-- The whole number nearest to `num / den`, of two equally near ones the even one. -/
def roundQuotient (num den : Nat) : Nat :=
  let quotient := num / den
  let twice := 2 * (num % den)
  if twice < den then quotient
  else if den < twice then quotient + 1
  else quotient + quotient % 2

/-- The fraction `num / den` divided by `2 ^ power`. -/
def scaleBinary (num den : Nat) : Int → Nat × Nat
  | .ofNat n => (num, den * Nat.pow 2 n)
  | .negSucc n => (num * Nat.pow 2 (n + 1), den)

/-- The largest power of two that is not above `num / den`, both positive. -/
def binaryExponent (num den : Nat) : Int :=
  let guess : Int := num.log2 - den.log2
  let (n, d) := scaleBinary num den guess
  if d ≤ n then guess else guess - 1

/-- The largest power of ten that is not above `num / den`, both positive. The search for a
    fraction below one stops at the fiftieth place, beyond the smallest single. -/
def decimalExponent (num den : Nat) : Int :=
  if den ≤ num then ((Nat.toDigits 10 (num / den)).length : Int) - 1
  else
    match (List.range 50).find? fun places => den ≤ num * Nat.pow 10 places with
    | some places => -(places : Int)
    | none => -50

/-- A power of ten as a fraction. -/
def powerOfTen : Int → Nat × Nat
  | .ofNat n => (Nat.pow 10 n, 1)
  | .negSucc n => (1, Nat.pow 10 (n + 1))

namespace Single

/-- The sign bit. -/
def signBit : Nat := Nat.pow 2 31

/-- The magnitude bits of the infinities. -/
def infiniteBits : Nat := 0x7F800000

/-- Puts a sign before magnitude bits. -/
def ofParts (negative : Bool) (magnitude : Nat) : Single :=
  ⟨UInt32.ofNat (if negative then signBit + magnitude else magnitude)⟩

/-- The magnitude bits without the sign. -/
def magnitude (x : Single) : Nat :=
  x.bits.toNat % signBit

/-- Whether the sign bit is set. -/
def isNegative (x : Single) : Bool :=
  signBit ≤ x.bits.toNat

/-- The magnitude of a finite single as `m * 2 ^ q`. -/
def significand (x : Single) : Nat × Int :=
  let field : Nat := x.magnitude / Nat.pow 2 23
  let fraction : Nat := x.magnitude % Nat.pow 2 23
  if field = 0 then (fraction, -149) else (fraction + Nat.pow 2 23, (field : Int) - 150)

/-- The magnitude bits nearest to the positive fraction `num / den`. -/
def magnitudeOfFraction (num den : Nat) : Nat :=
  let power := max (-149) (binaryExponent num den - 23)
  let (n, d) := scaleBinary num den power
  let m := roundQuotient n d
  -- Rounding up to the next power of two carries into the exponent by itself.
  let raw := if m < Nat.pow 2 23 then m
    else (power + 150).toNat * Nat.pow 2 23 + (m - Nat.pow 2 23)
  min raw infiniteBits

/-- The magnitude bits nearest to `coefficient * 10 ^ exponent`. Powers of ten far outside the
    format are settled without being computed: from the sixtieth on upwards there is nothing finite,
    and below the minus sixtieth nothing but zero. -/
def magnitudeOfDecimal (coefficient : Nat) (exponent : Int) : Nat :=
  if coefficient = 0 then 0
  else if 60 < exponent then infiniteBits
  else if exponent + coefficient.log2 + 1 < -60 then 0
  else
    let (n, d) := powerOfTen exponent
    magnitudeOfFraction (coefficient * n) d

/-- The single nearest to a decimal fraction. -/
def ofDecimal (d : Decimal) : Single :=
  ofParts d.negative (magnitudeOfDecimal d.coefficient d.exponent)

/-- The value of a decimal literal. -/
def read (cs : List Char) : Option Single :=
  (Decimal.ofText? cs).map ofDecimal

/-- The neighbour of a finite positive single on the grid of `10 ^ exponent` that is read back as
    it, the nearer one if both are. -/
def neighbour? (x : Single) (num den : Nat) (exponent : Int) : Option Decimal :=
  let (unitNum, unitDen) := powerOfTen exponent
  let n := num * unitDen
  let d := den * unitNum
  let below := n / d
  let lower : Decimal := ⟨false, below, exponent⟩
  let upper : Decimal := ⟨false, below + 1, exponent⟩
  -- Of two neighbours at the same distance the upper one is taken.
  if ofDecimal upper = x ∧ (d ≤ 2 * (n % d) ∨ ofDecimal lower ≠ x) then some upper
  else if ofDecimal lower = x then some lower
  else none

/-- The shortest decimal fraction that is read back as a positive finite single. -/
def shortestOfPositive (x : Single) : Decimal :=
  let (m, q) := x.significand
  let (num, den) :=
    match q with
    | .ofNat n => (m * Nat.pow 2 n, 1)
    | .negSucc n => (m, Nat.pow 2 (n + 1))
  let top := decimalExponent num den
  -- Nine digits are always enough; the last arm is never reached.
  match (List.range 9).findSome? fun digits =>
      x.neighbour? num den (top - (digits : Nat)) with
  | some d => d
  | none =>
    match q with
    | .ofNat n => ⟨false, m * Nat.pow 2 n, 0⟩
    | .negSucc n => ⟨false, m * Nat.pow 5 (n + 1), q⟩

/-- The decimal fraction that a finite single is written as. -/
def shortest (x : Single) : Decimal :=
  if x.magnitude = 0 then ⟨x.isNegative, 0, 0⟩
  else { (ofParts false x.magnitude).shortestOfPositive with negative := x.isNegative }

/-- The literal of a single. What is no number has no sign. -/
def text (x : Single) : List Char :=
  if infiniteBits < x.magnitude then ['N', 'a', 'N']
  else if x.magnitude = infiniteBits then
    if x.isNegative then ['-', 'i', 'n', 'f'] else ['i', 'n', 'f']
  else x.shortest.text

end Single

end GraphText.Number
