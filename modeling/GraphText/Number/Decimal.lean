import GraphText.Number.Digits

/-!
# Decimal fractions

A decimal fraction is a whole coefficient times a power of ten: what a literal
such as `-1.25e3` says before it is fitted into a binary format. Reading
accepts a sign, digits with at most one point among or around them, and an
exponent, with at least one digit before the exponent and one in it. Writing
is always positional: no exponent, no trailing zero behind the point, and no
point without a digit behind it.

## Main definitions

* `Decimal`: sign, coefficient and power of ten.
* `Decimal.ofText?`: what a literal says.
* `Decimal.text`: the positional form.
-/

namespace GraphText.Number

/-- The number `coefficient * 10 ^ exponent`, negated if `negative`. -/
structure Decimal where
  negative : Bool
  coefficient : Nat
  exponent : Int
  deriving DecidableEq

namespace Decimal

/-- A sign, if there is one, and what follows it. -/
def splitSign : List Char → Bool × List Char
  | '-' :: cs => (true, cs)
  | '+' :: cs => (false, cs)
  | cs => (false, cs)

/-- The exponent that follows the digits of a literal: nothing, or a mark with a signed number. -/
def exponent? : List Char → Option Int
  | [] => some 0
  | mark :: cs =>
    if mark = 'e' ∨ mark = 'E' then
      let (negative, digits) := splitSign cs
      (natural? 10 digits).map fun n => if negative then -(n : Int) else n
    else none

/-- What a decimal literal says. -/
def ofText? (cs : List Char) : Option Decimal := do
  let (negative, unsigned) := splitSign cs
  let whole := unsigned.takeWhile (isDigit 10)
  let afterWhole := unsigned.dropWhile (isDigit 10)
  let (fraction, tail) :=
    match afterWhole with
    | '.' :: more => (more.takeWhile (isDigit 10), more.dropWhile (isDigit 10))
    | more => ([], more)
  let coefficient ← natural? 10 (whole ++ fraction)
  let power ← exponent? tail
  some ⟨negative, coefficient, power - fraction.length⟩

/-- The digits of a positional number whose last digit counts `10 ^ exponent`. -/
def place (digits : List Char) (exponent : Int) : List Char :=
  match exponent with
  | .ofNat n => digits ++ List.replicate n '0'
  | .negSucc n =>
    let places := n + 1
    if places < digits.length then
      digits.take (digits.length - places) ++ '.' :: digits.drop (digits.length - places)
    else '0' :: '.' :: (List.replicate (places - digits.length) '0' ++ digits)

/-- The positional form, with as many digits as the number needs. -/
def text (d : Decimal) : List Char :=
  let digits := Nat.toDigits 10 d.coefficient
  let kept := (digits.reverse.dropWhile (· = '0')).reverse
  let magnitude :=
    if kept = [] then ['0'] else place kept (d.exponent + (digits.length - kept.length : Nat))
  if d.negative then '-' :: magnitude else magnitude

end Decimal

end GraphText.Number
