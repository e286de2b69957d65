import LiveSpec.Decimal.Ratio

/-!
# Decimal numbers in 64 bits

A decimal number is kept as the nearest number of 53 binary digits (`Decimal.toBinary64?`), and shown
as the shortest decimal number that is kept as the same one (`Binary64.toDecimal`). Signs are kept
apart, so all numbers here are at least zero.
-/

set_option autoImplicit false

namespace LiveSpec

/-- The number `digits * 10 ^ exponent`. -/
structure Decimal where
  digits : Nat
  exponent : Int
  deriving DecidableEq, Repr, Inhabited

/-- The number `mantissa * 2 ^ exponent`. The mantissa is less than `2 ^ 53`, and at least `2 ^ 52`
(`Binary64.fullMantissa`) unless the exponent is the least one. -/
structure Binary64 where
  mantissa : Nat
  exponent : Int
  deriving DecidableEq, Repr, Inhabited

namespace Binary64

/-- The least mantissa of 53 binary digits. -/
def fullMantissa : Nat := Nat.pow 2 52

/-- The least exponent. -/
def minExponent : Int := -1074

/-- The greatest exponent. -/
def maxExponent : Int := 971

/-- Zero. -/
def zero : Binary64 := ⟨0, minExponent⟩

/-- The greatest exponent of a power of two that is no larger than a ratio that is not zero. -/
def binaryOrder (ratio : Ratio) : Int :=
  let order : Int := ratio.numerator.log2 - ratio.denominator.log2
  if (Ratio.scale 1 2 order).isAtMost ratio then order else order - 1

/-- The nearest number to a ratio that is not zero, unless it is too large. -/
def ofRatio? (ratio : Ratio) : Option Binary64 :=
  let exponent := max (binaryOrder ratio - 52) minExponent
  let mantissa := (ratio.div (.scale 1 2 exponent)).round
  let number : Binary64 :=
    if mantissa = 2 * fullMantissa then ⟨fullMantissa, exponent + 1⟩ else ⟨mantissa, exponent⟩
  if maxExponent < number.exponent then none else some number

end Binary64

/-- The nearest number of 53 binary digits, unless it is too large. Numbers that are far out of reach
are recognised by the place of their first digit. -/
def Decimal.toBinary64? (decimal : Decimal) : Option Binary64 :=
  let order : Int := (Nat.toDigits 10 decimal.digits).length + decimal.exponent
  if decimal.digits = 0 || order < -400 then some .zero
  else if 400 < order then none
  else Binary64.ofRatio? (.scale decimal.digits 10 decimal.exponent)

namespace Binary64

/-- Whether a ratio is kept as a number that is not zero. Halfway to a neighbour it is kept as the
number with an even mantissa. Below a power of two the neighbour is nearer. -/
def isNearest (number : Binary64) (ratio : Ratio) : Bool :=
  let isClosed := number.mantissa % 2 = 0
  let isPowerOfTwo := number.mantissa = fullMantissa && minExponent < number.exponent
  let bound (quarters : Nat) : Ratio := .scale quarters 2 (number.exponent - 2)
  let lower := bound (4 * number.mantissa - (if isPowerOfTwo then 1 else 2))
  let upper := bound (4 * number.mantissa + 2)
  if isClosed then lower.isAtMost ratio && ratio.isAtMost upper
  else !ratio.isAtMost lower && !upper.isAtMost ratio

/-- The number of decimal digits in front of the point, or, as a negative number, of zeros behind it
before the first other digit. -/
def decimalOrder (number : Binary64) : Int :=
  let shifted := (Ratio.scale number.mantissa 2 number.exponent).div (.scale 1 10 (-400))
  (Nat.toDigits 10 shifted.floor).length - 400

/-- The nearest decimal number with some digits that is kept as the given number, if there is one.
Of two that are equally near it is the larger one. -/
def toDecimalOf? (number : Binary64) (digits : Nat) : Option Decimal :=
  let exponent := number.decimalOrder - digits
  let scaled := (Ratio.scale number.mantissa 2 number.exponent).div (.scale 1 10 exponent)
  let isKept (digits : Nat) : Bool := number.isNearest (.scale digits 10 exponent)
  let below := scaled.floor
  let above := below + 1
  if isKept below && !(isKept above && scaled.isRoundedUp true) then some ⟨below, exponent⟩
  else if isKept above then some ⟨above, exponent⟩
  else none

/-- The decimal number with the fewest digits that is kept as a number. Seventeen are enough. -/
def toDecimal (number : Binary64) : Decimal :=
  if number.mantissa = 0 then ⟨0, 0⟩
  else ((List.range 17).findSome? fun further ↦ number.toDecimalOf? (further + 1)).getD ⟨0, 0⟩

end Binary64

/-- A decimal number in digits without an exponent, and without a point if there is nothing behind
it. -/
def Decimal.text (decimal : Decimal) : String :=
  let digits := Nat.toDigits 10 decimal.digits
  let point : Int := digits.length + decimal.exponent
  let trimmed (fraction : List Char) : List Char :=
    (fraction.reverse.dropWhile (· = '0')).reverse
  if decimal.digits = 0 then "0"
  else if 0 ≤ decimal.exponent then
    String.ofList (digits ++ List.replicate decimal.exponent.toNat '0')
  else
    let whole := if 0 < point then digits.take point.toNat else ['0']
    let fraction := trimmed (List.replicate (-point).toNat '0' ++ digits.drop point.toNat)
    String.ofList (if fraction.isEmpty then whole else whole ++ '.' :: fraction)

end LiveSpec
