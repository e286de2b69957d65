/-!
# Ratios of natural numbers

Just what is needed to compare decimal and binary numbers exactly: powers with an exponent of either
sign (`Ratio.scale`), a test of order, and the quotient without its fraction.
-/

set_option autoImplicit false

namespace LiveSpec

/-- A quotient of natural numbers. The denominator is not zero. -/
structure Ratio where
  numerator : Nat
  denominator : Nat
  deriving DecidableEq, Repr, Inhabited

namespace Ratio

/-- A natural number multiplied by a power of a base. -/
def scale (number base : Nat) (exponent : Int) : Ratio :=
  if 0 ≤ exponent then ⟨number * Nat.pow base exponent.toNat, 1⟩
  else ⟨number, Nat.pow base (-exponent).toNat⟩

/-- The quotient of two ratios. -/
def div (ratio other : Ratio) : Ratio :=
  ⟨ratio.numerator * other.denominator, ratio.denominator * other.numerator⟩

/-- Whether a ratio is at most as large as another one. -/
def isAtMost (ratio other : Ratio) : Bool :=
  ratio.numerator * other.denominator ≤ other.numerator * ratio.denominator

/-- The greatest natural number that is no larger. -/
def floor (ratio : Ratio) : Nat := ratio.numerator / ratio.denominator

/-- Whether the fraction is more than a half, or is a half and `onTie` holds. -/
def isRoundedUp (ratio : Ratio) (onTie : Bool) : Bool :=
  let twice := 2 * (ratio.numerator % ratio.denominator)
  ratio.denominator < twice || (twice = ratio.denominator && onTie)

/-- The nearest natural number, the even one of two. -/
def round (ratio : Ratio) : Nat :=
  let below := ratio.floor
  if ratio.isRoundedUp (below % 2 = 1) then below + 1 else below

end Ratio

end LiveSpec
