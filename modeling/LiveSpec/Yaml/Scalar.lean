import LiveSpec.Decimal.Binary64

/-!
# What scalars mean

A scalar without quotes may be null, a truth value or a number; otherwise it is a text
(`Scalar.ofPlain`). Numbers are read in decimal, and whole numbers of more than 64 bits are kept as
numbers with a fraction are.
-/

set_option autoImplicit false

namespace LiveSpec.Yaml

/-- The meaning of a scalar. -/
inductive Scalar where
  | null
  | boolean
  | integer (value : Int)
  /-- A number with a sign. Without a size it is infinite. -/
  | real (isNegative : Bool) (size : Option Binary64)
  | notANumber
  | text (spelling : String)
  deriving DecidableEq, Repr, Inhabited

namespace Scalar

/-- The spellings of null, in lower case. -/
def nulls : List String := ["", "~", "null", "none"]

/-- The spellings of truth values, in lower case. -/
def truthValues : List String := ["true", "yes", "on", "y", "false", "no", "off", "n"]

/-- The spellings of infinity with a point. -/
def infinities : List String := [".inf", ".Inf", ".INF"]

/-- The spellings with a point of what is no number. -/
def undefinedNumbers : List String := [".nan", ".NaN", ".NAN"]

/-- A text in lower case. Only ASCII letters have to be looked at, as the spellings of values have no
others. -/
def lowerCase (text : List Char) : String := String.ofList (text.map Char.toLower)

/-- The sign in front of a number, and what follows it. -/
def splitSign : List Char → Bool × List Char
  | '-' :: rest => (true, rest)
  | '+' :: rest => (false, rest)
  | unsigned => (false, unsigned)

/-- The value of some digits. There has to be one at least. -/
def naturalOf? (digits : List Char) : Option Nat :=
  if digits.isEmpty || !digits.all Char.isDigit then none
  else some (digits.foldl (fun value c ↦ 10 * value + (c.toNat - '0'.toNat)) 0)

/-- The least whole number of 64 bits with a sign. -/
def leastInteger : Int := -9223372036854775808

/-- The greatest whole number of 64 bits without a sign. -/
def greatestInteger : Int := 18446744073709551615

/-- The whole number of 64 bits that a text spells. -/
def integerOf? (text : List Char) : Option Int := do
  let (isNegative, digits) := splitSign text
  let size ← naturalOf? digits
  let value : Int := if isNegative then -size else size
  if leastInteger ≤ value && value ≤ greatestInteger then return value else none

/-- The decimal number without a sign that a text spells. Digits may be missing on one side of the
point. -/
def decimalOf? (text : List Char) : Option Decimal := do
  let whole := text.takeWhile Char.isDigit
  let behind := text.dropWhile Char.isDigit
  let fraction := match behind with
    | '.' :: behind => behind.takeWhile Char.isDigit
    | _ => []
  let behind := match behind with
    | '.' :: behind => behind.dropWhile Char.isDigit
    | _ => behind
  let digits ← naturalOf? (whole ++ fraction)
  let exponent : Int ← match behind with
    | [] => some 0
    | mark :: exponent =>
      if mark = 'e' || mark = 'E' then do
        let (isNegative, exponent) := splitSign exponent
        let size ← naturalOf? exponent
        some (if isNegative then -(size : Int) else size)
      else none
  return ⟨digits, exponent - fraction.length⟩

/-- The number that a text spells. -/
def realOf? (text : List Char) : Option Scalar :=
  let (isNegative, unsigned) := splitSign text
  let word := lowerCase unsigned
  if word = "inf" || word = "infinity" then some (real isNegative none)
  else if word = "nan" then some notANumber
  else (decimalOf? unsigned).map fun decimal ↦ real isNegative decimal.toBinary64?

/-- The meaning of a scalar without quotes. -/
def ofPlain (spelling : String) : Scalar :=
  let characters := spelling.toList
  let word := lowerCase characters
  if nulls.contains word then null
  else if truthValues.contains word then boolean
  else if infinities.contains spelling then real false none
  else if (infinities.map ("-" ++ ·)).contains spelling then real true none
  else if undefinedNumbers.contains spelling then notANumber
  else match integerOf? characters, realOf? characters with
    | some value, _ => integer value
    | none, some number => number
    | none, none => text spelling

/-- A scalar in words, if it can stand where a text is asked for. Null stands for the empty text, and
a number for its shortest spelling without an exponent. -/
def words? : Scalar → Option String
  | null => some ""
  | boolean => none
  | integer value => some (toString value)
  | real isNegative size =>
    let size := match size with
      | some size => size.toDecimal.text
      | none => "inf"
    some (if isNegative then "-" ++ size else size)
  | notANumber => some "NaN"
  | text spelling => some spelling

end Scalar

end LiveSpec.Yaml
