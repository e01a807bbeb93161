import InfixAlgebra.Numeric

/-!
# Shapes of data

The kinds of data that are not strings, as they are described where a string was expected.  A number
is an integer if it is written as one and fits into 64 bits, and otherwise a float.
-/

namespace InfixAlgebra

/-- The data that are not strings, as far as a reader of strings looks at them. -/
inductive Shape where
  | null
  | boolean (value : Bool)
  | integer (value : Int)
  | float (value : Float)
  | sequence
  | map

namespace Shape

/-! ## Reading numbers -/

/-- A power of ten, rounded. -/
def powerOfTen (exponent : Nat) : Float :=
  .ofBits (.ofNat (BinaryFormat.double.ofDecimal 1 exponent))

/-- Drops digits at the end of a decimal until its mantissa fits into 64 bits. -/
def fit (mantissa : Nat) (exponent : Int) : Nat × Int :=
  if UInt64.size ≤ mantissa then fit (mantissa / 10) (exponent + 1) else (mantissa, exponent)
termination_by mantissa
decreasing_by
  have : 0 < UInt64.size := by decide
  exact Nat.div_lt_self (by omega) (by decide)

/-- Divides by a power of ten, in two steps if the power is not finite. -/
def divide (x : Float) (exponent : Nat) : Float :=
  if exponent ≤ 308 then x / powerOfTen exponent
  else x / powerOfTen 308 / powerOfTen (exponent - 308)

/-- The float of a decimal in a datum: the mantissa is rounded, and the product or quotient with the
power of ten is rounded again. -/
def ofDecimal (mantissa : Nat) (exponent : Int) : Float :=
  let (significand, scale) := fit mantissa exponent
  let x := (UInt64.ofNat significand).toFloat
  match scale with
  | .ofNat e => x * powerOfTen e
  | .negSucc e => divide x (e + 1)

/-- A whole number that is written as one and fits into 64 bits.  A zero with a minus does not, and
numbers with a minus have a bit less. -/
def isInteger (negative : Bool) (mantissa : Nat) : Bool :=
  if negative then 0 < mantissa && mantissa ≤ UInt64.size / 2 else mantissa < UInt64.size

/-- The number that a datum spells. -/
def ofNumber? (spelling : String) : Option Shape :=
  let (negative, rest) := Numeral.splitSign spelling.toList
  (Numeral.decimal? rest).map fun (mantissa, exponent) =>
    if rest.all Char.isDigit && isInteger negative mantissa then
      .integer (if negative then -mantissa else mantissa)
    else
      let x := ofDecimal mantissa exponent
      .float (if negative then -x else x)

/-! ## Describing shapes -/

/-- The text of a float in a description. -/
def floatText (x : Float) : String :=
  String.ofList (BinaryFormat.double.chars .data x.toBits.toNat)

/-- How a datum is described where a string was expected. -/
def description : Shape → String
  | .null => "null"
  | .boolean value => s!"boolean `{value}`"
  | .integer value => s!"integer `{value}`"
  | .float value => s!"floating point `{floatText value}`"
  | .sequence => "sequence"
  | .map => "map"

end Shape

end InfixAlgebra
