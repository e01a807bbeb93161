/-!
# Numerals

How numbers are spelled: decimals with an optional sign, point and exponent, and the words for
infinity and for what is not a number.  `Numeral.ofChars?` reads a spelling; `positional` writes a
decimal without an exponent, and `scientific` with one.
-/

namespace InfixAlgebra

/-- What a spelled number says, before it is rounded to any format. -/
inductive Numeral where
  /-- The decimal `mantissa * 10 ^ exponent`, negated if `negative`. -/
  | finite (negative : Bool) (mantissa : Nat) (exponent : Int)
  | infinite (negative : Bool)
  | notANumber
  deriving DecidableEq

namespace Numeral

/-! ## Reading -/

/-- Splits a sign off; no sign is a plus. -/
def splitSign : List Char → Bool × List Char
  | '-' :: cs => (true, cs)
  | '+' :: cs => (false, cs)
  | cs => (false, cs)

/-- Splits a decimal point and the digits after it off; no point is no digits. -/
def splitFraction : List Char → List Char × List Char
  | '.' :: cs => (cs.takeWhile Char.isDigit, cs.dropWhile Char.isDigit)
  | cs => ([], cs)

/-- The exponent that follows the digits: nothing, or an `e` with at least one digit. -/
def exponent? : List Char → Option Int
  | [] => some 0
  | c :: cs =>
    let (negative, ds) := splitSign cs
    if c.toLower = 'e' ∧ ds ≠ [] ∧ ds.all Char.isDigit then
      let n : Int := Nat.ofDigitChars 10 ds 0
      some (if negative then -n else n)
    else
      none

/-- Digits with at most one point among them and at least one digit, then an exponent. -/
def decimal? (cs : List Char) : Option (Nat × Int) :=
  let whole := cs.takeWhile Char.isDigit
  let (fraction, rest) := splitFraction (cs.dropWhile Char.isDigit)
  if whole = [] ∧ fraction = [] then
    none
  else
    (exponent? rest).map fun e =>
      (Nat.ofDigitChars 10 (whole ++ fraction) 0, e - fraction.length)

/-- Reads a spelled number; words may be in upper or lower case. -/
def ofChars? (cs : List Char) : Option Numeral :=
  let (negative, rest) := splitSign cs
  match decimal? rest with
  | some (mantissa, exponent) => some (.finite negative mantissa exponent)
  | none =>
    let word := String.ofList (rest.map Char.toLower)
    if word = "inf" ∨ word = "infinity" then some (.infinite negative)
    else if word = "nan" then some .notANumber
    else none

/-! ## Writing -/

/-- The digits of `mantissa * 10 ^ exponent`, with a point only if there are decimal places. -/
def positional (mantissa : Nat) : Int → List Char
  | .ofNat e => (mantissa * Nat.pow 10 e).repr.toList
  | .negSucc e =>
    (mantissa / Nat.pow 10 (e + 1)).repr.toList ++
      '.' :: (mantissa % Nat.pow 10 (e + 1)).repr.toList.leftpad (e + 1) '0'

/-- The place of the first digit of a decimal: its exponent in scientific notation. -/
def leadingPlace (mantissa : Nat) (exponent : Int) : Int :=
  (mantissa.repr.length : Int) - 1 + exponent

/-- A decimal with its point, if there is one, after the first digit, and an exponent with a sign. -/
def scientific (mantissa : Nat) (exponent : Int) : List Char :=
  let place := leadingPlace mantissa exponent
  let significand :=
    match mantissa.repr.toList with
    | first :: second :: rest => first :: '.' :: second :: rest
    | digits => digits
  significand ++ 'e' :: (if place < 0 then '-' else '+') :: place.natAbs.repr.toList

end Numeral

end InfixAlgebra
