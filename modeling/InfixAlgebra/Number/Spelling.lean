import InfixAlgebra.Number.Shortest

/-!
# Spelled words

The text of a word of a binary format, and the word of a text.  A `Spelling` holds what there is to
decide once the word is given: where a tie between shortest decimals goes, which numbers are written
without an exponent, and whether whole ones among them have a point.
-/

namespace InfixAlgebra

/-- How finite numbers are written. -/
structure Spelling where
  tie : Tie
  /-- The places of the first digit at which there is no exponent. -/
  isPositional : Int → Bool
  /-- A number without an exponent always has a point, and a zero after it if it is whole. -/
  isPointed : Bool

namespace Spelling

/-- Numbers in expressions have no exponent, and whole ones no point; a tie goes up. -/
def plain : Spelling := ⟨.up, fun _ => true, false⟩

/-- Numbers in data have an exponent below `0.00001` and from `10 ^ 16` on, and otherwise a point; a
tie goes to the even digit. -/
def data : Spelling := ⟨.even, fun place => -5 ≤ place && place ≤ 15, true⟩

/-- The text of a decimal. -/
def decimalChars (s : Spelling) (mantissa : Nat) (exponent : Int) : List Char :=
  if s.isPositional (Numeral.leadingPlace mantissa exponent) then
    let cs := Numeral.positional mantissa exponent
    if s.isPointed && !cs.contains '.' then cs ++ ['.', '0'] else cs
  else
    Numeral.scientific mantissa exponent

end Spelling

namespace BinaryFormat

variable (f : BinaryFormat)

/-- The text of a magnitude without its sign. -/
def magnitudeChars (s : Spelling) (magnitude : Nat) : List Char :=
  if magnitude < f.infinity then
    let (mantissa, exponent) := f.shortest s.tie magnitude
    s.decimalChars mantissa exponent
  else
    "inf".toList

/-- Neither infinite nor undefined. -/
def isFinite (word : Nat) : Bool := word % f.signPlace < f.infinity

/-- The text of a word: an optional minus and the number, `inf`, or `NaN` without a sign. -/
def chars (s : Spelling) (word : Nat) : List Char :=
  let magnitude := word % f.signPlace
  if f.infinity < magnitude then "NaN".toList
  else if f.signPlace ≤ word then '-' :: f.magnitudeChars s magnitude
  else f.magnitudeChars s magnitude

/-- The word that is nearest to the number that a text spells. -/
def ofChars? (cs : List Char) : Option Nat := (Numeral.ofChars? cs).map f.ofNumeral

end BinaryFormat

end InfixAlgebra
