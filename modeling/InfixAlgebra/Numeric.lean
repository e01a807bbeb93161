import InfixAlgebra.Number.Spelling

/-!
# Number types

Expressions are built over a number type.  Evaluation asks for its `Arithmetic`, reading and writing
ask for its spelling, `Numeric`.  The two number types are `Float` and `Float32`; a text is rounded
straight into the type that is read, so that a `Float32` is rounded once.
-/

namespace InfixAlgebra

/-- The arithmetic that evaluation needs. -/
class Arithmetic (α : Type u) extends Add α, Sub α, Mul α, Div α, Neg α, HomogeneousPow α

/-- How the numbers of a type are spelled. -/
class Numeric (α : Type u) where
  /-- The number that a text spells. -/
  ofChars? : List Char → Option α
  /-- The text of a number. -/
  chars : α → List Char
  /-- Neither infinite nor undefined. -/
  isFinite : α → Bool

instance : Arithmetic Float where

instance : Arithmetic Float32 where

instance : Numeric Float where
  ofChars? cs := (BinaryFormat.double.ofChars? cs).map fun word => .ofBits (.ofNat word)
  chars x := BinaryFormat.double.chars .plain x.toBits.toNat
  isFinite x := BinaryFormat.double.isFinite x.toBits.toNat

instance : Numeric Float32 where
  ofChars? cs := (BinaryFormat.single.ofChars? cs).map fun word => .ofBits (.ofNat word)
  chars x := BinaryFormat.single.chars .plain x.toBits.toNat
  isFinite x := BinaryFormat.single.isFinite x.toBits.toNat

/-- The number that a string spells. -/
def Numeric.ofString? [Numeric α] (text : String) : Option α := Numeric.ofChars? text.toList

/-- The text of a number. -/
def Numeric.text [Numeric α] (x : α) : String := String.ofList (Numeric.chars x)

end InfixAlgebra
