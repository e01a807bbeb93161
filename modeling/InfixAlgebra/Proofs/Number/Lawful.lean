import InfixAlgebra.Token

/-!
# Lawful number types

A number is plain if it is finite and its sign bit is clear; `-0` is not plain.  In a lawful number
type the text of a plain number is a run of digits and points that reads back as that number, and
such runs write plain numbers only.  The text of any other finite number has a minus.  A number type
is uniquely spelled if equal plain numbers have the same text.  It is lawfully compared if equality
is symmetric and transitive, and fails to be reflexive only where it has to.

`Float` and `Float32` are all of that, see `InfixAlgebra.Proofs.Number.Floats`.
-/

namespace InfixAlgebra

/-- Number types with a sign bit. -/
class SignBit (α : Type u) where
  /-- The sign bit is set. -/
  isNegative : α → Bool

/-- A finite number with a clear sign bit. -/
def IsPlain {α : Type u} [Numeric α] [SignBit α] (x : α) : Prop :=
  Numeric.isFinite x = true ∧ SignBit.isNegative x = false

/-- The spelling and the equality of finite numbers are as they should be. -/
class LawfulNumeric (α : Type u) [Numeric α] [SignBit α] [BEq α] : Prop where
  chars_ne_nil {x : α} : IsPlain x → Numeric.chars x ≠ []
  isNumeric_of_mem_chars {x : α} {c : Char} : IsPlain x → c ∈ Numeric.chars x →
    Text.isNumeric c = true
  /-- The text of a plain number is read as that number. -/
  ofChars?_chars {x : α} : IsPlain x → Numeric.ofChars? (Numeric.chars x) = some x
  /-- A run of digits and points has no sign. -/
  isNegative_of_ofChars? {cs : List Char} {x : α} : (∀ c ∈ cs, Text.isNumeric c = true) →
    Numeric.ofChars? cs = some x → SignBit.isNegative x = false
  minus_mem_chars {x : α} : Numeric.isFinite x = true → SignBit.isNegative x = true →
    '-' ∈ Numeric.chars x
  beq_self {x : α} : Numeric.isFinite x = true → (x == x) = true
  isFinite_of_beq {x y : α} : (x == y) = true → Numeric.isFinite x = true →
    Numeric.isFinite y = true

/-- Plain numbers that are equal have the same text. -/
class UniquelySpelled (α : Type u) [Numeric α] [SignBit α] [BEq α] : Prop where
  chars_eq_of_beq {x y : α} : IsPlain x → IsPlain y → (x == y) = true →
    Numeric.chars x = Numeric.chars y

/-- Number types with values that are not numbers. -/
class NotANumber (α : Type u) where
  /-- The value is not a number. -/
  isNaN : α → Bool

/-- Equality of numbers is symmetric and transitive, and what is not a number, and nothing else,
differs from itself. -/
class LawfullyCompared (α : Type u) [BEq α] [NotANumber α] : Prop extends PartialEquivBEq α where
  beq_self_iff {x : α} : (x == x) = true ↔ NotANumber.isNaN x = false

instance : NotANumber Float := ⟨Float.isNaN⟩

instance : NotANumber Float32 := ⟨Float32.isNaN⟩

instance : SignBit Float where
  isNegative x := BinaryFormat.double.signPlace ≤ x.toBits.toNat

instance : SignBit Float32 where
  isNegative x := BinaryFormat.single.signPlace ≤ x.toBits.toNat

end InfixAlgebra
