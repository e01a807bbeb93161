import InfixAlgebra.Number.Binary

/-!
# Shortest decimals

A binary number is written with the fewest digits that read back as the same number.  The search
goes from coarse decimal grids to finer ones, and the first grid with a point that reads back wins.
A point of a grid that reads back is found if there is one, because then one of the two points next
to the number reads back too.
-/

namespace InfixAlgebra

/-- Which of two decimals as near to a number is taken: the upper one, or the one with an even last
digit. -/
inductive Tie where
  | up
  | even
  deriving DecidableEq

namespace BinaryFormat

variable (f : BinaryFormat)

/-- The finite number of a magnitude in steps of `10 ^ exponent`, as a ratio. -/
def steps (magnitude : Nat) : Int → Nat × Nat
  | .ofNat e => (f.multiple magnitude, Nat.pow 2 f.unit * Nat.pow 10 e)
  | .negSucc e => (f.multiple magnitude * Nat.pow 10 (e + 1), Nat.pow 2 f.unit)

/-- The whole number nearest to `num / den`, where a tie goes as told. -/
def roundTie (tie : Tie) (num den : Nat) : Nat :=
  match tie with
  | .up => if 2 * (num % den) < den then num / den else num / den + 1
  | .even => roundHalfEven num den

/-- The mantissa of a multiple of `10 ^ exponent` that reads back as `magnitude`: of the two next to
the number, the nearer one that does. -/
def onGrid? (tie : Tie) (magnitude : Nat) (exponent : Int) : Option Nat :=
  let (num, den) := f.steps magnitude exponent
  let below := num / den
  let readsBack := fun mantissa => f.ofDecimal mantissa exponent == magnitude
  match readsBack below, readsBack (below + 1) with
  | true, true => some (roundTie tie num den)
  | true, false => some below
  | false, true => some (below + 1)
  | false, false => none

/-- The first of `count` grids, from `10 ^ exponent` on, with a point that reads back. -/
def search? (tie : Tie) (magnitude : Nat) : (count : Nat) → (exponent : Int) → Option (Nat × Int)
  | 0, _ => none
  | count + 1, exponent =>
    match f.onGrid? tie magnitude exponent with
    | some mantissa => some (mantissa, exponent)
    | none => search? tie magnitude count (exponent - 1)

/-- A power of ten above the finite number of a magnitude; `0.30103` is a little more than the
decimal logarithm of two. -/
def topExponent (magnitude : Nat) : Int :=
  ((f.multiple magnitude).log2 + 1 - f.unit : Int) * 30103 / 100000 + 1

/-- All digits of a finite number. -/
def exactDecimal (magnitude : Nat) : Nat × Int :=
  (f.multiple magnitude * Nat.pow 5 f.unit, -f.unit)

/-- The decimal of the fewest digits that reads back as the finite number of a magnitude.  Fewer
grids than significant bits are searched before one has a point that reads back. -/
def shortest (tie : Tie) (magnitude : Nat) : Nat × Int :=
  if magnitude = 0 then (0, 0)
  else
    (f.search? tie magnitude f.precision (f.topExponent magnitude)).getD (f.exactDecimal magnitude)

end BinaryFormat

end InfixAlgebra
