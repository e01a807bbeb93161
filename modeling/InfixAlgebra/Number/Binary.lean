import InfixAlgebra.Number.Numeral

/-!
# Binary formats

A binary format has numbers of a fixed precision.  The *magnitude* of a number is its word without
the sign: zero first, then the finite numbers in their order, then `infinity`, and beyond it what
is not a number.  `ofDecimal` rounds a decimal to the nearest magnitude, with ties to the even one.

Every finite number is a whole multiple of the least positive one.  The magnitudes come in blocks
of `2 ^ (precision - 1)`; within a block the numbers are equally spaced, and each block but the
first two doubles the spacing of the one before.
-/

namespace InfixAlgebra

/-- A binary format of `precision` significant bits whose least positive number is `2 ^ -unit`.
One block of magnitudes follows another, and those from block `blocks` on are not finite. -/
structure BinaryFormat where
  precision : Nat
  unit : Nat
  blocks : Nat

namespace BinaryFormat

/-- The format of 64 bits. -/
def double : BinaryFormat := ⟨53, 1074, 2047⟩

/-- The format of 32 bits. -/
def single : BinaryFormat := ⟨24, 149, 255⟩

variable (f : BinaryFormat)

/-- Magnitudes in a block. -/
def blockSize : Nat := Nat.pow 2 (f.precision - 1)

/-- The magnitude of infinity. -/
def infinity : Nat := f.blocks * f.blockSize

/-- The magnitude of what is not a number. -/
def notANumber : Nat := f.infinity + f.blockSize / 2

/-- The place of the sign in a word: one more than the largest magnitude. -/
def signPlace : Nat := (f.blocks + 1) * f.blockSize

/-! ## From magnitudes to values -/

/-- The numbers around a magnitude are `2 ^ spacing` least positive numbers apart. -/
def spacing (magnitude : Nat) : Nat := magnitude / f.blockSize - 1

/-- A finite number in multiples of the least positive one. -/
def multiple (magnitude : Nat) : Nat :=
  (magnitude - f.spacing magnitude * f.blockSize) * Nat.pow 2 (f.spacing magnitude)

/-! ## From ratios and decimals to magnitudes -/

/-- The whole number nearest to `num / den`, the even one if two are as near. -/
def roundHalfEven (num den : Nat) : Nat :=
  let below := num / den
  match compare (2 * (num % den)) den with
  | .lt => below
  | .eq => below + below % 2
  | .gt => below + 1

/-- The magnitude nearest to `num / den`.  A number that rounds up out of its block is the first of
the next, and so has the right magnitude. -/
def nearest (num den : Nat) : Nat :=
  let scaled := num * Nat.pow 2 f.unit
  let spacing := (scaled / den).log2 + 1 - f.precision
  min (spacing * f.blockSize + roundHalfEven scaled (den * Nat.pow 2 spacing)) f.infinity

/-- The magnitude nearest to `mantissa * 10 ^ exponent`.  Where the power of ten alone decides the
answer it is not formed. -/
def ofDecimal (mantissa : Nat) : Int → Nat
  | .ofNat e =>
    if mantissa = 0 then 0
    else if f.unit < e then f.infinity
    else f.nearest (mantissa * Nat.pow 10 e) 1
  | .negSucc e =>
    if f.unit + mantissa.log2 < e then 0
    else f.nearest mantissa (Nat.pow 10 (e + 1))

/-- The word of a sign and a magnitude. -/
def word (negative : Bool) (magnitude : Nat) : Nat :=
  if negative then f.signPlace + magnitude else magnitude

/-- The word nearest to a spelled number. -/
def ofNumeral : Numeral → Nat
  | .finite negative mantissa exponent => f.word negative (f.ofDecimal mantissa exponent)
  | .infinite negative => f.word negative f.infinity
  | .notANumber => f.notANumber

end BinaryFormat

end InfixAlgebra
