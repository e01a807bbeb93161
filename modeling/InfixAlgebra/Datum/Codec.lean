import InfixAlgebra.Datum.Shape
import InfixAlgebra.Machine
import InfixAlgebra.Report

/-!
# Data

Expressions and symbols are stored in a data format as strings.  Reading one back refuses every
other kind of datum, and a string that writes no expression or no name.
-/

namespace InfixAlgebra

/-- A datum of the data format. -/
inductive Datum where
  | string (text : String)
  | other (shape : Shape)

/-- Why a datum is not what was expected. -/
inductive Refusal where
  | shape (found : Shape) (expected : String)
  /-- The content of a string is at fault; the message begins with `lead`. -/
  | content (lead : String) (fault : Fault)

/-- What a refusal tells its reader. -/
def Refusal.message : Refusal → String
  | .shape found expected => s!"invalid type: {found.description}, expected {expected}"
  | .content lead fault => lead ++ fault.message

/-- How values are stored as strings, and what is said when that does not work out. -/
structure Codec (β : Type u) where
  encode : β → String
  decode : String → Except Fault β
  expected : String
  lead : String

namespace Codec

variable {β : Type u}

/-- Stores a value. -/
def write (codec : Codec β) (value : β) : Datum := .string (codec.encode value)

/-- Reads a stored value back. -/
def read (codec : Codec β) : Datum → Except Refusal β
  | .string text =>
    match codec.decode text with
    | .ok value => .ok value
    | .error fault => .error (.content codec.lead fault)
  | .other shape => .error (.shape shape codec.expected)

variable {codec : Codec β} {text : String}

theorem read_string_eq_ok_iff {value : β} :
    codec.read (.string text) = .ok value ↔ codec.decode text = .ok value := by
  rw [read]
  cases codec.decode text <;> simp

theorem read_string_eq_error_iff {refusal : Refusal} :
    codec.read (.string text) = .error refusal ↔
      ∃ fault, codec.decode text = .error fault ∧ .content codec.lead fault = refusal := by
  rw [read]
  cases codec.decode text <;> simp

end Codec

/-- An expression is stored as its text. -/
def Expr.codec {α : Type u} [Numeric α] : Codec (Expr α) where
  encode := Expr.text
  decode := Expr.parse
  expected := "a &str that can be parsed by `symexpr` crate"
  lead := "Parse error - "

/-- A symbol is stored as its name. -/
def Symbol.codec : Codec Symbol where
  encode := Symbol.name
  decode := Symbol.ofName
  expected := "a non-empty &str of ASCII letters"
  lead := ""

end InfixAlgebra
