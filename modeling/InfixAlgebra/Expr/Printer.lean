import InfixAlgebra.Expr.Basic
import InfixAlgebra.Numeric

/-!
# Writing expressions

An expression is written in infix form.  An operator stands between the operands of its node, or
before a single one; an operand that is a node itself stands in parentheses.
-/

namespace InfixAlgebra.Expr

variable {α : Type u}

/-- The text of an operand, put in parentheses if it is that of a node. -/
def enclose : Expr α → List Char → List Char
  | .node .., cs => '(' :: (cs ++ [')'])
  | _, cs => cs

/-- The texts of the operands of a node, joined by its operator. -/
def join (op : Operator) : List (List Char) → List Char
  | [cs] => op.char :: cs
  | texts => [op.char].intercalate texts

variable [Numeric α]

mutual

/-- The characters of an expression in infix form. -/
def chars : Expr α → List Char
  | .number x => Numeric.chars x
  | .symbol s => s.name.toList
  | .node op es => join op (operandChars es)

/-- The characters of operands, each in parentheses if it is a node. -/
def operandChars : List (Expr α) → List (List Char)
  | [] => []
  | e :: es => enclose e e.chars :: operandChars es

end

theorem operandChars_eq_map (es : List (Expr α)) :
    operandChars es = es.map fun e => enclose e e.chars := by
  induction es with
  | nil => rfl
  | cons e es ih => simp [operandChars, ih]

theorem chars_node (op : Operator) (es : List (Expr α)) :
    (node op es).chars = join op (es.map fun e => enclose e e.chars) := by
  rw [chars, operandChars_eq_map]

/-- The text of an expression in infix form. -/
def text (e : Expr α) : String := String.ofList e.chars

end InfixAlgebra.Expr
