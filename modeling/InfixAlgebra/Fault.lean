import InfixAlgebra.Operator

/-!
# Faults

What can be wrong with a name, an operator, a text, or a request on an expression.  Every fault is
a cause of its own.
-/

namespace InfixAlgebra

/-- The causes of failure. -/
inductive Fault where
  /-- A text is not the character of an operator. -/
  | unknownOperator (text : String)
  /-- A name is not a nonempty run of letters. -/
  | invalidName (name : String)
  /-- An operator node without operands. -/
  | noOperands (op : Operator)
  /-- Operands for a number or a symbol. -/
  | operandsOfTerminal
  /-- A single operand for an operator other than minus. -/
  | singleOperand (op : Operator)
  /-- A run of digits and points is not a finite number. -/
  | invalidNumber (run : String)
  /-- No token begins at the rest of a text. -/
  | unreadable (rest : String)
  | emptyText
  | emptyParens
  | mismatchedParens
  /-- An operator other than minus has nothing on its left. -/
  | nothingOnLeft (op : Operator)
  /-- A tree of more levels than the limit. -/
  | tooDeep (limit : Nat)
  /-- An operator lacks an operand, or operands are not connected. -/
  | malformed
  | appendToTerminal (terminal : String)
  | removeFromTerminal (terminal : String)
  | indexOutOfRange (index count : Nat)
  /-- Fewer than two operands would remain. -/
  | tooFewOperands (op : Operator) (count : Nat)
  /-- An expression has no value for the given variable. -/
  | unresolved (expr : String)
  deriving DecidableEq

end InfixAlgebra
