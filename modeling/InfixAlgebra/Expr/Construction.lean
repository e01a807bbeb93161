import InfixAlgebra.Expr.Basic

/-!
# Building expressions

A node needs at least one operand, and at least two unless its operator is minus.  Negations and
binary nodes meet that by their form and cannot fail.  An operator may be given by its character.
-/

namespace InfixAlgebra

/-- The operator that a text of one character writes. -/
def Operator.ofText (text : String) : Except Fault Operator :=
  match text.toList with
  | [c] =>
    match ofChar? c with
    | some op => .ok op
    | none => .error (.unknownOperator text)
  | _ => .error (.unknownOperator text)

namespace Expr

variable {α : Type u}

/-- The symbol of a valid name. -/
def ofName (name : String) : Except Fault (Expr α) := (Symbol.ofName name).map .symbol

/-- A minus before a single operand. -/
def negation (operand : Expr α) : Expr α := .node .sub [operand]

/-- An operator between two operands. -/
def binary (op : Operator) (left right : Expr α) : Expr α := .node op [left, right]

/-- A node with a checked number of operands. -/
def ofOperands (op : Operator) : List (Expr α) → Except Fault (Expr α)
  | [] => .error (.noOperands op)
  | [e] => if op = .sub then .ok (negation e) else .error (.singleOperand op)
  | es => .ok (.node op es)

/-- An expression from what stands at its root and its operands: terminals have none to give, and
nodes must be given them. -/
def ofHead : Head α → Option (List (Expr α)) → Except Fault (Expr α)
  | .operator op, some es => ofOperands op es
  | .operator op, none => .error (.noOperands op)
  | .number _, some _ | .symbol _, some _ => .error .operandsOfTerminal
  | .number x, none => .ok (.number x)
  | .symbol s, none => .ok (.symbol s)

/-- A node whose operator is given as a text. -/
def ofTag (tag : String) (operands : Option (List (Expr α))) : Except Fault (Expr α) :=
  match Operator.ofText tag with
  | .ok op => ofHead (.operator op) operands
  | .error fault => .error fault

end Expr

end InfixAlgebra
