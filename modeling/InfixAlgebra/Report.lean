import InfixAlgebra.Fault

/-!
# Reports

A report is what a fault tells its reader: a kind and a message, which are functions of its cause.
Reports are ordered by kind and then by message.
-/

namespace InfixAlgebra

namespace Fault

/-- What a fault is about: building an expression, reading a text, or using operands. -/
inductive Kind where
  | construction
  | reading
  | operand
  deriving DecidableEq

/-- How a kind is called in a report. -/
def Kind.label : Kind → String
  | .construction => "construction error"
  | .reading => "syntax error"
  | .operand => "operand error"

/-- The place in the order of kinds. -/
def Kind.rank : Kind → Nat
  | .construction => 0
  | .reading => 1
  | .operand => 2

/-- The kind of a fault. -/
def kind : Fault → Kind
  | .unknownOperator _ | .invalidName _ | .noOperands _ | .operandsOfTerminal
  | .singleOperand _ => .construction
  | .invalidNumber _ | .unreadable _ | .emptyText | .emptyParens | .mismatchedParens
  | .nothingOnLeft _ | .tooDeep _ | .malformed => .reading
  | .appendToTerminal _ | .removeFromTerminal _ | .indexOutOfRange _ _ | .tooFewOperands _ _
  | .unresolved _ => .operand

/-- The message of a fault, without its kind. -/
def message : Fault → String
  | .unknownOperator text => s!"unknown operator {text}"
  | .invalidName name => s!"invalid symbol name '{name}'"
  | .noOperands op => s!"an expression with the operator {op.text} as value must have operands"
  | .operandsOfTerminal => "an expression without an operator as value cannot have operands"
  | .singleOperand op => s!"only {Operator.sub.text} can be unary, not {op.text}"
  | .invalidNumber run => s!"invalid number {run}"
  | .unreadable rest => s!"malformed expression, how to parse the beginning of {rest}"
  | .emptyText => "malformed expression, cannot parse empty string"
  | .emptyParens => "malformed expression, empty parentheses"
  | .mismatchedParens => "mismatched parentheses"
  | .nothingOnLeft op => s!"malformed expression, {op.text} cannot be unary"
  | .tooDeep limit => s!"malformed expression, nested deeper than {limit} levels"
  | .malformed => "malformed expression"
  | .appendToTerminal terminal => s!"cannot add operands to terminal {terminal}"
  | .removeFromTerminal terminal => s!"cannot remove operands from terminal {terminal}"
  | .indexOutOfRange index count => s!"index {index} out of range for {count} operands"
  | .tooFewOperands op count =>
    s!"cannot remove an operand of operator {op.text} with {count} operands"
  | .unresolved expr => s!"could not resolve {expr} to a number"

end Fault

/-- A kind of fault and a message. -/
structure Report where
  kind : Fault.Kind
  message : String
  deriving DecidableEq

/-- What a fault tells its reader. -/
def Fault.report (fault : Fault) : Report := ⟨fault.kind, fault.message⟩

namespace Report

/-- The message with the label of its kind. -/
def text (r : Report) : String := s!"{r.kind.label}: {r.message}"

/-- A report about the reading of a text. -/
def isReading (r : Report) : Bool := r.kind = .reading

/-- By kind, then by message. -/
def le (r s : Report) : Bool :=
  r.kind.rank < s.kind.rank || (r.kind.rank == s.kind.rank && r.message ≤ s.message)

/-- The different reports among some, in their order. -/
def sort (reports : List Report) : List Report := (reports.mergeSort le).eraseReps

end Report

end InfixAlgebra
