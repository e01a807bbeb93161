import InfixAlgebra.Datum.Codec
import InfixAlgebra.Expr.Evaluation
import InfixAlgebra.Expr.Operands

/-!
# Workspaces

A workspace holds expressions in named registers.  Commands build expressions, edit and evaluate
them.  An edit takes place in its register.  Registers are looked up in the order in which a command
names them, and before the texts of a command are read; the first failure is the answer.
-/

namespace InfixAlgebra

/-- Why a command has no result. -/
inductive Failure where
  | unknownRegister (name : String)
  | fault (fault : Fault)
  | refusal (refusal : Refusal)

/-- What is to stand at a root, with the names of symbols and operators still unread. -/
inductive HeadText (α : Type) where
  | number (value : α)
  | symbol (name : String)
  | operator (text : String)

/-- A variable given by any text, or by a text that has to be a valid name. -/
inductive VariableText where
  | name (text : String)
  | symbol (text : String)

/-- Where an expression comes from.  Operands and targets are names of registers. -/
inductive Source (α : Type) where
  | number (value : α)
  | symbol (name : String)
  | text (text : String)
  | datum (datum : Datum)
  | head (head : HeadText α) (operands : Option (List String))
  | tag (tag : String) (operands : Option (List String))
  | operands (operator : String) (operands : List String)
  | negation (operand : String)
  | binary (operator left right : String)
  | flatten (target : String)
  | copy (target : String)

/-- The commands of a session. -/
inductive Command (α : Type) where
  | store (source : Source α) (register : String)
  | operand (index : Nat) (target register : String)
  | append (operands : List String) (target : String)
  | remove (index : Nat) (target : String) (register : Option String)
  | equal (left right : String)
  | evaluate (target : String) (var : VariableText) (value : α)
  | inspect (target : String)
  | roundTrip (target : String)
  | serialize (target : String)

/-- The answers to commands. -/
inductive Answer (α : Type) where
  /-- The expression that a register now holds. -/
  | state (expr : Expr α)
  /-- There is no operand at the index. -/
  | absent
  | removed (operand rest : Expr α)
  /-- An edit failed; the expression is the one that the register holds after it. -/
  | unchanged (expr : Expr α) (fault : Fault)
  | equal (holds : Bool)
  | evaluated (outcome : Evaluated α)
  | inspected (expr : Expr α)
  /-- The expression that the text of another one writes, and whether the two are equal. -/
  | reread (expr : Expr α) (holds : Bool)
  | serialized (datum : Datum)
  | failed (failure : Failure)

/-- Named registers of expressions. -/
structure Workspace (α : Type) where
  registers : List (String × Expr α)

/-- A fault as the failure of a command. -/
def Failure.ofFault {β : Type} : Except Fault β → Except Failure β :=
  Except.mapError .fault

/-- Reads the name of a symbol or the text of an operator. -/
def HeadText.read {α : Type} : HeadText α → Except Fault (Head α)
  | .number x => .ok (.number x)
  | .symbol name => (Symbol.ofName name).map .symbol
  | .operator text => (Operator.ofText text).map .operator

/-- The name to be looked for in an expression. -/
def VariableText.read : VariableText → Except Fault String
  | .name text => .ok text
  | .symbol text => (Symbol.ofName text).map Symbol.name

namespace Workspace

variable {α : Type}

/-- The workspace in which no register is set. -/
def empty : Workspace α := ⟨[]⟩

/-- The expression in a register, if it is set. -/
def find? (w : Workspace α) (name : String) : Option (Expr α) := w.registers.lookup name

/-- The expression in a register, or the failure that it is not set. -/
def find (w : Workspace α) (name : String) : Except Failure (Expr α) :=
  match w.find? name with
  | some e => .ok e
  | none => .error (.unknownRegister name)

/-- The expressions in several registers. -/
def findAll (w : Workspace α) (names : List String) : Except Failure (List (Expr α)) :=
  names.mapM w.find

/-- The expressions in several registers, if any are named. -/
def findAll? (w : Workspace α) : Option (List String) → Except Failure (Option (List (Expr α)))
  | some names => (w.findAll names).map some
  | none => .ok none

/-- Puts an expression in a register. -/
def store (w : Workspace α) (name : String) (e : Expr α) : Workspace α :=
  ⟨(name, e) :: w.registers.filter (·.1 ≠ name)⟩

variable [Arithmetic α] [Numeric α] [BEq α]

/-- The expression that comes from a source. -/
def build (w : Workspace α) : Source α → Except Failure (Expr α)
  | .number x => .ok (.number x)
  | .symbol name => Failure.ofFault (Expr.ofName name)
  | .text text => Failure.ofFault (Expr.parse text)
  | .datum datum => (Expr.codec.read datum).mapError .refusal
  | .head head operands => do
    let es ← w.findAll? operands
    Failure.ofFault do Expr.ofHead (← head.read) es
  | .tag tag operands => do
    let es ← w.findAll? operands
    Failure.ofFault (Expr.ofTag tag es)
  | .operands operator operands => do
    let es ← w.findAll operands
    Failure.ofFault do Expr.ofOperands (← Operator.ofText operator) es
  | .negation operand => return .negation (← w.find operand)
  | .binary operator left right => do
    let l ← w.find left
    let r ← w.find right
    Failure.ofFault do return Expr.binary (← Operator.ofText operator) l r
  | .flatten target => return (← w.find target).flatten
  | .copy target => w.find target

/-- The answer to a command and the workspace after it, if nothing fails. -/
def perform (w : Workspace α) : Command α → Except Failure (Workspace α × Answer α)
  | .store source register => do
    let e ← w.build source
    return (w.store register e, .state e)
  | .operand index target register => do
    match (← w.find target).operands[index]? with
    | some e => return (w.store register e, .state e)
    | none => return (w, .absent)
  | .append operands target => do
    let more ← w.findAll operands
    let (outcome, e) := (← w.find target).append more
    let w' := w.store target e
    match outcome with
    | .ok () => return (w', .state e)
    | .error fault => return (w', .unchanged e fault)
  | .remove index target register => do
    let (outcome, e) := (← w.find target).remove index
    let w' := w.store target e
    match outcome with
    | .ok operand => return (register.elim w' (w'.store · operand), .removed operand e)
    | .error fault => return (w', .unchanged e fault)
  | .equal left right => do
    let l ← w.find left
    let r ← w.find right
    return (w, .equal (l == r))
  | .evaluate target var value => do
    let e ← w.find target
    let name ← Failure.ofFault var.read
    return (w, .evaluated (e.evaluate name value))
  | .inspect target => return (w, .inspected (← w.find target))
  | .roundTrip target => do
    let e ← w.find target
    let e' ← Failure.ofFault (Expr.parse e.text)
    return (w, .reread e' (e' == e))
  | .serialize target => return (w, .serialized (Expr.codec.write (← w.find target)))

/-- Carries a command out; one that fails changes nothing. -/
def execute (w : Workspace α) (command : Command α) : Workspace α × Answer α :=
  match w.perform command with
  | .ok result => result
  | .error failure => (w, .failed failure)

/-- Carries commands out one after the other, with their answers in order. -/
def session (w : Workspace α) : List (Command α) → Workspace α × List (Answer α)
  | [] => (w, [])
  | command :: rest =>
    let (w', answer) := w.execute command
    let (w'', answers) := session w' rest
    (w'', answer :: answers)

end Workspace

end InfixAlgebra
