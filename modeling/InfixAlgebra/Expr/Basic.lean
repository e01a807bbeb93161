import InfixAlgebra.Operator
import InfixAlgebra.Symbol

/-!
# Expressions

An expression is a number, a symbol, or a node of an operator over a list of operands.  A node with
one operand is a negation if its operator is minus; the constructors of
`InfixAlgebra.Expr.Construction` build no other nodes with one operand, and none without operands.

The recursive type runs through lists, so functions on expressions come in pairs, one for an
expression and one for a list of operands, and `Expr.inductionOn` has a hypothesis for every operand.
-/

namespace InfixAlgebra

/-- Expressions over a number type. -/
inductive Expr (α : Type u) where
  | number (value : α)
  | symbol (symbol : Symbol)
  | node (operator : Operator) (operands : List (Expr α))

/-- What stands at the root of an expression. -/
inductive Head (α : Type u) where
  | number (value : α)
  | symbol (symbol : Symbol)
  | operator (operator : Operator)

namespace Expr

variable {α : Type u}

/-- To prove a fact of all expressions, prove it of terminals, and of a node from its operands. -/
@[induction_eliminator]
theorem inductionOn {motive : Expr α → Prop} (number : ∀ x, motive (.number x))
    (symbol : ∀ s, motive (.symbol s))
    (node : ∀ op es, (∀ e ∈ es, motive e) → motive (.node op es)) (e : Expr α) : motive e :=
  Expr.rec (motive_1 := motive) (motive_2 := fun es => ∀ e ∈ es, motive e) number symbol node
    (fun _ he => absurd he List.not_mem_nil)
    (fun _ _ he hes _ h => (List.mem_cons.1 h).elim (fun heq => heq ▸ he) (hes _)) e

/-! ## Looking at the root -/

/-- The number, symbol or operator at the root. -/
def head : Expr α → Head α
  | .number x => .number x
  | .symbol s => .symbol s
  | .node op _ => .operator op

/-- The operands of a node; a terminal has none. -/
def operands : Expr α → List (Expr α)
  | .node _ es => es
  | _ => []

def isTerminal : Expr α → Bool
  | .node .. => false
  | _ => true

def operator? : Expr α → Option Operator
  | .node op _ => some op
  | _ => none

def number? : Expr α → Option α
  | .number x => some x
  | _ => none

def symbol? : Expr α → Option Symbol
  | .symbol s => some s
  | _ => none

/-- A minus with a single operand. -/
def isNegation : Expr α → Bool
  | .node .sub [_] => true
  | _ => false

/-! ## Levels -/

mutual

/-- The number of levels: one for a terminal, one more than the deepest operand for a node. -/
def depth : Expr α → Nat
  | .number _ => 1
  | .symbol _ => 1
  | .node _ es => depthAll es + 1

/-- The levels of the deepest among some operands. -/
def depthAll : List (Expr α) → Nat
  | [] => 0
  | e :: es => max e.depth (depthAll es)

end

/-! ## Terminals -/

mutual

/-- The numbers and symbols of an expression from left to right. -/
def terminals : Expr α → List (Expr α)
  | .number x => [.number x]
  | .symbol s => [.symbol s]
  | .node _ es => terminalsAll es

/-- The numbers and symbols of some operands from left to right. -/
def terminalsAll : List (Expr α) → List (Expr α)
  | [] => []
  | e :: es => e.terminals ++ terminalsAll es

end

theorem terminalsAll_eq_flatMap (es : List (Expr α)) : terminalsAll es = es.flatMap terminals := by
  induction es with
  | nil => rfl
  | cons e es ih => simp [terminalsAll, ih]

theorem terminals_node (op : Operator) (es : List (Expr α)) :
    (node op es).terminals = es.flatMap terminals := by
  rw [terminals, terminalsAll_eq_flatMap]

/-- The different names of the symbols of an expression, in the order of their characters. -/
def variableNames (e : Expr α) : List String :=
  Symbol.sortNames (e.terminals.filterMap fun t => t.symbol?.map Symbol.name)

/-! ## Equality -/

mutual

/-- Equality of expressions, as fine as the equality of their numbers. -/
def beq [BEq α] : Expr α → Expr α → Bool
  | .number x, .number y => x == y
  | .symbol s, .symbol t => s == t
  | .node op es, .node op' es' => op == op' && beqAll es es'
  | _, _ => false

/-- Equality of lists of operands, one by one. -/
def beqAll [BEq α] : List (Expr α) → List (Expr α) → Bool
  | [], [] => true
  | e :: es, e' :: es' => e.beq e' && beqAll es es'
  | _, _ => false

end

instance [BEq α] : BEq (Expr α) := ⟨beq⟩

end Expr

end InfixAlgebra
