/-!
# Operators

The five binary operators, their characters and precedences, and whether regrouping a chain of one
of them can matter.
-/

namespace InfixAlgebra

/-- The operators, in the order in which they are listed and sorted. -/
inductive Operator where
  | add
  | sub
  | mul
  | div
  | pow
  deriving DecidableEq

namespace Operator

/-- All operators in their order. -/
def all : List Operator := [.add, .sub, .mul, .div, .pow]

theorem mem_all (op : Operator) : op ∈ all := by
  cases op <;> decide

/-- What an operator is called. -/
def name : Operator → String
  | .add => "Add"
  | .sub => "Sub"
  | .mul => "Mul"
  | .div => "Div"
  | .pow => "Pow"

/-- How an operator is written. -/
def char : Operator → Char
  | .add => '+'
  | .sub => '-'
  | .mul => '*'
  | .div => '/'
  | .pow => '^'

theorem char_injective {a b : Operator} (h : a.char = b.char) : a = b := by
  revert h
  cases a <;> cases b <;> decide

/-- The character of an operator as a text. -/
def text (op : Operator) : String := op.char.toString

/-- Operators of higher precedence bind tighter. -/
def precedence : Operator → Nat
  | .add | .sub => 1
  | .mul | .div => 2
  | .pow => 3

/-- An unordered operator may be regrouped: a chain of it is one node. -/
def isOrdered : Operator → Bool
  | .add | .mul => false
  | .sub | .div | .pow => true

/-- The place in `all`. -/
def rank (op : Operator) : Nat := all.idxOf op

/-- The operator that a character writes. -/
def ofChar? (c : Char) : Option Operator := all.find? (·.char == c)

theorem char_of_ofChar? {c : Char} {op : Operator} (h : ofChar? c = some op) : op.char = c := by
  simpa using List.find?_some h

/-- Operators in their order. -/
def sort (ops : List Operator) : List Operator := ops.mergeSort fun a b => a.rank ≤ b.rank

end Operator

end InfixAlgebra
