import InfixAlgebra.Record

/-!
# Evaluation

An expression is evaluated with a number for one variable.  Other symbols have no value.  A node
folds its operator over the operands that have a value and leaves the others out, on record; a node
without a single value has none.  A negation has the negated value of its operand, or none.
-/

namespace InfixAlgebra

/-! ## Arithmetic of operators -/

namespace Operator

variable {α : Type u} [Arithmetic α]

/-- The value of an operator at two numbers. -/
def apply : Operator → α → α → α
  | .add, a, b => a + b
  | .sub, a, b => a - b
  | .mul, a, b => a * b
  | .div, a, b => a / b
  | .pow, a, b => a ^ b

/-- Combines numbers from the left; there is no value without a number. -/
def fold (op : Operator) : List α → Option α
  | [] => none
  | x :: xs => some (xs.foldl op.apply x)

@[simp] theorem fold_nil (op : Operator) : op.fold ([] : List α) = none := rfl

theorem fold_eq_none_iff (op : Operator) (xs : List α) : op.fold xs = none ↔ xs = [] := by
  cases xs <;> simp [fold]

end Operator

/-! ## Values of expressions -/

/-- A value if there is one, and the operands that were left out on the way, in their order. -/
structure Resolution (α : Type u) where
  value? : Option α
  records : List (Record α)

/-- The outcome of an evaluation. -/
inductive Evaluated (α : Type u) where
  | number (value : α)
  /-- The expression has no value; it is kept as it is. -/
  | unresolved (expr : Expr α)

namespace Evaluated

variable {α : Type u}

/-- The number, if there is one. -/
def number? : Evaluated α → Option α
  | .number x => some x
  | .unresolved _ => none

/-- The number, or the fault that there is none. -/
def toNumber [Numeric α] : Evaluated α → Except Fault α
  | .number x => .ok x
  | .unresolved e => .error (.unresolved e.text)

end Evaluated

/-- The records of an operand of a node of `op`: its own, and last that it is left out. -/
def Resolution.recordsWithin {α : Type u} (r : Resolution α) (operand : Expr α) (op : Operator) :
    List (Record α) :=
  match r.value? with
  | some _ => r.records
  | none => r.records ++ [.dropped operand op]

namespace Expr

variable {α : Type u} [Arithmetic α]

mutual

/-- Resolves an expression with `value` for the symbol named `name`. -/
def resolve (name : String) (value : α) : Expr α → Resolution α
  | .number x => ⟨some x, []⟩
  | .symbol s => ⟨if s.name = name then some value else none, []⟩
  | .node op es =>
    match op, resolveAll name value es with
    | .sub, [(_, r)] => ⟨r.value?.map fun x => -x, r.records⟩
    | op, parts =>
      ⟨op.fold (parts.filterMap fun (_, r) => r.value?),
        parts.flatMap fun (e, r) => r.recordsWithin e op⟩

/-- Pairs each operand with its resolution. -/
def resolveAll (name : String) (value : α) : List (Expr α) → List (Expr α × Resolution α)
  | [] => []
  | e :: es => (e, e.resolve name value) :: resolveAll name value es

end

theorem resolveAll_eq_map (name : String) (value : α) (es : List (Expr α)) :
    resolveAll name value es = es.map fun e => (e, e.resolve name value) := by
  induction es with
  | nil => rfl
  | cons e es ih => simp [resolveAll, ih]

/-- Evaluates an expression with `value` for the symbol named `name`. -/
def evaluate (e : Expr α) (name : String) (value : α) : Evaluated α :=
  match (e.resolve name value).value? with
  | some x => .number x
  | none => .unresolved e

/-- The operands that evaluation leaves out, on record. -/
def evaluationRecords (e : Expr α) (name : String) (value : α) : List (Record α) :=
  (e.resolve name value).records

end Expr

end InfixAlgebra
