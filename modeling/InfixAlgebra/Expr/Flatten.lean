import InfixAlgebra.Expr.Basic

/-!
# Flattening

Nested chains of one unordered operator are merged into one node: an operand that is a node of the
same operator gives its own operands instead of itself.  Ordered operators keep their nesting.
-/

namespace InfixAlgebra.Expr

variable {α : Type u}

/-- The operands that an operand of a node of `op` stands for. -/
def spliced (op : Operator) : Expr α → List (Expr α)
  | .node op' es => if op.isOrdered = false ∧ op' = op then es else [.node op' es]
  | e => [e]

mutual

/-- Merges nested chains of `+` and of `*`, the innermost first. -/
def flatten : Expr α → Expr α
  | .number x => .number x
  | .symbol s => .symbol s
  | .node op es => .node op (flattenAll op es)

/-- The operands of a flat node of `op`. -/
def flattenAll (op : Operator) : List (Expr α) → List (Expr α)
  | [] => []
  | e :: es => spliced op e.flatten ++ flattenAll op es

end

theorem flattenAll_eq_flatMap (op : Operator) (es : List (Expr α)) :
    flattenAll op es = es.flatMap fun e => spliced op e.flatten := by
  induction es with
  | nil => rfl
  | cons e es ih => simp [flattenAll, ih]

theorem flatten_node (op : Operator) (es : List (Expr α)) :
    (node op es).flatten = node op (es.flatMap fun e => spliced op e.flatten) := by
  rw [flatten, flattenAll_eq_flatMap]

end InfixAlgebra.Expr
