import InfixAlgebra.Expr.Printer

/-!
# Records

What reading and evaluation put on record, step by step.  A record keeps the expressions it is
about; its line is written only when somebody asks.
-/

namespace InfixAlgebra

/-- The steps that are put on record. -/
inductive Record (α : Type u) where
  /-- The parser combined operands into `expr`. -/
  | reduced (expr : Expr α)
  /-- The parser read a whole text as `expr`. -/
  | parsed (text : String) (expr : Expr α)
  /-- Evaluation left an operand of a node of `op` out. -/
  | dropped (operand : Expr α) (op : Operator)

namespace Record

variable {α : Type u} [Numeric α]

/-- The level at which a step is recorded. -/
def level : Record α → String
  | .parsed .. => "DEBUG"
  | .reduced _ | .dropped .. => "TRACE"

/-- What a record says. -/
def message : Record α → String
  | .reduced e => s!"reduced to {e.text}"
  | .parsed text e => s!"parsed '{text}' into {e.text}"
  | .dropped e op => s!"dropping unresolved operand {e.text} of {op.text}"

/-- The line of a record: its level and what it says. -/
def line (r : Record α) : String := s!"{r.level} {r.message}"

end Record

end InfixAlgebra
