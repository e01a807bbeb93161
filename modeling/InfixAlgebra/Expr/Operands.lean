import InfixAlgebra.Expr.Printer

/-!
# Editing operands

Operands are appended to a node and removed from one.  A terminal has no operands to edit, and a
node keeps at least two: a binary operation does not turn into a unary one.  An edit changes the
expression in place, so what comes of it goes with the expression after it, also if it fails.
-/

namespace InfixAlgebra.Expr

variable {α : Type u} [Numeric α]

/-- Appends operands to a node. -/
def append (e : Expr α) (more : List (Expr α)) : Except Fault Unit × Expr α :=
  match e with
  | .node op es => (.ok (), .node op (es ++ more))
  | e => (.error (.appendToTerminal e.text), e)

/-- Takes the operand at an index away from a node. -/
def remove (e : Expr α) (index : Nat) : Except Fault (Expr α) × Expr α :=
  match e with
  | .node op es =>
    match es[index]? with
    | none => (.error (.indexOutOfRange index es.length), .node op es)
    | some operand =>
      if es.length ≤ 2 then (.error (.tooFewOperands op es.length), .node op es)
      else (.ok operand, .node op (es.eraseIdx index))
  | e => (.error (.removeFromTerminal e.text), e)

variable {op : Operator} {e d e' : Expr α} {es more : List (Expr α)} {index : Nat}

theorem append_of_isTerminal (h : e.isTerminal = true) (more : List (Expr α)) :
    e.append more = (.error (.appendToTerminal e.text), e) := by
  cases e with
  | number x | symbol s => rfl
  | node op es => cases h

theorem remove_of_isTerminal (h : e.isTerminal = true) (index : Nat) :
    e.remove index = (.error (.removeFromTerminal e.text), e) := by
  cases e with
  | number x | symbol s => rfl
  | node op es => cases h

theorem remove_of_length_le (h : es.length ≤ index) :
    (node op es).remove index = (.error (.indexOutOfRange index es.length), .node op es) := by
  simp [remove, List.getElem?_eq_none h]

theorem remove_of_length_le_two (hi : index < es.length) (h : es.length ≤ 2) :
    (node op es).remove index = (.error (.tooFewOperands op es.length), .node op es) := by
  simp [remove, List.getElem?_eq_getElem hi, h]

theorem remove_of_two_lt_length (hd : es[index]? = some d) (h : 2 < es.length) :
    (node op es).remove index = (.ok d, .node op (es.eraseIdx index)) := by
  simp [remove, hd, Nat.not_le.2 h]

/-- Operands are appended, or else the expression stays as it is. -/
theorem append_cases (e : Expr α) (more : List (Expr α)) :
    (e.isTerminal = true ∧ ∃ fault, e.append more = (.error fault, e)) ∨
      ∃ op es, e = .node op es ∧ e.append more = (.ok (), .node op (es ++ more)) := by
  cases e with
  | number x | symbol s => exact .inl ⟨rfl, _, append_of_isTerminal rfl more⟩
  | node op es => exact .inr ⟨op, es, rfl, rfl⟩

/-- An operand is removed from a node that keeps two, or else the expression stays as it is. -/
theorem remove_cases (e : Expr α) (index : Nat) :
    ((e.isTerminal = true ∨ e.operands.length ≤ index ∨ e.operands.length ≤ 2) ∧
        ∃ fault, e.remove index = (.error fault, e)) ∨
      ∃ op es d, e = .node op es ∧ es[index]? = some d ∧ 2 < es.length ∧
        e.remove index = (.ok d, .node op (es.eraseIdx index)) := by
  cases e with
  | number x | symbol s => exact .inl ⟨.inl rfl, _, remove_of_isTerminal rfl index⟩
  | node op es =>
    rcases Nat.lt_or_ge index es.length with hi | hi
    · rcases Nat.lt_or_ge 2 es.length with hl | hl
      · have hd := List.getElem?_eq_getElem hi
        exact .inr ⟨op, es, _, rfl, hd, hl, remove_of_two_lt_length hd hl⟩
      · exact .inl ⟨.inr (.inr hl), _, remove_of_length_le_two hi hl⟩
    · exact .inl ⟨.inr (.inl hi), _, remove_of_length_le hi⟩

end InfixAlgebra.Expr
