import InfixAlgebra.Expr.Operands
import InfixAlgebra.Proofs.Evaluation.Value

/-!
# Editing and evaluation

A node with at least two operands has the value that its live operands give it
(`value?_node_eq_of_filter`), and while it is edited it never becomes a negation.  So operands that
evaluation leaves out can be appended and removed without a change of the outcome, also where the
node is a part of a larger expression (`evaluate_fill_edited`).
-/

namespace InfixAlgebra

/-- An expression in which one operand is left open, at any place in it. -/
inductive Context (α : Type u) where
  | hole
  | node (op : Operator) (before : List (Expr α)) (inner : Context α) (after : List (Expr α))

/-- The expression of a context with `e` at the open place. -/
def Context.fill {α : Type u} (e : Expr α) : Context α → Expr α
  | .hole => e
  | .node op before inner after => .node op (before ++ inner.fill e :: after)

namespace Expr

variable {α : Type u} {name : String} {op : Operator} {d e : Expr α} {es ds : List (Expr α)}

/-! ## Live operands of an edited node -/

theorem filter_isLive_append (h : ∀ d ∈ ds, d.isLive name = false) :
    (es ++ ds).filter (isLive name) = es.filter (isLive name) := by
  have hd : ds.filter (isLive name) = [] := List.filter_eq_nil_iff.2 (by simpa using h)
  rw [List.filter_append, hd, List.append_nil]

theorem filter_isLive_eraseIdx {index : Nat} (hi : es[index]? = some d)
    (hd : d.isLive name = false) :
    (es.eraseIdx index).filter (isLive name) = es.filter (isLive name) := by
  obtain ⟨hl, rfl⟩ := List.getElem?_eq_some_iff.1 hi
  have hs : es.filter (isLive name) =
      (es.take index ++ es[index] :: es.drop (index + 1)).filter (isLive name) := by
    rw [← List.drop_eq_getElem_cons hl, List.take_append_drop]
  rw [hs, List.eraseIdx_eq_take_drop_succ, List.filter_append, List.filter_append,
    List.filter_cons_of_neg (by rw [hd]; exact Bool.false_ne_true)]

/-! ## Values -/

variable [Arithmetic α] {value : α}

/-- Only the live operands of a node count if it has at least two operands. -/
theorem value?_node_eq_of_filter (hes : 2 ≤ es.length) (hds : 2 ≤ ds.length)
    (h : ds.filter (isLive name) = es.filter (isLive name)) :
    (node op ds).value? name value = (node op es).value? name value := by
  rw [value?_node _ _ (isNegation_of_two_le hds), value?_node _ _ (isNegation_of_two_le hes),
    ← filterMap_filter_isLive, h, filterMap_filter_isLive]

/-- An operand may be replaced by one that has the same value. -/
theorem value?_node_replace (h : d.value? name value = e.value? name value) (op : Operator)
    (before after : List (Expr α)) :
    (node op (before ++ d :: after)).value? name value =
      (node op (before ++ e :: after)).value? name value := by
  by_cases hn : (node op (before ++ e :: after)).isNegation = true
  · obtain ⟨rfl, hl⟩ := isNegation_node_iff.1 hn
    rw [List.length_append, List.length_cons] at hl
    obtain rfl := List.eq_nil_of_length_eq_zero (l := before) (by omega)
    obtain rfl := List.eq_nil_of_length_eq_zero (l := after) (by omega)
    exact congrArg (Option.map fun x => -x) h
  · have hn' : (node op (before ++ d :: after)).isNegation ≠ true := by
      simpa only [ne_eq, isNegation_node_iff, List.length_append, List.length_cons] using hn
    rw [value?_node _ _ (Bool.eq_false_iff.2 hn'), value?_node _ _ (Bool.eq_false_iff.2 hn)]
    simp only [List.filterMap_append, List.filterMap_cons, h]

theorem value?_fill (h : d.value? name value = e.value? name value) (c : Context α) :
    (c.fill d).value? name value = (c.fill e).value? name value := by
  induction c with
  | hole => exact h
  | node op before inner after ih => exact value?_node_replace ih op before after

/-- Operands that are not live can be appended to a node of two and removed from a node of three,
anywhere in an expression, and its value stays. -/
theorem evaluate_fill_edited [Numeric α] (op : Operator) (hes : 2 ≤ es.length) (name : String)
    (value : α) (c : Context α) :
    (∀ more, (∀ d ∈ more, d.isLive name = false) →
      ∃ e', (node op es).append more = (.ok (), e') ∧
        ((c.fill e').evaluate name value).number? =
          ((c.fill (node op es)).evaluate name value).number?) ∧
    (3 ≤ es.length → ∀ index d, es[index]? = some d → d.isLive name = false →
      ∃ e', (node op es).remove index = (.ok d, e') ∧
        ((c.fill e').evaluate name value).number? =
          ((c.fill (node op es)).evaluate name value).number?) := by
  simp only [number?_evaluate]
  constructor
  · intro more hm
    refine ⟨_, rfl, value?_fill (value?_node_eq_of_filter hes ?_ (filter_isLive_append hm)) c⟩
    rw [List.length_append]
    omega
  · intro hes index d hi hd
    have hl : 2 ≤ (es.eraseIdx index).length := by
      have := List.le_length_eraseIdx es index
      omega
    exact ⟨_, remove_of_two_lt_length hi hes, value?_fill
      (value?_node_eq_of_filter (by omega) hl (filter_isLive_eraseIdx hi hd)) c⟩

/-- In `2*-(x-y)` the difference is given a further operand, and in `2*-(x-y-z)` it loses its first;
with 3 for `y` both are -6 still. -/
theorem evaluate_edited_difference :
    let c : Context Float := .node .mul [.number 2] (.node .sub [] .hole []) []
    let x : Expr Float := .symbol ⟨"x"⟩
    let y : Expr Float := .symbol ⟨"y"⟩
    let z : Expr Float := .symbol ⟨"z"⟩
    (∃ e, (node .sub [x, y]).append [negation z] = (.ok (), e) ∧
      ((c.fill e).evaluate "y" 3).number? = ((c.fill (node .sub [x, y])).evaluate "y" 3).number?) ∧
    ∃ e, (node .sub [x, y, z]).remove 0 = (.ok x, e) ∧
      ((c.fill e).evaluate "y" 3).number? =
        ((c.fill (node .sub [x, y, z])).evaluate "y" 3).number? := by
  intro c x y z
  constructor
  · exact (evaluate_fill_edited .sub (by decide) "y" 3 c).1 [negation z] (by simp [z])
  · exact (evaluate_fill_edited .sub (by decide) "y" 3 c).2 (by decide) 0 x rfl rfl

end Expr

end InfixAlgebra
