import InfixAlgebra.Proofs.Evaluation.Value
import InfixAlgebra.Report

/-!
# Pruning

Evaluation leaves operands without a value out where it meets them.  The same comes out if they are
cut off first.  `prune` cuts every operand off that is not live, unless it is that of a negation,
and puts the number in for the variable; a node with a single operand left is replaced by that
operand, so that no minus becomes a negation.  Then no symbol is left, and `total?` computes the
pruned expression from the values of all operands, from the left (`total?_prune`).
-/

namespace InfixAlgebra.Expr

variable {α : Type u}

/-! ## Cutting operands off -/

/-- A node of the operands that are left, or the only one. -/
def collapse (op : Operator) : List (Expr α) → Expr α
  | [e] => e
  | es => .node op es

mutual

/-- The expression with `value` for the symbol named `name`.  Nodes lose the operands that are not
live, but a negation keeps its own. -/
def prune (name : String) (value : α) : Expr α → Expr α
  | .number x => .number x
  | .symbol s => if s.name = name then .number value else .symbol s
  | .node .sub [e] => .node .sub [e.prune name value]
  | .node op es => collapse op (pruneAll name value es)

/-- The live ones among some operands, pruned. -/
def pruneAll (name : String) (value : α) : List (Expr α) → List (Expr α)
  | [] => []
  | e :: es =>
    if e.isLive name then e.prune name value :: pruneAll name value es
    else pruneAll name value es

end

theorem prune_node {name : String} {value : α} {op : Operator} {es : List (Expr α)}
    (h : (node op es).isNegation = false) :
    (node op es).prune name value = collapse op (pruneAll name value es) := by
  rw [prune]
  rintro e rfl rfl
  cases h

/-! ## Evaluating all operands -/

variable [Arithmetic α]

/-- A number and those behind it with an operator between them, from the left. -/
def fromLeft : Operator → α → List α → α
  | _, x, [] => x
  | .add, x, y :: ys => fromLeft .add (x + y) ys
  | .sub, x, y :: ys => fromLeft .sub (x - y) ys
  | .mul, x, y :: ys => fromLeft .mul (x * y) ys
  | .div, x, y :: ys => fromLeft .div (x / y) ys
  | .pow, x, y :: ys => fromLeft .pow (x ^ y) ys

theorem fromLeft_eq_foldl (op : Operator) (x : α) (ys : List α) :
    fromLeft op x ys = ys.foldl op.apply x := by
  induction ys generalizing x with
  | nil => cases op <;> rfl
  | cons y ys ih => cases op <;> exact ih _

mutual

/-- The value of an expression without symbols: a negation negates its operand, and any other node
has its operator between all of its operands, from the left. -/
def total? : Expr α → Option α
  | .number x => some x
  | .symbol _ => none
  | .node .sub [e] => e.total?.map fun x => -x
  | .node op es =>
    match totalAll? es with
    | some (x :: xs) => some (fromLeft op x xs)
    | _ => none

/-- The values of operands without symbols. -/
def totalAll? : List (Expr α) → Option (List α)
  | [] => some []
  | e :: es => e.total?.bind fun x => (totalAll? es).map fun xs => x :: xs

end

theorem total?_node {op : Operator} {es : List (Expr α)} (h : (node op es).isNegation = false) :
    (node op es).total? = (totalAll? es).bind op.fold := by
  rw [total?]
  · match totalAll? es with
    | none | some [] => rfl
    | some (x :: xs) => exact congrArg some (fromLeft_eq_foldl op x xs)
  · rintro e rfl rfl
    cases h

/-- Operands that all have a value have the values one by one. -/
theorem totalAll?_cons {e : Expr α} {es : List (Expr α)} {x : α} {xs : List α}
    (h : e.total? = some x) (hs : totalAll? es = some xs) :
    totalAll? (e :: es) = some (x :: xs) := by
  rw [totalAll?, h, hs]
  rfl

/-- A node of the operands that are left folds their values, also if there is only one. -/
theorem total?_collapse (op : Operator) {es : List (Expr α)} {xs : List α}
    (h : totalAll? es = some xs) : (collapse op es).total? = op.fold xs := by
  match es with
  | [] =>
    obtain rfl := Option.some.inj h
    rw [collapse, total?_node]
    · rfl
    · cases op <;> rfl
    · simp
  | [e] =>
    -- The operator is gone, so a minus does not negate what is left.
    obtain ⟨x, hx, h⟩ := Option.bind_eq_some_iff.1 h
    obtain rfl := Option.some.inj h
    exact hx
  | e :: e' :: es =>
    rw [collapse, total?_node, h]
    · rfl
    · exact isNegation_of_two_le (by simp)
    · simp

/-! ## Pruning and evaluation -/

variable {name : String} {value : α}

/-- The values of the pruned operands are those of the operands that have one. -/
theorem totalAll?_pruneAll {es : List (Expr α)}
    (h : ∀ e ∈ es, e.isLive name = true → (e.prune name value).total? = e.value? name value) :
    totalAll? (pruneAll name value es) = some (es.filterMap (value? name value)) := by
  induction es with
  | nil => rfl
  | cons e es ih =>
    rw [List.forall_mem_cons] at h
    by_cases hl : e.isLive name = true
    · obtain ⟨x, hx⟩ := exists_value? value hl
      rw [pruneAll, if_pos hl, List.filterMap_cons_some hx]
      exact totalAll?_cons ((h.1 hl).trans hx) (ih h.2)
    · rw [pruneAll, if_neg hl, List.filterMap_cons_none (value?_eq_none_iff.2 (by simpa using hl))]
      exact ih h.2

/-- The value of a live expression is the total value of the pruned one. -/
theorem total?_prune (e : Expr α) (h : e.isLive name = true) :
    (e.prune name value).total? = e.value? name value := by
  induction e using negationInductionOn with
  | number x => rfl
  | symbol s =>
    rw [isLive_symbol, decide_eq_true_eq] at h
    rw [prune, if_pos h, value?_symbol, if_pos h]
    rfl
  | negation e ih =>
    rw [isLive_negation] at h
    exact congrArg (Option.map fun x => -x) (ih h)
  | node op es hn ih =>
    rw [prune_node hn, total?_collapse op (totalAll?_pruneAll ih), value?_node name value hn]

/-- A node other than a negation has the value of its only live operand. -/
theorem value?_node_of_filter {op : Operator} {es : List (Expr α)} {d : Expr α}
    (hn : (node op es).isNegation = false) (h : es.filter (isLive name) = [d]) :
    (node op es).value? name value = d.value? name value := by
  rw [value?_node name value hn, ← filterMap_filter_isLive, h, List.filterMap_cons]
  cases d.value? name value <;> rfl

/-- An expression that is not live is kept; a live one has the total value of the pruned one, so a
difference with one live operand is not negated. -/
theorem evaluate_eq_total?_prune [Numeric α] (e : Expr α) (name : String) (value : α) :
    ((∃ d, e.evaluate name value = .unresolved d) ↔ e.isLive name = false) ∧
    (e.isLive name = false → e.evaluate name value = .unresolved e ∧
      ∃ fault, (e.evaluate name value).toNumber = .error fault ∧
        fault.report = ⟨.operand, s!"could not resolve {e.text} to a number"⟩) ∧
    (e.isLive name = true →
      ∃ x, (e.prune name value).total? = some x ∧ e.evaluate name value = .number x) ∧
    ∀ es d, e = .node .sub es → 2 ≤ es.length → es.filter (isLive name) = [d] →
      ∃ x, d.evaluate name value = .number x ∧ e.evaluate name value = .number x := by
  refine ⟨?_, fun hl => ?_, fun hl => ?_, fun es d he hes hd => ?_⟩
  · rw [exists_evaluate_eq_unresolved_iff, value?_eq_none_iff]
  · have hu : e.evaluate name value = .unresolved e :=
      evaluate_eq_unresolved_iff.2 ⟨value?_eq_none_iff.2 hl, rfl⟩
    rw [hu]
    exact ⟨rfl, _, rfl, rfl⟩
  · obtain ⟨x, hx⟩ := exists_value? value hl
    exact ⟨x, (total?_prune e hl).trans hx, evaluate_eq_number_iff.2 hx⟩
  · have hm : d ∈ es.filter (isLive name) := hd ▸ List.mem_cons_self
    obtain ⟨x, hx⟩ := exists_value? value (List.mem_filter.1 hm).2
    refine ⟨x, evaluate_eq_number_iff.2 hx, evaluate_eq_number_iff.2 ?_⟩
    rw [he, value?_node_of_filter (isNegation_of_two_le hes) hd, hx]

/-- Of `x-y-(-z)` the middle operand is left for `y`, not negated, and nothing for `w`; `9-x-y-3`
for `x` is computed from the left. -/
theorem evaluate_partial_difference :
    let e : Expr Float := node .sub [.symbol ⟨"x"⟩, .symbol ⟨"y"⟩, negation (.symbol ⟨"z"⟩)]
    let d : Expr Float := node .sub [.number 9, .symbol ⟨"x"⟩, .symbol ⟨"y"⟩, .number 3]
    e.evaluate "y" 2 = .number 2 ∧ e.evaluate "w" 2 = .unresolved e ∧
      d.evaluate "x" 2 = .number 4 := by
  intro e d
  refine ⟨?_, ((evaluate_eq_total?_prune e "w" 2).2.1 rfl).1, ?_⟩
  · obtain ⟨x, hd, he⟩ :=
      (evaluate_eq_total?_prune e "y" 2).2.2.2 _ (.symbol ⟨"y"⟩) rfl (by decide) rfl
    rw [he, ← hd]
    rfl
  · obtain ⟨x, hx, hd⟩ := (evaluate_eq_total?_prune d "x" 2).2.2.1 rfl
    have ht : (d.prune "x" 2).total? = some (9 - 2 - 3) := rfl
    have h4 : (9 - 2 - 3 : Float) = 4 := by decide +kernel
    rw [hd, Option.some.inj (hx.symm.trans ht), h4]

end InfixAlgebra.Expr
