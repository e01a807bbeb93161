import InfixAlgebra.Proofs.Evaluation.Value
import InfixAlgebra.Proofs.Expr.Names

/-!
# Substitution

To evaluate an expression with a number for a variable is to put the number in for the variable, and
then to evaluate for a variable that does not occur any more, with any number (`value?_substitute`).
So evaluation for a variable that does not occur depends neither on that variable nor on the number
(`evaluate_substitute`).
-/

namespace InfixAlgebra.Expr

variable {α : Type u}

mutual

/-- The expression with the number `value` in the place of every symbol named `name`. -/
def substitute (name : String) (value : α) : Expr α → Expr α
  | .number x => .number x
  | .symbol s => if s.name = name then .number value else .symbol s
  | .node op es => .node op (substituteAll name value es)

/-- Some operands with the number `value` in the place of every symbol named `name`. -/
def substituteAll (name : String) (value : α) : List (Expr α) → List (Expr α)
  | [] => []
  | e :: es => e.substitute name value :: substituteAll name value es

end

variable {name : String} {value : α} {e : Expr α}

theorem substituteAll_eq_map (es : List (Expr α)) :
    substituteAll name value es = es.map (substitute name value) := by
  induction es with
  | nil => rfl
  | cons e es ih => rw [substituteAll, ih, List.map_cons]

theorem substitute_node (op : Operator) (es : List (Expr α)) :
    (node op es).substitute name value = node op (es.map (substitute name value)) := by
  rw [substitute, substituteAll_eq_map]

/-- There is nothing to be put in if the variable does not occur. -/
theorem substitute_of_not_mem (h : .symbol ⟨name⟩ ∉ e.terminals) : e.substitute name value = e := by
  induction e with
  | number x => rfl
  | symbol s =>
    refine if_neg ?_
    rintro rfl
    exact h (List.mem_singleton.2 rfl)
  | node op es ih =>
    have hes : ∀ e ∈ es, e.substitute name value = e :=
      fun e he => ih e he fun hs => h (mem_terminals_node he hs)
    rw [substitute_node, List.map_congr_left hes, List.map_id']

variable [Arithmetic α] {other : String}

/-- Once the number is put in, the variable and any that does not occur give the same value, with
any number for them. -/
theorem value?_substitute (b : α) (h : other = name ∨ .symbol ⟨other⟩ ∉ e.terminals) :
    (e.substitute name value).value? other b = e.value? name value := by
  induction e using negationInductionOn with
  | number x => rfl
  | symbol s =>
    rw [substitute, value?_symbol]
    by_cases hs : s.name = name
    · rw [if_pos hs, if_pos hs, value?_number]
    · have ho : s.name ≠ other := by
        rintro rfl
        exact h.elim hs fun h => h (List.mem_singleton.2 rfl)
      rw [if_neg hs, if_neg hs, value?_symbol, if_neg ho]
  | negation e ih =>
    rw [terminals_negation] at h
    exact congrArg (Option.map fun x => -x) (ih h)
  | node op es hn ih =>
    have hes : ∀ e ∈ es, (e.substitute name value).value? other b = e.value? name value :=
      fun e he => ih e he (h.imp_right fun h hs => h (mem_terminals_node he hs))
    rw [substitute_node, value?_node _ _ ((isNegation_node_map _ _ _).trans hn),
      value?_node _ _ hn, List.filterMap_map]
    exact congrArg op.fold (List.filterMap_congr hes)

/-- Putting the number in before evaluation or during it gives the same outcome, and so does every
variable that does not occur, with any number. -/
theorem evaluate_substitute (e : Expr α) (name other : String) (value b : α) :
    (other = name ∨ other ∉ e.variableNames →
      ((e.substitute name value).evaluate other b).number? = (e.evaluate name value).number?) ∧
    (name ∉ e.variableNames → other ∉ e.variableNames →
      e.evaluate other b = e.evaluate name value) := by
  simp only [mem_variableNames_iff]
  constructor
  · intro h
    rw [number?_evaluate, number?_evaluate, value?_substitute b h]
  · intro hn ho
    have hv : (e.substitute name value).value? other b = e.value? name value :=
      value?_substitute b (Or.inr ho)
    rw [substitute_of_not_mem hn] at hv
    exact evaluate_congr hv

/-- With 3 put in for `y`, `x+y*yy` comes out as 3 for `z`, since `yy` is another variable; without
it, `z` and `w` come out alike. -/
theorem evaluate_substituted_product :
    let e : Expr Float := binary .add (.symbol ⟨"x"⟩) (binary .mul (.symbol ⟨"y"⟩) (.symbol ⟨"yy"⟩))
    "z" ∉ e.variableNames ∧ "w" ∉ e.variableNames ∧
      (e.substitute "y" 3).evaluate "z" 7 = .number 3 ∧ e.evaluate "z" 7 = e.evaluate "w" 5 := by
  intro e
  have hz : "z" ∉ e.variableNames := by
    simp [e, mem_variableNames_iff, terminals_binary, terminals]
  have hw : "w" ∉ e.variableNames := by
    simp [e, mem_variableNames_iff, terminals_binary, terminals]
  have hn := (evaluate_substitute e "y" "z" 3 7).1 (Or.inr hz)
  rw [number?_evaluate] at hn
  exact ⟨hz, hw, evaluate_eq_number_iff.2 hn, (evaluate_substitute e "w" "z" 5 7).2 hw hz⟩

end InfixAlgebra.Expr
