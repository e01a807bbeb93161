import InfixAlgebra.Expr.Printer
import InfixAlgebra.Proofs.Expr.Nodes
import Mathlib.Algebra.Order.BigOperators.Group.List
import Mathlib.Algebra.Order.Ring.Nat

/-!
# Signs in texts

The text of an expression has the characters of an operator where the operator occurs, and where the
texts of terminals have them (`occurrences_add_le_count`).  It has more of them only if an ordered
operator has more than two operands.
-/

namespace InfixAlgebra

theorem Operator.signs_le {op : Operator} {n : Nat} (h : 2 ≤ n) : op.signs n ≤ n - 1 := by
  unfold signs
  split_ifs <;> omega

theorem Operator.signs_one_le (op : Operator) : op.signs 1 ≤ 1 := by
  cases op <;> decide

namespace Expr

variable {α : Type u}

theorem count_intercalate (c d : Char) (cs : List Char) (css : List (List Char)) :
    ([d].intercalate (cs :: css)).count c =
      ((cs :: css).map (List.count c)).sum + if d = c then css.length else 0 := by
  induction css generalizing cs with
  | nil => simp [List.intercalate]
  | cons ds dss ih =>
    have hi : [d].intercalate (cs :: ds :: dss) = cs ++ d :: [d].intercalate (ds :: dss) := by
      simp [List.intercalate]
    rw [hi, List.count_append, List.count_cons, ih]
    simp only [beq_iff_eq, List.map_cons, List.sum_cons, List.length_cons]
    split_ifs <;> omega

theorem count_enclose (op : Operator) (e : Expr α) (cs : List Char) :
    (enclose e cs).count op.char = cs.count op.char := by
  cases e with
  | number x => rfl
  | symbol s => rfl
  | node op' es => cases op <;> simp [enclose, Operator.char]

/-- A node of `n` operands adds the signs that it is written with. -/
theorem le_count_join (op op' : Operator) {css : List (List Char)} (h : 0 < css.length) :
    (if op' = op then op.signs css.length else 0) + (css.map (List.count op.char)).sum ≤
      (join op' css).count op.char := by
  have hc : op'.char = op.char ↔ op' = op := ⟨Operator.char_injective, congrArg _⟩
  match css with
  | [cs] =>
    have hs := op.signs_one_le
    rw [join, List.count_cons, List.map_singleton, List.sum_singleton, List.length_singleton]
    simp only [beq_iff_eq, hc]
    split_ifs <;> omega
  | cs :: ds :: dss =>
    have hs : op.signs (cs :: ds :: dss).length ≤ (ds :: dss).length :=
      Operator.signs_le (Nat.le_add_left 2 dss.length)
    rw [join, count_intercalate]
    · simp only [hc]
      split_ifs <;> omega
    · exact fun cs' => nofun

variable [Numeric α] {e : Expr α}

/-- The signs of an operator in a text are its occurrences and those in the texts of terminals. -/
theorem occurrences_add_le_count (op : Operator) (h : HasArity (fun _ n => 0 < n) e) :
    occurrences op e + (e.terminals.map fun d => d.chars.count op.char).sum ≤
      e.chars.count op.char := by
  induction e with
  | number x =>
    rw [occurrences_of_isTerminal op rfl, Nat.zero_add]
    exact Nat.le_refl _
  | symbol s =>
    rw [occurrences_of_isTerminal op rfl, Nat.zero_add]
    exact Nat.le_refl _
  | node op' es ih =>
    rw [hasArity_node] at h
    have hi : ∀ d ∈ es, occurrences op d + (d.terminals.map fun d => d.chars.count op.char).sum ≤
        (enclose d d.chars).count op.char := by
      intro d hd
      rw [count_enclose]
      exact ih d hd (h.2 d hd)
    have hl : 0 < (es.map fun d => enclose d d.chars).length := by
      rw [List.length_map]
      exact h.1
    have hj := le_count_join op op' hl
    have hs := List.sum_le_sum hi
    rw [List.sum_map_add] at hs
    rw [List.length_map, List.map_map] at hj
    rw [occurrences_node, terminals_node, chars_node, List.map_flatMap, List.flatMap_def,
      List.sum_flatten, List.map_map]
    simp only [Function.comp_def] at hj ⊢
    omega

end Expr

end InfixAlgebra
