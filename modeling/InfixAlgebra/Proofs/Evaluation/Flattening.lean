import InfixAlgebra.Proofs.Evaluation.Value
import InfixAlgebra.Proofs.Expr.Regrouping

/-!
# Flattening and evaluation

Flattening regroups chains of `+` and of `*`.  If these two are associative then an expression has
the same value before and after (`value?_flatten`), although operands without a value are left out
at another node.  The other operators may be any.  Whether there is a value at all does not depend
on how the operators compute (`evaluate_flatten`).
-/

namespace InfixAlgebra

/-! ## Folds of folds -/

namespace Operator

variable {α : Type u} [Arithmetic α] (op : Operator)

/-- At most one number is what it is folded to. -/
theorem fold_toList (x : Option α) : op.fold x.toList = x := by
  cases x <;> rfl

variable [Std.Associative (op.apply (α := α))]

/-- Two lists are folded apart from each other. -/
theorem fold_append (xs ys : List α) :
    op.fold (xs ++ ys) = (op.fold xs).merge op.apply (op.fold ys) := by
  match xs, ys with
  | [], ys => cases h : op.fold ys <;> simp [h]
  | x :: xs, [] => simp [fold]
  | x :: xs, y :: ys => simp [fold, List.foldl_assoc]

/-- Lists are folded one by one, and the empty ones do not count. -/
theorem fold_flatten (xss : List (List α)) :
    op.fold xss.flatten = op.fold (xss.filterMap op.fold) := by
  induction xss with
  | nil => rfl
  | cons xs xss ih =>
    have hs : op.fold (xs :: xss).flatten =
        (op.fold xs).merge op.apply (op.fold (xss.filterMap op.fold)) := by
      rw [List.flatten_cons, fold_append, ih]
    have hf : (xs :: xss).filterMap op.fold =
        (op.fold xs).toList ++ xss.filterMap op.fold := by
      rw [List.filterMap_cons]
      cases op.fold xs <;> rfl
    rw [hs, hf, fold_append, fold_toList]

end Operator

namespace Expr

variable {α : Type u} [Arithmetic α]

/-! ## Values of flat expressions -/

section Value

variable (name : String) (value : α)

/-- The operands that an operand stands for are folded to its value. -/
theorem fold_spliced {op : Operator} (ho : op.isOrdered = false) (e : Expr α) :
    op.fold ((spliced op e).filterMap (value? name value)) = e.value? name value := by
  rcases spliced_cases op e with ⟨-, he⟩ | ⟨hs, -⟩
  · rw [← value?_node name value (isNegation_of_unordered ho _), ← he]
  · rw [hs, List.filterMap_cons]
    cases e.value? name value <;> rfl

/-- An expression and the flat one have the same value if regrouping does not matter. -/
theorem value?_flatten
    (h : ∀ op : Operator, op.isOrdered = false → Std.Associative (op.apply (α := α)))
    (e : Expr α) : e.flatten.value? name value = e.value? name value := by
  induction e using negationInductionOn with
  | number x => rfl
  | symbol s => rfl
  | negation e ih =>
    rw [flatten_negation, value?_negation, ih, value?_negation]
  | node op es hn ih =>
    have hv : es.filterMap (fun e => e.flatten.value? name value) =
        es.filterMap (value? name value) := List.filterMap_congr ih
    cases ho : op.isOrdered with
    | true =>
      rw [flatten_of_isOrdered ho, value?_node name value ((isNegation_node_map op _ es).trans hn),
        value?_node name value hn, List.filterMap_map, ← hv]
      rfl
    | false =>
      -- Every operand stands for a chain, and the folds of these chains are folded.
      have := h op ho
      calc (node op es).flatten.value? name value
        _ = op.fold ((es.flatMap fun e => spliced op e.flatten).filterMap (value? name value)) := by
          rw [flatten_node, value?_node name value (isNegation_of_unordered ho _)]
        _ = op.fold (es.map fun e =>
              (spliced op e.flatten).filterMap (value? name value)).flatten := by
          rw [List.filterMap_flatMap, List.flatMap_def]
        _ = op.fold (es.filterMap fun e => e.flatten.value? name value) := by
          rw [Operator.fold_flatten, List.filterMap_map]
          simp only [Function.comp_def, fold_spliced name value ho]
        _ = (node op es).value? name value := by rw [hv, value?_node name value hn]

/-- Flattening does not change what evaluation gives if `+` and `*` are associative; and without any
condition on the operators, an expression is resolved exactly if the flat one is. -/
theorem evaluate_flatten (e : Expr α) :
    ((∀ a b c : α, a + b + c = a + (b + c)) → (∀ a b c : α, a * b * c = a * (b * c)) →
      (∀ x, e.flatten.evaluate name value = .number x ↔ e.evaluate name value = .number x)) ∧
    ((∃ d, e.flatten.evaluate name value = .unresolved d) ↔
      ∃ d, e.evaluate name value = .unresolved d) := by
  constructor
  · intro hadd hmul x
    have h (op : Operator) (ho : op.isOrdered = false) : Std.Associative (op.apply (α := α)) := by
      cases op with
      | add => exact ⟨hadd⟩
      | mul => exact ⟨hmul⟩
      | _ => cases ho
    rw [evaluate_eq_number_iff, evaluate_eq_number_iff, value?_flatten name value h]
  · rw [exists_evaluate_eq_unresolved_iff, exists_evaluate_eq_unresolved_iff, value?_eq_none_iff,
      value?_eq_none_iff, isLive_flatten]

end Value

end Expr

/-- Whole numbers: both operators that are regrouped are associative. -/
instance : Arithmetic Int where
  pow a b := Int.pow a b.toNat

namespace Expr

theorem evaluate_flatten_int :
    (∀ a b c : Int, a + b + c = a + (b + c)) ∧ (∀ a b c : Int, a * b * c = a * (b * c)) ∧
      (binary .add (binary .add (.symbol ⟨"x"⟩) (.symbol ⟨"y"⟩))
        (binary .add (.symbol ⟨"z"⟩) (.number 2)) : Expr Int).flatten.evaluate "x" 3 =
          .number 5 :=
  ⟨Int.add_assoc, Int.mul_assoc,
    ((evaluate_flatten "x" 3 _).1 Int.add_assoc Int.mul_assoc 5).2 rfl⟩

end Expr

end InfixAlgebra
