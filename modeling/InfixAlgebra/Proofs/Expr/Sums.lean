import InfixAlgebra.Proofs.Expr.Nesting

/-!
# Wide sums

A flat sum has as many levels as operands when it is read (`readDepth_wideSum`).  The sum that it is
flattened from may have about half as many (`readDepth_splitSum`, `flatten_splitSum`).
-/

namespace InfixAlgebra.Expr

variable {α : Type u} {s : Symbol}

/-- The sum of `n` equal symbols. -/
def wideSum (s : Symbol) (n : Nat) : Expr α := .node .add (List.replicate n (.symbol s))

/-- A sum of `n + m` equal symbols, where the first `n` of them are in parentheses. -/
def splitSum (s : Symbol) (n m : Nat) : Expr α :=
  .node .add (wideSum s n :: List.replicate m (.symbol s))

theorem terminals_wideSum (n : Nat) :
    (wideSum s n : Expr α).terminals = List.replicate n (.symbol s) := by
  rw [wideSum, terminals_node, List.flatMap_replicate]
  induction n with
  | zero => rfl
  | succ n ih => rw [List.replicate_succ, List.flatten_cons, ih]; rfl

theorem hasArity_wideSum {p : Operator → Nat → Prop} {n : Nat} (h : p .add n) :
    HasArity p (wideSum s n : Expr α) := by
  refine hasArity_node.2 ⟨List.length_replicate ▸ h, fun d hd => ?_⟩
  rw [List.eq_of_mem_replicate hd]
  exact hasArity_of_isTerminal rfl

theorem hasArity_splitSum {p : Operator → Nat → Prop} {n m : Nat} (hn : p .add n)
    (hm : p .add (m + 1)) : HasArity p (splitSum s n m : Expr α) := by
  refine hasArity_node.2 ⟨?_, fun d hd => ?_⟩
  · rw [List.length_cons, List.length_replicate]
    exact hm
  · rcases List.mem_cons.1 hd with rfl | hd
    · exact hasArity_wideSum hn
    · rw [List.eq_of_mem_replicate hd]
      exact hasArity_of_isTerminal rfl

theorem isFlat_wideSum (n : Nat) : IsFlat (wideSum s n : Expr α) := by
  refine isFlat_node.2 ⟨fun _ d hd => ?_, fun d hd => ?_⟩
  · rw [List.eq_of_mem_replicate hd]
    exact nofun
  · rw [List.eq_of_mem_replicate hd]
    exact isFlat_of_isTerminal rfl

theorem flatten_splitSum (n m : Nat) : (splitSum s n m : Expr α).flatten = wideSum s (n + m) := by
  have hn : spliced .add (wideSum s n : Expr α).flatten = List.replicate n (.symbol s) := by
    rw [flatten_of_isFlat (isFlat_wideSum n)]
    exact spliced_node rfl _
  have hm : (wideSum s m : Expr α).flatten = wideSum s m := flatten_of_isFlat (isFlat_wideSum m)
  rw [wideSum, flatten_node] at hm
  rw [splitSum, flatten_node, List.flatMap_cons, hn, (node.inj hm).2,
    List.replicate_append_replicate, wideSum]

theorem terminals_splitSum (n m : Nat) :
    (splitSum s n m : Expr α).terminals = List.replicate (n + m) (.symbol s) := by
  rw [← terminals_flatten, flatten_splitSum, terminals_wideSum]

theorem chainLevels_replicate (n : Nat) : chainLevels (List.replicate (n + 1) 1) = n + 1 := by
  induction n with
  | zero => exact chainLevels_singleton 1
  | succ n ih =>
    have hn : List.replicate (n + 1) 1 ≠ [] := List.cons_ne_nil _ _
    rw [List.replicate_succ, chainLevels_cons 1 hn, ih]
    omega

theorem readDepth_wideSum (n : Nat) : (wideSum s (n + 2) : Expr α).readDepth = n + 2 := by
  rw [wideSum, readDepth_node, List.map_replicate]
  exact chainLevels_replicate (n + 1)

theorem readDepth_splitSum (n m : Nat) :
    (splitSum s (n + 2) (m + 1) : Expr α).readDepth = max (n + 2) (m + 1) + 1 := by
  have hm : List.replicate (m + 1) 1 ≠ [] := List.cons_ne_nil _ _
  have hl := chainLevels_cons (n + 2) hm
  rw [chainLevels_replicate] at hl
  rw [splitSum, readDepth_node, List.map_cons, readDepth_wideSum, List.map_replicate]
  exact hl

end InfixAlgebra.Expr
