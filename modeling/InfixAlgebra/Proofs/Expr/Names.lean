import InfixAlgebra.Proofs.Expr.Nodes
import Mathlib.Data.String.Basic

/-!
# The names in an expression

The names that are listed for an expression are those of its symbols (`mem_variableNames_iff`), each
once and in increasing order (`pairwise_lt_variableNames`).
-/

namespace InfixAlgebra

section Repetitions

variable {β : Type u} [BEq β] [LawfulBEq β] {x : β}

/-- While repetitions are erased, `a` is the last element that was kept, and `done` are the ones
kept before it. -/
theorem mem_eraseRepsBy_loop (a : β) (l done : List β) :
    x ∈ List.eraseRepsBy.loop (· == ·) a l done ↔ x ∈ a :: l ∨ x ∈ done := by
  induction l generalizing a done with
  | nil => simp [List.eraseRepsBy.loop, or_comm]
  | cons b l ih =>
    rw [List.eraseRepsBy.loop]
    cases h : a == b with
    | true =>
      obtain rfl := eq_of_beq h
      simp [ih]
    | false => simp [ih, or_assoc, or_left_comm]

/-- Erasing repetitions keeps one of each. -/
theorem mem_eraseReps_iff {l : List β} : x ∈ l.eraseReps ↔ x ∈ l := by
  cases l with
  | nil => rfl
  | cons a l =>
    rw [List.eraseReps, List.eraseRepsBy, mem_eraseRepsBy_loop]
    exact or_iff_left List.not_mem_nil

end Repetitions

section Sorted

variable {β : Type u} [LinearOrder β] [BEq β] [LawfulBEq β]

/-- While repetitions are erased from a sorted list, `a` is greater than the elements in `done`, and
these decrease. -/
theorem pairwise_lt_eraseRepsBy_loop {a : β} {l done : List β} (h : (a :: l).Pairwise (· ≤ ·))
    (hd : (a :: done).Pairwise (· > ·)) :
    (List.eraseRepsBy.loop (· == ·) a l done).Pairwise (· < ·) := by
  induction l generalizing a done with
  | nil =>
    rw [List.eraseRepsBy.loop]
    exact List.pairwise_reverse.2 hd
  | cons b l ih =>
    rw [List.pairwise_cons] at h
    rw [List.eraseRepsBy.loop]
    cases hab : a == b with
    | true =>
      obtain rfl := eq_of_beq hab
      exact ih h.2 hd
    | false =>
      have hlt : a < b := lt_of_le_of_ne (h.1 b List.mem_cons_self) (ne_of_beq_false hab)
      refine ih h.2 (List.pairwise_cons.2 ⟨List.forall_mem_cons.2 ⟨hlt, fun c hc => ?_⟩, hd⟩)
      exact lt_trans (List.rel_of_pairwise_cons hd hc) hlt

/-- Without its repetitions a sorted list is strictly increasing. -/
theorem pairwise_lt_eraseReps {l : List β} (h : l.Pairwise (· ≤ ·)) :
    l.eraseReps.Pairwise (· < ·) := by
  cases l with
  | nil => exact .nil
  | cons a l => exact pairwise_lt_eraseRepsBy_loop h (List.pairwise_singleton _ a)

end Sorted

namespace Symbol

variable {name : String} {names : List String}

theorem mem_sortNames_iff : name ∈ sortNames names ↔ name ∈ names := by
  rw [sortNames, mem_eraseReps_iff, List.mem_mergeSort]

theorem pairwise_lt_sortNames (names : List String) : (sortNames names).Pairwise (· < ·) := by
  refine pairwise_lt_eraseReps ((List.pairwise_mergeSort ?_ ?_ names).imp of_decide_eq_true)
  · intro a b c hab hbc
    exact decide_eq_true (le_trans (of_decide_eq_true hab) (of_decide_eq_true hbc))
  · intro a b
    simpa using le_total a b

end Symbol

namespace Expr

variable {α : Type u}

theorem symbol?_eq_some_iff {e : Expr α} {s : Symbol} : e.symbol? = some s ↔ e = .symbol s := by
  cases e <;> simp [symbol?]

/-- A name is listed exactly if there is a symbol of that name. -/
theorem mem_variableNames_iff {e : Expr α} {name : String} :
    name ∈ e.variableNames ↔ .symbol ⟨name⟩ ∈ e.terminals := by
  rw [variableNames, Symbol.mem_sortNames_iff, List.mem_filterMap]
  constructor
  · rintro ⟨t, ht, hn⟩
    obtain ⟨s, hs, rfl⟩ := Option.map_eq_some_iff.1 hn
    exact symbol?_eq_some_iff.1 hs ▸ ht
  · intro h
    exact ⟨_, h, rfl⟩

theorem pairwise_lt_variableNames (e : Expr α) : e.variableNames.Pairwise (· < ·) :=
  Symbol.pairwise_lt_sortNames _

theorem variableNames_flatten (e : Expr α) : e.flatten.variableNames = e.variableNames := by
  rw [variableNames, variableNames, terminals_flatten]

end Expr

end InfixAlgebra
