import InfixAlgebra.Proofs.Expr.Nodes
import Mathlib.Data.List.Forall2

/-!
# Equal expressions

Equal expressions have the same nodes up to the equality of operands (`forall₂_nodes`), and equal
terminals (`forall₂_terminals`).  So they agree in everything that is said of nodes by their
operators and their numbers of operands.
-/

namespace InfixAlgebra.Expr

variable {α : Type u} [BEq α]

/-- Operands that are equal one by one. -/
abbrev SameAll (es es' : List (Expr α)) : Prop := List.Forall₂ (fun e e' => (e == e') = true) es es'

theorem beqAll_iff {es es' : List (Expr α)} : beqAll es es' = true ↔ SameAll es es' := by
  induction es generalizing es' with
  | nil =>
    cases es' with
    | nil => exact ⟨fun _ => .nil, fun _ => rfl⟩
    | cons e' es' => exact ⟨(fun h => nomatch h), (fun h => nomatch h)⟩
  | cons e es ih =>
    cases es' with
    | nil => exact ⟨(fun h => nomatch h), (fun h => nomatch h)⟩
    | cons e' es' =>
      rw [beqAll, Bool.and_eq_true, ih]
      exact (List.forall₂_cons (R := fun e e' : Expr α => (e == e') = true)).symm

theorem node_beq_node {op op' : Operator} {es es' : List (Expr α)} :
    (node op es == node op' es') = true ↔ op = op' ∧ SameAll es es' := by
  rw [← beqAll_iff, ← beq_iff_eq (a := op), ← Bool.and_eq_true]
  exact Iff.rfl

/-- Operands that are equal one by one are the same if equal operands are the same. -/
theorem SameAll.eq {es es' : List (Expr α)} (h : SameAll es es')
    (he : ∀ e ∈ es, ∀ e' ∈ es', (e == e') = true → e = e') : es = es' := by
  induction h with
  | nil => rfl
  | @cons e e' es es' hb _ ih =>
    have hes : ∀ d ∈ es, ∀ d' ∈ es', (d == d') = true → d = d' := fun d hd d' hd' =>
      he d (List.mem_cons_of_mem _ hd) d' (List.mem_cons_of_mem _ hd')
    rw [he e List.mem_cons_self e' List.mem_cons_self hb, ih hes]

/-- To prove a fact of two equal expressions, prove it of equal terminals, and of two nodes from
their operands, one by one. -/
theorem beq_induction {motive : Expr α → Expr α → Prop}
    (number : ∀ x y, (x == y) = true → motive (.number x) (.number y))
    (symbol : ∀ s, motive (.symbol s) (.symbol s))
    (node : ∀ op es es', SameAll es es' → List.Forall₂ motive es es' →
      motive (.node op es) (.node op es'))
    {e e' : Expr α} (h : (e == e') = true) : motive e e' := by
  induction e generalizing e' with
  | number x =>
    cases e' with
    | number y => exact number x y h
    | _ => cases h
  | symbol s =>
    cases e' with
    | symbol t =>
      obtain rfl : s = t := eq_of_beq h
      exact symbol s
    | _ => cases h
  | node op es ih =>
    cases e' with
    | node op' es' =>
      obtain ⟨rfl, hs⟩ := node_beq_node.1 h
      refine node op es es' hs ?_
      clear h
      induction hs with
      | nil => exact .nil
      | cons he _ ihs =>
        rw [List.forall_mem_cons] at ih
        exact .cons (ih.1 he) (ihs ih.2)
    | _ => cases h

theorem operator?_eq_of_beq {e e' : Expr α} (h : (e == e') = true) :
    e.operator? = e'.operator? := by
  refine beq_induction (motive := fun e e' => e.operator? = e'.operator?) ?_ ?_ ?_ h
  · exact fun _ _ _ => rfl
  · exact fun _ => rfl
  · exact fun _ _ _ _ _ => rfl

theorem exists_of_mem_right {β : Type v} {γ : Type w} {r : β → γ → Prop} {bs : List β}
    {cs : List γ} (h : List.Forall₂ r bs cs) {c : γ} (hc : c ∈ cs) : ∃ b ∈ bs, r b c := by
  induction h with
  | nil => cases hc
  | cons hbc _ ih =>
    rcases List.mem_cons.1 hc with rfl | hc
    · exact ⟨_, List.mem_cons_self, hbc⟩
    · obtain ⟨b, hb, hr⟩ := ih hc
      exact ⟨b, List.mem_cons_of_mem _ hb, hr⟩

/-- Equal expressions have equal terminals. -/
theorem forall₂_terminals {e e' : Expr α} (h : (e == e') = true) :
    SameAll e.terminals e'.terminals := by
  refine beq_induction (motive := fun e e' => SameAll e.terminals e'.terminals) ?_ ?_ ?_ h
  · exact fun x y h => .cons h .nil
  · exact fun s => .cons (beq_self_eq_true s) .nil
  · intro op es es' _ ih
    rw [terminals_node, terminals_node]
    exact List.rel_flatMap ih fun _ _ h => h

/-- Equal expressions have the same nodes, with equal operands. -/
theorem forall₂_nodes {e e' : Expr α} (h : (e == e') = true) :
    List.Forall₂ (fun n n' => n.1 = n'.1 ∧ SameAll n.2 n'.2) e.nodes e'.nodes := by
  refine beq_induction (motive := fun e e' => List.Forall₂ _ e.nodes e'.nodes) ?_ ?_ ?_ h
  · exact fun _ _ _ => .nil
  · exact fun _ => .nil
  · intro op es es' hs ih
    rw [nodes_node, nodes_node]
    exact .cons ⟨rfl, hs⟩ (List.rel_flatMap ih fun _ _ h => h)

variable {e e' : Expr α}

theorem exists_node_of_beq (h : (e == e') = true) {op : Operator} {es' : List (Expr α)}
    (hn : (op, es') ∈ e'.nodes) : ∃ es, (op, es) ∈ e.nodes ∧ SameAll es es' := by
  obtain ⟨⟨op', es⟩, hm, rfl, hs⟩ := exists_of_mem_right (forall₂_nodes h) hn
  exact ⟨es, hm, hs⟩

theorem HasArity.of_beq {p : Operator → Nat → Prop} (he : HasArity p e) (h : (e == e') = true) :
    HasArity p e' := by
  intro op es' hn
  obtain ⟨es, hn, hs⟩ := exists_node_of_beq h hn
  rw [← hs.length_eq]
  exact he op es hn

theorem IsFlat.of_beq (he : IsFlat e) (h : (e == e') = true) : IsFlat e' := by
  intro op es' hn ho d' hd'
  obtain ⟨es, hn, hs⟩ := exists_node_of_beq h hn
  obtain ⟨d, hd, hdd⟩ := exists_of_mem_right hs hd'
  rw [← operator?_eq_of_beq hdd]
  exact he op es hn ho d hd

theorem occurrences_eq_of_beq (op : Operator) (h : (e == e') = true) :
    occurrences op e = occurrences op e' := by
  rw [occurrences, occurrences]
  have hn := forall₂_nodes h
  generalize e.nodes = ns, e'.nodes = ns' at hn
  induction hn with
  | nil => rfl
  | cons hns _ ih =>
    rw [List.map_cons, List.map_cons, List.sum_cons, List.sum_cons, ih, hns.1, hns.2.length_eq]

/-- An expression is equal to itself if its numbers are. -/
theorem beq_self (h : ∀ x, .number x ∈ e.terminals → (x == x) = true) : (e == e) = true := by
  induction e with
  | number x => exact h x (List.mem_singleton.2 rfl)
  | symbol s => exact beq_self_eq_true s
  | node op es ih =>
    rw [terminals_node] at h
    refine node_beq_node.2 ⟨rfl, List.forall₂_same.2 fun e he => ih e he fun x hx => ?_⟩
    exact h x (List.mem_flatMap.2 ⟨e, he, hx⟩)

end InfixAlgebra.Expr
