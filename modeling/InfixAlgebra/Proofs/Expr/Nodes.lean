import InfixAlgebra.Expr.Construction
import InfixAlgebra.Expr.Flatten
import Mathlib.Algebra.Ring.Nat
import Mathlib.Data.List.Basic
import Mathlib.Tactic.SplitIfs

/-!
# The nodes of an expression

An expression is described by its terminals and by its nodes: how many operands they have
(`HasArity`), whether a node of `+` or `*` has an operand of its own operator (`IsFlat`), and how
often an operator occurs when it is written between operands (`occurrences`).

Flattening keeps the terminals (`terminals_flatten`) and the occurrences (`occurrences_flatten`),
it adds no levels (`depth_flatten_le`), and it makes the expression flat (`isFlat_flatten`).
-/

namespace InfixAlgebra

/-- How often an operator is written for a node with `n` operands: once for an ordered operator, and
between the operands for an unordered one. -/
def Operator.signs (op : Operator) (n : Nat) : Nat :=
  if op.isOrdered then 1 else n - 1

/-- The numbers of operands that nodes are built with: two or more, and one for a minus. -/
def Operator.Admits (op : Operator) (n : Nat) : Prop := 2 ≤ n ∨ n = 1 ∧ op = .sub

instance (op : Operator) (n : Nat) : Decidable (op.Admits n) :=
  inferInstanceAs (Decidable (_ ∨ _))

theorem Operator.Admits.pos {op : Operator} {n : Nat} (h : op.Admits n) : 0 < n := by
  rcases h with h | ⟨h, -⟩ <;> omega

theorem Operator.Admits.eq_sub {op : Operator} (h : op.Admits 1) : op = .sub := by
  rcases h with h | ⟨-, h⟩
  · exact absurd h (by decide)
  · exact h

theorem Operator.Admits.mono {op : Operator} {n m : Nat} (h : op.Admits n) (hm : n ≤ m) :
    op.Admits m := by
  rcases h with h | ⟨h, ho⟩
  · left
    omega
  · by_cases h1 : m = 1
    · exact Or.inr ⟨h1, ho⟩
    · left
      omega

/-- The numbers of operands that nodes are read with: one or two for a minus, and two for a division
or a power. -/
def Operator.Reads (op : Operator) (n : Nat) : Prop :=
  (op = .sub → n = 1 ∨ n = 2) ∧ (op = .div ∨ op = .pow → n = 2)

instance (op : Operator) (n : Nat) : Decidable (op.Reads n) :=
  inferInstanceAs (Decidable (_ ∧ _))

theorem Operator.Reads.of_isOrdered {op : Operator} (ho : op.isOrdered = false) (n : Nat) :
    op.Reads n := by
  cases op with
  | add => exact ⟨nofun, fun h => h.elim nofun nofun⟩
  | mul => exact ⟨nofun, fun h => h.elim nofun nofun⟩
  | _ => cases ho

theorem Operator.Reads.le_two {op : Operator} {n : Nat} (h : op.Reads n)
    (ho : op.isOrdered = true) : n ≤ 2 := by
  cases op with
  | add => cases ho
  | sub => rcases h.1 rfl with h | h <;> omega
  | mul => cases ho
  | div => exact Nat.le_of_eq (h.2 (Or.inl rfl))
  | pow => exact Nat.le_of_eq (h.2 (Or.inr rfl))

namespace Expr

variable {α : Type u}

mutual

/-- The nodes of an expression, each with its operands and before the nodes within them. -/
def nodes : Expr α → List (Operator × List (Expr α))
  | .number _ => []
  | .symbol _ => []
  | .node op es => (op, es) :: nodesAll es

/-- The nodes of some operands. -/
def nodesAll : List (Expr α) → List (Operator × List (Expr α))
  | [] => []
  | e :: es => e.nodes ++ nodesAll es

end

theorem nodesAll_eq_flatMap (es : List (Expr α)) : nodesAll es = es.flatMap nodes := by
  induction es with
  | nil => rfl
  | cons e es ih => simp [nodesAll, ih]

theorem nodes_node (op : Operator) (es : List (Expr α)) :
    (node op es).nodes = (op, es) :: es.flatMap nodes := by
  rw [nodes, nodesAll_eq_flatMap]

/-- A fact of all nodes is one of the root and of the nodes within the operands. -/
theorem forall_mem_nodes_node {p : Operator → List (Expr α) → Prop} {op : Operator}
    {es : List (Expr α)} :
    (∀ op' es', (op', es') ∈ (node op es).nodes → p op' es') ↔
      p op es ∧ ∀ e ∈ es, ∀ op' es', (op', es') ∈ e.nodes → p op' es' := by
  simp only [nodes_node, List.mem_cons, List.mem_flatMap, Prod.mk.injEq]
  constructor
  · intro h
    exact ⟨h op es (Or.inl ⟨rfl, rfl⟩), fun e he op' es' hn => h op' es' (Or.inr ⟨e, he, hn⟩)⟩
  · rintro ⟨h, hes⟩ op' es' (⟨rfl, rfl⟩ | ⟨e, he, hn⟩)
    · exact h
    · exact hes e he op' es' hn

/-! ## Terminals -/

theorem terminals_of_isTerminal {e : Expr α} (h : e.isTerminal = true) : e.terminals = [e] := by
  cases e with
  | number x => rfl
  | symbol s => rfl
  | node op es => cases h

theorem mem_terminals_node {op : Operator} {e t : Expr α} {es : List (Expr α)} (he : e ∈ es)
    (ht : t ∈ e.terminals) : t ∈ (node op es).terminals := by
  rw [terminals_node]
  exact List.mem_flatMap.2 ⟨e, he, ht⟩

theorem terminals_negation (e : Expr α) : (negation e).terminals = e.terminals := by
  rw [negation, terminals_node, List.flatMap_singleton]

theorem terminals_binary (op : Operator) (l r : Expr α) :
    (binary op l r).terminals = l.terminals ++ r.terminals := by
  rw [binary, terminals_node, List.flatMap_cons, List.flatMap_singleton]

/-! ## Shapes -/

/-- All nodes have numbers of operands that are right for their operators. -/
def HasArity (p : Operator → Nat → Prop) (e : Expr α) : Prop :=
  ∀ op es, (op, es) ∈ e.nodes → p op es.length

/-- No node of an unordered operator has an operand of the same operator. -/
def IsFlat (e : Expr α) : Prop :=
  ∀ op es, (op, es) ∈ e.nodes → op.isOrdered = false → ∀ d ∈ es, d.operator? ≠ some op

variable {p : Operator → Nat → Prop} {op : Operator} {e : Expr α} {es : List (Expr α)}

theorem hasArity_node : HasArity p (node op es) ↔ p op es.length ∧ ∀ e ∈ es, HasArity p e :=
  forall_mem_nodes_node

theorem isFlat_node : IsFlat (node op es) ↔
    (op.isOrdered = false → ∀ d ∈ es, d.operator? ≠ some op) ∧ ∀ e ∈ es, IsFlat e :=
  forall_mem_nodes_node

theorem hasArity_of_isTerminal (h : e.isTerminal = true) : HasArity p e := by
  cases e with
  | number x => exact fun _ _ h => nomatch h
  | symbol s => exact fun _ _ h => nomatch h
  | node op es => cases h

theorem hasArity_negation : HasArity p (negation e) ↔ p .sub 1 ∧ HasArity p e := by
  rw [negation, hasArity_node, List.forall_mem_singleton]
  rfl

theorem hasArity_binary {l r : Expr α} :
    HasArity p (binary op l r) ↔ p op 2 ∧ HasArity p l ∧ HasArity p r := by
  rw [binary, hasArity_node, List.forall_mem_cons, List.forall_mem_singleton]
  rfl

theorem isFlat_of_isTerminal (h : e.isTerminal = true) : IsFlat e := by
  cases e with
  | number x => exact fun _ _ h => nomatch h
  | symbol s => exact fun _ _ h => nomatch h
  | node op es => cases h

theorem HasArity.mono {q : Operator → Nat → Prop} (h : HasArity p e)
    (hpq : ∀ op n, p op n → q op n) : HasArity q e :=
  fun op es hn => hpq op _ (h op es hn)

/-! ## Levels -/

theorem depth_of_isTerminal (h : e.isTerminal = true) : e.depth = 1 := by
  cases e with
  | number x => rfl
  | symbol s => rfl
  | node op es => cases h

theorem depth_negation (e : Expr α) : (negation e).depth = e.depth + 1 := by
  simp [negation, depth, depthAll]

theorem depth_binary (op : Operator) (l r : Expr α) :
    (binary op l r).depth = max l.depth r.depth + 1 := by
  simp [binary, depth, depthAll]

theorem depthAll_le_iff {n : Nat} : depthAll es ≤ n ↔ ∀ e ∈ es, e.depth ≤ n := by
  induction es with
  | nil => simp [depthAll]
  | cons e es ih => rw [depthAll, Nat.max_le, ih, List.forall_mem_cons]

theorem depth_le_depthAll (h : e ∈ es) : e.depth ≤ depthAll es :=
  depthAll_le_iff.1 (Nat.le_refl _) e h

/-! ## Occurrences -/

/-- How often an operator occurs in an expression. -/
def occurrences (op : Operator) (e : Expr α) : Nat :=
  (e.nodes.map fun n => if n.1 = op then op.signs n.2.length else 0).sum

theorem occurrences_node (op op' : Operator) (es : List (Expr α)) :
    occurrences op (node op' es) =
      (if op' = op then op.signs es.length else 0) + (es.map (occurrences op)).sum := by
  rw [occurrences, nodes_node, List.map_cons, List.sum_cons, List.map_flatMap, List.flatMap_def,
    List.sum_flatten, List.map_map]
  rfl

/-- An ordered operator occurs once for each of its nodes. -/
theorem occurrences_of_isOrdered {op : Operator} (h : op.isOrdered = true) (e : Expr α) :
    occurrences op e = e.nodes.countP (·.1 = op) := by
  rw [occurrences]
  induction e.nodes with
  | nil => rfl
  | cons n ns ih =>
    rw [List.map_cons, List.sum_cons, ih, List.countP_cons, Nat.add_comm, Operator.signs, if_pos h]
    simp only [decide_eq_true_eq]

/-- An unordered operator occurs once less for each of its nodes than the node has operands. -/
theorem occurrences_of_unordered {op : Operator} (h : op.isOrdered = false) (e : Expr α) :
    occurrences op e = ((e.nodes.filter (·.1 = op)).map fun n => n.2.length - 1).sum := by
  rw [occurrences]
  induction e.nodes with
  | nil => rfl
  | cons n ns ih =>
    rw [List.map_cons, List.sum_cons, ih, List.filter_cons, Operator.signs, h,
      if_neg Bool.false_ne_true]
    simp only [decide_eq_true_eq]
    split_ifs <;> simp

theorem occurrences_of_isTerminal (op : Operator) {e : Expr α} (h : e.isTerminal = true) :
    occurrences op e = 0 := by
  cases e with
  | number x => rfl
  | symbol s => rfl
  | node op es => cases h

theorem occurrences_negation (op : Operator) (e : Expr α) :
    occurrences op (negation e) = (if op = .sub then 1 else 0) + occurrences op e := by
  rw [negation, occurrences_node, List.map_singleton, List.sum_singleton]
  cases op <;> rfl

theorem occurrences_binary (op op' : Operator) (l r : Expr α) :
    occurrences op (binary op' l r) =
      (if op' = op then 1 else 0) + (occurrences op l + occurrences op r) := by
  rw [binary, occurrences_node, List.map_cons, List.map_singleton, List.sum_cons,
    List.sum_singleton]
  cases op <;> rfl

/-! ## Flattening -/

theorem spliced_of_operator?_ne {op : Operator} {e : Expr α} (h : e.operator? ≠ some op) :
    spliced op e = [e] := by
  cases e with
  | number x => rfl
  | symbol s => rfl
  | node op' es => exact if_neg fun ho => h (congrArg some ho.2)

theorem spliced_of_isOrdered {op : Operator} (h : op.isOrdered = true) (e : Expr α) :
    spliced op e = [e] := by
  cases e with
  | number x => rfl
  | symbol s => rfl
  | node op' es => exact if_neg fun ho => Bool.eq_false_iff.1 ho.1 h

theorem spliced_node {op : Operator} (h : op.isOrdered = false) (es : List (Expr α)) :
    spliced op (node op es) = es :=
  if_pos ⟨h, rfl⟩

/-- An operand is replaced by its own operands, or else stays. -/
theorem spliced_cases (op : Operator) (e : Expr α) :
    (op.isOrdered = false ∧ e = node op (spliced op e)) ∨
      (spliced op e = [e] ∧ (op.isOrdered = false → e.operator? ≠ some op)) := by
  by_cases ho : op.isOrdered = true
  · refine Or.inr ⟨spliced_of_isOrdered ho e, fun h => ?_⟩
    rw [ho] at h
    cases h
  · rw [Bool.not_eq_true] at ho
    by_cases he : e.operator? = some op
    · cases e with
      | number x => cases he
      | symbol s => cases he
      | node op' es =>
        obtain rfl := Option.some.inj he
        rw [spliced_node ho]
        exact Or.inl ⟨ho, rfl⟩
    · exact Or.inr ⟨spliced_of_operator?_ne he, fun _ => he⟩

theorem flatMap_terminals_spliced (op : Operator) (e : Expr α) :
    (spliced op e).flatMap terminals = e.terminals := by
  rcases spliced_cases op e with ⟨-, he⟩ | ⟨hs, -⟩
  · rw [← terminals_node op, ← he]
  · rw [hs, List.flatMap_singleton]

/-- Flattening keeps the terminals. -/
theorem terminals_flatten (e : Expr α) : e.flatten.terminals = e.terminals := by
  induction e with
  | number x => rfl
  | symbol s => rfl
  | node op es ih =>
    rw [flatten_node, terminals_node, terminals_node, List.flatMap_assoc]
    refine List.flatMap_congr fun e he => ?_
    rw [flatMap_terminals_spliced, ih e he]

theorem hasArity_of_mem_spliced {op : Operator} {d : Expr α} (h : HasArity p e)
    (hd : d ∈ spliced op e) : HasArity p d := by
  rcases spliced_cases op e with ⟨-, he⟩ | ⟨hs, -⟩
  · rw [he, hasArity_node] at h
    exact h.2 d hd
  · rw [hs, List.mem_singleton] at hd
    rw [hd]
    exact h

theorem isFlat_of_mem_spliced {op : Operator} {d : Expr α} (h : IsFlat e)
    (hd : d ∈ spliced op e) : IsFlat d ∧ (op.isOrdered = false → d.operator? ≠ some op) := by
  rcases spliced_cases op e with ⟨-, he⟩ | ⟨hs, ho⟩
  · rw [he, isFlat_node] at h
    exact ⟨h.2 d hd, fun ho => h.1 ho d hd⟩
  · rw [hs, List.mem_singleton] at hd
    rw [hd]
    exact ⟨h, ho⟩

/-- Flattening makes an expression flat. -/
theorem isFlat_flatten (e : Expr α) : e.flatten.IsFlat := by
  induction e with
  | number x => exact isFlat_of_isTerminal rfl
  | symbol s => exact isFlat_of_isTerminal rfl
  | node op es ih =>
    rw [flatten_node, isFlat_node]
    constructor
    · intro ho d hd
      obtain ⟨e, he, hd⟩ := List.mem_flatMap.1 hd
      exact (isFlat_of_mem_spliced (ih e he) hd).2 ho
    · intro d hd
      obtain ⟨e, he, hd⟩ := List.mem_flatMap.1 hd
      exact (isFlat_of_mem_spliced (ih e he) hd).1

/-- Flattening leaves a flat expression as it is. -/
theorem flatten_of_isFlat (h : IsFlat e) : e.flatten = e := by
  induction e with
  | number x => rfl
  | symbol s => rfl
  | node op es ih =>
    rw [isFlat_node] at h
    have hs : ∀ d ∈ es, spliced op d.flatten = [d] := by
      intro d hd
      rw [ih d hd (h.2 d hd)]
      rcases spliced_cases op d with ⟨ho, he⟩ | ⟨hs, -⟩
      · exact absurd (congrArg operator? he) (h.1 ho d hd)
      · exact hs
    rw [flatten_node, List.flatMap_congr hs, List.flatMap_singleton']

/-- Flattening does not see whether the operands of a node were flattened before. -/
theorem flatten_node_map_flatten (op : Operator) (es : List (Expr α)) :
    (node op (es.map flatten)).flatten = (node op es).flatten := by
  simp only [flatten_node, List.flatMap_map, flatten_of_isFlat (isFlat_flatten _)]

theorem flatten_negation (e : Expr α) : (negation e).flatten = negation e.flatten := by
  rw [negation, flatten_node, List.flatMap_singleton, spliced_of_isOrdered rfl]
  rfl

theorem depth_le_of_mem_spliced {op : Operator} {d : Expr α} (hd : d ∈ spliced op e) :
    d.depth ≤ e.depth := by
  rcases spliced_cases op e with ⟨-, he⟩ | ⟨hs, -⟩
  · rw [he, depth]
    exact Nat.le_succ_of_le (depth_le_depthAll hd)
  · rw [hs, List.mem_singleton] at hd
    rw [hd]

/-- Flattening adds no levels. -/
theorem depth_flatten_le (e : Expr α) : e.flatten.depth ≤ e.depth := by
  induction e with
  | number x => exact Nat.le_refl _
  | symbol s => exact Nat.le_refl _
  | node op es ih =>
    rw [flatten_node, depth, depth, Nat.add_le_add_iff_right, depthAll_le_iff]
    intro d hd
    obtain ⟨e, he, hd⟩ := List.mem_flatMap.1 hd
    calc d.depth ≤ e.flatten.depth := depth_le_of_mem_spliced hd
      _ ≤ e.depth := ih e he
      _ ≤ depthAll es := depth_le_depthAll he

theorem length_spliced_pos {op : Operator} (h : HasArity (fun _ n => 0 < n) e) :
    0 < (spliced op e).length := by
  rcases spliced_cases op e with ⟨-, he⟩ | ⟨hs, -⟩
  · rw [he, hasArity_node] at h
    exact h.1
  · rw [hs]
    exact Nat.one_pos

theorem length_flatMap_spliced_of_isOrdered {op : Operator} (ho : op.isOrdered = true)
    (es : List (Expr α)) : (es.flatMap fun e => spliced op e.flatten).length = es.length := by
  induction es with
  | nil => rfl
  | cons e es ih =>
    rw [List.flatMap_cons, spliced_of_isOrdered ho, List.length_append, ih, List.length_cons,
      Nat.add_comm]
    rfl

theorem length_le_length_flatMap_spliced (op : Operator)
    (h : ∀ e ∈ es, HasArity (fun _ n => 0 < n) e.flatten) :
    es.length ≤ (es.flatMap fun e => spliced op e.flatten).length := by
  induction es with
  | nil => exact Nat.le_refl 0
  | cons e es ih =>
    rw [List.forall_mem_cons] at h
    have hp : 0 < (spliced op e.flatten).length := length_spliced_pos h.1
    have hr := ih h.2
    rw [List.flatMap_cons, List.length_append, List.length_cons]
    omega

/-- Flattening keeps numbers of operands right if they may grow for unordered operators. -/
theorem hasArity_flatten (hpos : ∀ op n, p op n → 0 < n)
    (hgrow : ∀ op n m, op.isOrdered = false → p op n → n ≤ m → p op m) (h : HasArity p e) :
    HasArity p e.flatten := by
  induction e with
  | number x => exact h
  | symbol s => exact h
  | node op es ih =>
    rw [hasArity_node] at h
    have hf : ∀ e ∈ es, HasArity p e.flatten := fun e he => ih e he (h.2 e he)
    rw [flatten_node, hasArity_node]
    constructor
    · cases ho : op.isOrdered with
      | true =>
        rw [length_flatMap_spliced_of_isOrdered ho]
        exact h.1
      | false =>
        refine hgrow op _ _ ho h.1 (length_le_length_flatMap_spliced op fun e he => ?_)
        exact (hf e he).mono hpos
    · intro d hd
      obtain ⟨e, he, hd⟩ := List.mem_flatMap.1 hd
      exact hasArity_of_mem_spliced (hf e he) hd

theorem sum_occurrences_spliced_of_ne {op op' : Operator} (h : op' ≠ op ∨ op'.isOrdered = true)
    (e : Expr α) : ((spliced op' e).map (occurrences op)).sum = occurrences op e := by
  rcases spliced_cases op' e with ⟨ho, he⟩ | ⟨hs, -⟩
  · have hne : op' ≠ op := h.resolve_right fun ho' => Bool.eq_false_iff.1 ho ho'
    conv_rhs => rw [he, occurrences_node, if_neg hne, Nat.zero_add]
  · rw [hs, List.map_singleton, List.sum_singleton]

theorem sum_occurrences_spliced {op : Operator} (ho : op.isOrdered = false)
    (h : HasArity (fun _ n => 0 < n) e) :
    ((spliced op e).map (occurrences op)).sum + (spliced op e).length = occurrences op e + 1 := by
  have hp : 0 < (spliced op e).length := length_spliced_pos h
  rcases spliced_cases op e with ⟨-, he⟩ | ⟨hs, -⟩
  · conv_rhs => rw [he, occurrences_node, if_pos rfl, Operator.signs, ho, if_neg Bool.false_ne_true]
    omega
  · rw [hs, List.map_singleton, List.sum_singleton, List.length_singleton]

theorem sum_occurrences_flatMap_of_ne {op op' : Operator} (h : op' ≠ op ∨ op'.isOrdered = true)
    (es : List (Expr α)) :
    ((es.flatMap fun e => spliced op' e.flatten).map (occurrences op)).sum =
      (es.map fun e => occurrences op e.flatten).sum := by
  induction es with
  | nil => rfl
  | cons e es ih =>
    rw [List.flatMap_cons, List.map_append, List.sum_append, ih,
      sum_occurrences_spliced_of_ne h, List.map_cons, List.sum_cons]

theorem sum_occurrences_flatMap {op : Operator} (ho : op.isOrdered = false)
    (h : ∀ e ∈ es, HasArity (fun _ n => 0 < n) e.flatten) :
    ((es.flatMap fun e => spliced op e.flatten).map (occurrences op)).sum +
        (es.flatMap fun e => spliced op e.flatten).length =
      (es.map fun e => occurrences op e.flatten).sum + es.length := by
  induction es with
  | nil => rfl
  | cons e es ih =>
    rw [List.forall_mem_cons] at h
    have hs := sum_occurrences_spliced ho h.1
    have hr := ih h.2
    rw [List.flatMap_cons, List.map_append, List.sum_append, List.length_append, List.map_cons,
      List.sum_cons, List.length_cons]
    omega

/-- Flattening keeps the occurrences of operators. -/
theorem occurrences_flatten (op : Operator) (h : HasArity (fun _ n => 0 < n) e) :
    occurrences op e.flatten = occurrences op e := by
  induction e with
  | number x => rfl
  | symbol s => rfl
  | node op' es ih =>
    rw [hasArity_node] at h
    have hf : ∀ e ∈ es, HasArity (fun _ n => 0 < n) e.flatten := fun e he =>
      hasArity_flatten (fun _ _ hn => hn) (fun _ _ _ _ => Nat.lt_of_lt_of_le) (h.2 e he)
    have hi : (es.map fun e => occurrences op e.flatten) = es.map (occurrences op) :=
      List.map_congr_left fun e he => ih e he (h.2 e he)
    rw [flatten_node, occurrences_node, occurrences_node]
    by_cases hop : op' = op ∧ op'.isOrdered = false
    · obtain ⟨rfl, ho⟩ := hop
      have hs := sum_occurrences_flatMap ho hf
      have hl := length_le_length_flatMap_spliced op' hf
      have hpos := h.1
      rw [hi] at hs
      simp only [if_true, Operator.signs, ho, Bool.false_eq_true, if_false]
      omega
    · have hne : op' ≠ op ∨ op'.isOrdered = true := by
        rw [not_and_or, Bool.not_eq_false] at hop
        exact hop
      rw [sum_occurrences_flatMap_of_ne hne, hi]
      rcases hne with hne | ho
      · rw [if_neg hne, if_neg hne]
      · rw [length_flatMap_spliced_of_isOrdered ho]

end Expr

end InfixAlgebra
