import InfixAlgebra.Proofs.Evaluation.Value
import InfixAlgebra.Proofs.Expr.Edges

/-!
# What evaluation puts on record

A node that is no negation puts an operand without a value on record, after all that the operand has
put there itself (`evaluationRecords_node`), and a negation adds nothing
(`evaluationRecords_negation`).  So the record is made of the edges of the expression, in their
order, and an edge counts if its node is no negation and its operand is not live
(`evaluationRecords_eq_droppedRecords`).  The number for the variable has no part in that
(`evaluationRecords_of_edges`).
-/

namespace InfixAlgebra

variable {α : Type u}

/-! ## Dropped operands -/

namespace Edge

/-- The node of the edge is no negation, and there is neither a number nor the symbol in the
operand. -/
def IsDropped (name : String) (l : Edge α) : Prop :=
  l.node.isNegation = false ∧ l.operand.isLive name = false

instance (name : String) (l : Edge α) : Decidable (l.IsDropped name) :=
  inferInstanceAs (Decidable (_ ∧ _))

/-- The record that the operand of the edge is left out. -/
def record (l : Edge α) : Record α := .dropped l.operand l.operator

/-- The records of the dropped ones among some edges. -/
def droppedRecords (name : String) (ls : List (Edge α)) : List (Record α) :=
  (ls.filter fun l => l.IsDropped name).map record

variable (name : String)

theorem droppedRecords_append (ls ks : List (Edge α)) :
    droppedRecords name (ls ++ ks) = droppedRecords name ls ++ droppedRecords name ks := by
  rw [droppedRecords, List.filter_append, List.map_append]
  rfl

theorem droppedRecords_flatMap {β : Type v} (f : β → List (Edge α)) (l : List β) :
    droppedRecords name (l.flatMap f) = l.flatMap fun b => droppedRecords name (f b) := by
  rw [droppedRecords, List.filter_flatMap, List.map_flatMap]
  rfl

/-- Whether an operand is dropped does not depend on where its node stands. -/
theorem droppedRecords_map_under (i : Nat) (ls : List (Edge α)) :
    droppedRecords name (ls.map (under i)) = droppedRecords name ls := by
  rw [droppedRecords, List.filter_map, List.map_map]
  rfl

theorem droppedRecords_singleton {l : Edge α} (h : l.node.isNegation = false) :
    droppedRecords name [l] = if l.operand.isLive name then [] else [l.record] := by
  cases hl : l.operand.isLive name <;> simp [droppedRecords, IsDropped, h, hl]

theorem droppedRecords_singleton_of_isNegation {l : Edge α} (h : l.node.isNegation = true) :
    droppedRecords name [l] = [] := by
  simp [droppedRecords, IsDropped, h]

end Edge

namespace Expr

open Edge

/-! ## Records of nodes -/

variable [Arithmetic α] (name : String) (value : α)

theorem recordsWithin_resolve (e : Expr α) (op : Operator) :
    (e.resolve name value).recordsWithin e op =
      e.evaluationRecords name value ++ if e.isLive name then [] else [.dropped e op] := by
  cases hl : e.isLive name with
  | true =>
    obtain ⟨x, hx⟩ := exists_value? value hl
    have hv : (e.resolve name value).value? = some x := hx
    simp [Resolution.recordsWithin, hv, evaluationRecords]
  | false =>
    have hv : (e.resolve name value).value? = none := value?_eq_none_iff.2 hl
    simp [Resolution.recordsWithin, hv, evaluationRecords]

/-- A negation has the records of its operand. -/
theorem evaluationRecords_negation (e : Expr α) :
    (negation e).evaluationRecords name value = e.evaluationRecords name value := rfl

/-- A node that is no negation has the records of its operands one after the other, each followed by
the record of the operand if it is not live. -/
theorem evaluationRecords_node {op : Operator} {es : List (Expr α)}
    (h : (node op es).isNegation = false) :
    (node op es).evaluationRecords name value =
      es.flatMap fun e =>
        e.evaluationRecords name value ++ if e.isLive name then [] else [.dropped e op] := by
  rw [evaluationRecords, resolve_node name value h]
  exact List.flatMap_congr fun e _ => recordsWithin_resolve name value e op

/-! ## Records and edges -/

/-- The records of an expression are those of its dropped operands, in the order of the edges. -/
theorem evaluationRecords_eq_droppedRecords (e : Expr α) :
    e.evaluationRecords name value = droppedRecords name e.edges := by
  induction e using negationInductionOn with
  | number x => rfl
  | symbol s => rfl
  | negation e ih =>
    have he : (negation e).edges = e.edges.map (under 0) ++ [⟨[], .sub, [], e, []⟩] :=
      (edges_node .sub [e]).trans (List.flatMap_singleton _ _)
    rw [evaluationRecords_negation, he, droppedRecords_append, droppedRecords_map_under,
      droppedRecords_singleton_of_isNegation name rfl, List.append_nil, ih]
  | node op es hn ih =>
    calc (node op es).evaluationRecords name value
      _ = es.flatMap fun e =>
            e.evaluationRecords name value ++ if e.isLive name then [] else [.dropped e op] :=
          evaluationRecords_node name value hn
      _ = (Split.all es).flatMap fun s => s.item.evaluationRecords name value ++
            if s.item.isLive name then [] else [.dropped s.item op] := by
          conv_lhs => rw [← Split.map_item_all es, List.flatMap_map]
      _ = (Split.all es).flatMap fun s =>
            droppedRecords name (s.item.edges.map (under s.index) ++ [⟨[], op, s⟩]) := by
          refine List.flatMap_congr fun s hs => ?_
          obtain rfl := Split.mem_all_iff.1 hs
          have hr : droppedRecords name [⟨[], op, s⟩] =
              if s.item.isLive name then [] else [.dropped s.item op] :=
            droppedRecords_singleton name hn
          rw [droppedRecords_append, droppedRecords_map_under, hr, ih s.item s.mem_list]
      _ = droppedRecords name (node op es).edges := by
          rw [edges_node, droppedRecords_flatMap]

/-- An operand that is not live is on record once for each of its places under nodes other than
negations, in post-order and whatever the number is. -/
theorem evaluationRecords_of_edges [Numeric α] (e : Expr α) (name : String) :
    (∃ ls : List (Edge α),
      ls.Nodup ∧ (∀ l, l ∈ ls ↔ l.IsIn e ∧ l.IsDropped name) ∧
      (ls.Pairwise fun l k => l.place.Precedes k.place) ∧
      ∀ value : α,
        e.evaluationRecords name value = ls.map Edge.record ∧
        (e.evaluationRecords name value).map Record.line = ls.map fun l =>
          s!"TRACE dropping unresolved operand {l.operand.text} of {l.operator.text}") ∧
    (∀ a b : α, e.evaluationRecords name a = e.evaluationRecords name b) ∧
    ∀ value : α, e.evaluationRecords name value = [] ↔
      ¬ ∃ l : Edge α, l.IsIn e ∧ l.IsDropped name := by
  have hm (l : Edge α) : l ∈ (e.edges.filter fun l => l.IsDropped name) ↔
      l.IsIn e ∧ l.IsDropped name := by
    rw [List.mem_filter, mem_edges_iff, decide_eq_true_iff]
  have hr (value : α) := evaluationRecords_eq_droppedRecords name value e
  refine ⟨⟨e.edges.filter fun l => l.IsDropped name, e.nodup_edges.filter _, hm,
    e.pairwise_edges.filter _, fun value => ⟨hr value, ?_⟩⟩, fun a b => ?_, fun value => ?_⟩
  · rw [hr, droppedRecords, List.map_map]
    rfl
  · rw [hr a, hr b]
  · rw [hr, droppedRecords, List.map_eq_nil_iff, List.eq_nil_iff_forall_not_mem, not_exists]
    exact forall_congr' fun l => not_congr (hm l)

/-- In `x+-(y*z)` three operands are on record for `x`: the factors, and then the negation, but not
the product that is negated. -/
theorem evaluationRecords_negated_product :
    let e : Expr Float :=
      binary .add (.symbol ⟨"x"⟩) (negation (binary .mul (.symbol ⟨"y"⟩) (.symbol ⟨"z"⟩)))
    (e.evaluationRecords "x" 7).map Record.line =
        ["TRACE dropping unresolved operand y of *", "TRACE dropping unresolved operand z of *",
          "TRACE dropping unresolved operand -(y*z) of +"] ∧
      ∃ l : Edge Float, l.IsIn e ∧ l.IsDropped "x" := by
  intro e
  have hl : (e.evaluationRecords "x" 3).map Record.line =
      ["TRACE dropping unresolved operand y of *", "TRACE dropping unresolved operand z of *",
        "TRACE dropping unresolved operand -(y*z) of +"] := by
    decide +kernel
  obtain ⟨-, hv, hn⟩ := evaluationRecords_of_edges e "x"
  constructor
  · rw [hv 7 3]
    exact hl
  · by_contra hd
    rw [(hn 3).2 hd] at hl
    cases hl

end Expr

end InfixAlgebra
