import InfixAlgebra.Proofs.Expr.Nodes

/-!
# The edges of an expression

An edge leads from a node to one of its operands.  The node is known by its place, the way to it
from the root, so that equal nodes at different places have different edges.

`edges` lists the edges of an expression from left to right, each after the edges below it.  These
are all edges (`mem_edges_iff`), in the order of `Place.Precedes` (`pairwise_edges`), and so none is
listed twice (`nodup_edges`).

The operand of an edge is a `Split` of the operands of its node, so every edge has an operand.
-/

namespace InfixAlgebra

/-! ## Items of a list -/

/-- An item of a list, between those before it and those after it. -/
structure Split (β : Type u) where
  before : List β
  item : β
  after : List β

namespace Split

variable {β : Type u} {s : Split β} {l : List β}

/-- The whole list. -/
def list (s : Split β) : List β := s.before ++ s.item :: s.after

/-- Where the item stands in the list. -/
def index (s : Split β) : Nat := s.before.length

/-- The same item in a longer list. -/
def prepend (bs : List β) (s : Split β) : Split β := { s with before := bs ++ s.before }

/-- The items of a list from left to right. -/
def all : List β → List (Split β)
  | [] => []
  | b :: l => ⟨[], b, l⟩ :: (all l).map (prepend [b])

theorem mem_list (s : Split β) : s.item ∈ s.list :=
  List.mem_append_right _ List.mem_cons_self

theorem getElem?_index (s : Split β) : s.list[s.index]? = some s.item := by
  simp [list, index]

/-- An item that stands at an index splits the list there. -/
theorem exists_of_getElem? {i : Nat} {b : β} (h : l[i]? = some b) :
    ∃ s : Split β, s.list = l ∧ s.index = i ∧ s.item = b := by
  obtain ⟨hi, rfl⟩ := List.getElem?_eq_some_iff.1 h
  refine ⟨⟨l.take i, l[i], l.drop (i + 1)⟩, ?_, List.length_take_of_le (Nat.le_of_lt hi), rfl⟩
  rw [list, ← List.drop_eq_getElem_cons hi, List.take_append_drop]

theorem mem_all_iff : s ∈ all l ↔ s.list = l := by
  induction l generalizing s with
  | nil => simp [all, list]
  | cons b l ih =>
    obtain ⟨before, item, after⟩ := s
    rw [all, List.mem_cons, List.mem_map]
    constructor
    · rintro (h | ⟨s, hs, h⟩)
      · rw [h]
        rfl
      · rw [← h, ← ih.1 hs]
        rfl
    · intro h
      match before with
      | [] =>
        obtain ⟨rfl, rfl⟩ := List.cons.inj h
        exact Or.inl rfl
      | b' :: before =>
        obtain ⟨rfl, hl⟩ := List.cons.inj h
        exact Or.inr ⟨⟨before, item, after⟩, ih.2 hl, rfl⟩

theorem map_item_all (l : List β) : (all l).map item = l := by
  induction l with
  | nil => rfl
  | cons b l ih =>
    rw [all, List.map_cons, List.map_map]
    exact congrArg (b :: ·) ih

theorem pairwise_all (l : List β) : (all l).Pairwise fun s t => s.index < t.index := by
  induction l with
  | nil => exact .nil
  | cons b l ih =>
    rw [all, List.pairwise_cons, List.pairwise_map]
    constructor
    · intro s hs
      obtain ⟨t, -, rfl⟩ := List.mem_map.1 hs
      exact Nat.succ_pos _
    · exact ih.imp fun h => Nat.succ_lt_succ h

end Split

/-! ## Places -/

/-- The way from the root of an expression to a part of it, by the indices of operands. -/
abbrev Place := List Nat

namespace Place

/-- The order in which a traversal from left to right is done with the parts of an expression. -/
inductive Precedes : Place → Place → Prop
  /-- A part comes after what is within it. -/
  | within (i : Nat) (p : Place) : Precedes (i :: p) []
  /-- What is within an operand comes before a later operand and all that is within that. -/
  | apart {i j : Nat} (h : i < j) (p q : Place) : Precedes (i :: p) (j :: q)
  /-- Within the same operand it is the order there. -/
  | under {p q : Place} (i : Nat) (h : Precedes p q) : Precedes (i :: p) (i :: q)

theorem Precedes.ne {p q : Place} (h : p.Precedes q) : p ≠ q := by
  induction h with
  | within i p => exact List.cons_ne_nil i p
  | apart h p q => exact fun hpq => Nat.ne_of_lt h (List.cons.inj hpq).1
  | under i _ ih => exact fun hpq => ih (List.cons.inj hpq).2

end Place

/-- The part of an expression at a place. -/
def Expr.at? {α : Type u} (e : Expr α) : Place → Option (Expr α)
  | [] => some e
  | i :: p => e.operands[i]?.bind fun d => d.at? p

/-! ## Edges -/

/-- A node at a place, with one of its operands. -/
structure Edge (α : Type u) where
  source : Place
  operator : Operator
  operands : Split (Expr α)

namespace Edge

variable {α : Type u}

/-- The node that the edge comes from. -/
def node (l : Edge α) : Expr α := .node l.operator l.operands.list

/-- The operand that the edge leads to. -/
def operand (l : Edge α) : Expr α := l.operands.item

/-- The place of the operand. -/
def place (l : Edge α) : Place := l.source ++ [l.operands.index]

/-- An edge of the operand at `i`, as one of the whole node. -/
def under (i : Nat) (l : Edge α) : Edge α := { l with source := i :: l.source }

theorem place_under (i : Nat) (l : Edge α) : (l.under i).place = i :: l.place := rfl

theorem place_ne_nil (l : Edge α) : l.place ≠ [] := by
  simp [place]

/-- The node of the edge stands at its place in `e`. -/
def IsIn (l : Edge α) (e : Expr α) : Prop := e.at? l.source = some l.node

variable {l : Edge α} {e : Expr α} {op : Operator} {es : List (Expr α)}

theorem not_isIn_of_isTerminal (he : e.isTerminal = true) : ¬ l.IsIn e := by
  intro h
  obtain ⟨source, op, operands⟩ := l
  match e, source with
  | .number x, [] | .symbol s, [] => cases h
  | .number x, _ :: _ | .symbol s, _ :: _ => cases h
  | .node op es, _ => cases he

/-- An edge of a node leads from its root to an operand, or it is an edge of an operand. -/
theorem isIn_node_iff :
    l.IsIn (.node op es) ↔ ∃ s : Split (Expr α), s.list = es ∧
      ((∃ k : Edge α, k.IsIn s.item ∧ k.under s.index = l) ∨ l = ⟨[], op, s⟩) := by
  constructor
  · intro h
    obtain ⟨source, op', operands⟩ := l
    -- The way to the node of the edge is empty, or it begins with the index of an operand.
    match source with
    | [] =>
      obtain ⟨rfl, rfl⟩ := Expr.node.inj (Option.some.inj h)
      exact ⟨operands, rfl, Or.inr rfl⟩
    | i :: p =>
      obtain ⟨e, he, h⟩ := Option.bind_eq_some_iff.1 h
      obtain ⟨s, hs, rfl, rfl⟩ := Split.exists_of_getElem? he
      exact ⟨s, hs, Or.inl ⟨⟨p, op', operands⟩, h, rfl⟩⟩
  · rintro ⟨s, rfl, ⟨k, hk, rfl⟩ | rfl⟩
    · exact Option.bind_eq_some_iff.2 ⟨s.item, s.getElem?_index, hk⟩
    · rfl

end Edge

namespace Expr

variable {α : Type u}

mutual

/-- The edges of an expression from left to right, each after the edges below it. -/
def edges : Expr α → List (Edge α)
  | .number _ => []
  | .symbol _ => []
  | .node op es => edgesAfter op [] es

/-- The edges of a node to its operands after some of them, with the edges below these. -/
def edgesAfter (op : Operator) : List (Expr α) → List (Expr α) → List (Edge α)
  | _, [] => []
  | before, e :: es =>
    e.edges.map (.under before.length) ++ ⟨[], op, ⟨before, e, es⟩⟩ ::
      edgesAfter op (before ++ [e]) es

end

theorem edgesAfter_eq_flatMap (op : Operator) (before es : List (Expr α)) :
    edgesAfter op before es = ((Split.all es).map (.prepend before)).flatMap fun s =>
      s.item.edges.map (.under s.index) ++ [⟨[], op, s⟩] := by
  induction es generalizing before with
  | nil => rfl
  | cons e es ih =>
    -- The operand `e` is one of those before the others.
    have hp : Split.prepend (before ++ [e]) = Split.prepend before ∘ Split.prepend [e] := by
      funext s
      exact congrArg (Split.mk · s.item s.after) (List.append_assoc _ _ _)
    rw [edgesAfter, ih, hp, ← List.map_map, Split.all, List.map_cons, List.flatMap_cons]
    simp [Split.prepend, Split.index]

theorem edges_node (op : Operator) (es : List (Expr α)) :
    (node op es).edges = (Split.all es).flatMap fun s =>
      s.item.edges.map (.under s.index) ++ [⟨[], op, s⟩] := by
  have hp : Split.prepend [] = (id : Split (Expr α) → Split (Expr α)) := rfl
  rw [edges, edgesAfter_eq_flatMap, hp, List.map_id]

/-- All edges are listed, and nothing else. -/
theorem mem_edges_iff {e : Expr α} {l : Edge α} : l ∈ e.edges ↔ l.IsIn e := by
  induction e generalizing l with
  | number x => exact iff_of_false List.not_mem_nil (Edge.not_isIn_of_isTerminal rfl)
  | symbol s => exact iff_of_false List.not_mem_nil (Edge.not_isIn_of_isTerminal rfl)
  | node op es ih =>
    rw [edges_node, Edge.isIn_node_iff, List.mem_flatMap]
    refine exists_congr fun s => ?_
    rw [Split.mem_all_iff, List.mem_append, List.mem_map, List.mem_singleton]
    refine and_congr_right fun hs => or_congr_left (exists_congr fun k => and_congr_left' ?_)
    exact ih s.item (hs ▸ s.mem_list)

/-- An edge that leads to an operand, or is within it, has a place that begins with its index. -/
theorem exists_place_eq_cons {op : Operator} {s : Split (Expr α)} {l : Edge α}
    (hl : l ∈ s.item.edges.map (.under s.index) ++ [⟨[], op, s⟩]) :
    ∃ p, l.place = s.index :: p := by
  rw [List.mem_append, List.mem_map, List.mem_singleton] at hl
  rcases hl with ⟨k, -, rfl⟩ | rfl
  · exact ⟨k.place, k.place_under s.index⟩
  · exact ⟨[], rfl⟩

/-- Edges are listed in the order of the places that they lead to. -/
theorem pairwise_edges (e : Expr α) :
    e.edges.Pairwise fun l k => l.place.Precedes k.place := by
  induction e with
  | number x => exact .nil
  | symbol s => exact .nil
  | node op es ih =>
    rw [edges_node, List.pairwise_flatMap]
    constructor
    · intro s hs
      have hi : s.item.edges.Pairwise fun l k =>
          (l.under s.index).place.Precedes (k.under s.index).place :=
        (ih s.item (Split.mem_all_iff.1 hs ▸ s.mem_list)).imp fun h => h.under s.index
      refine List.pairwise_append.2 ⟨List.pairwise_map.2 hi, List.pairwise_singleton _ _, ?_⟩
      -- The edge to the operand comes last, since the others lead to places within it.
      intro l hl k hk
      obtain ⟨l, -, rfl⟩ := List.mem_map.1 hl
      obtain rfl := List.mem_singleton.1 hk
      obtain ⟨j, p, hp⟩ := List.exists_cons_of_ne_nil l.place_ne_nil
      rw [Edge.place_under, hp]
      exact .under s.index (.within j p)
    · refine (Split.pairwise_all es).imp fun h l hl k hk => ?_
      obtain ⟨p, hp⟩ := exists_place_eq_cons hl
      obtain ⟨q, hq⟩ := exists_place_eq_cons hk
      rw [hp, hq]
      exact .apart h p q

/-- No edge is listed twice. -/
theorem nodup_edges (e : Expr α) : e.edges.Nodup :=
  e.pairwise_edges.imp fun h hl => h.ne (congrArg Edge.place hl)

end Expr

end InfixAlgebra
