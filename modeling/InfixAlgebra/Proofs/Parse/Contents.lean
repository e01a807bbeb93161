import InfixAlgebra.Proofs.Number.Floats
import InfixAlgebra.Proofs.Parse.Canonical

/-!
# From a text to its expression

Whatever is read from a text, grammatical or not, has the numbers and names of the text as its
terminals, in their order, and the operators of the text in its nodes: none is lost, doubled or
moved (`terminals_and_nodes_of_parse`).  It has at most 512 levels, its numbers are plain, its names
are valid, its nodes have as many operands as their operators take, and flattening leaves it as it
is (`shape_of_parse`).
-/

namespace InfixAlgebra

theorem Except.exists_eq_ok {ε : Type u} {β : Type v} {x : Except ε β} (h : x.isOk = true) :
    ∃ b, x = .ok b := by
  cases x with
  | ok b => exact ⟨b, rfl⟩
  | error fault => cases h

namespace Expr

variable {α : Type u} [Numeric α] {text : String} {e : Expr α}

/-! ## Nothing is lost -/

/-- The terminals of what is read are what the runs of the text write. -/
theorem forall₂_writes_of_parse (h : parse text = .ok e) :
    List.Forall₂ Token.Writes (Text.runs text.toList) e.terminals := by
  obtain ⟨ts, ht, hm⟩ := terminals_of_parse h
  rw [hm]
  exact Token.forall₂_writes_of_ofText ht

/-- The terminals of what is read are the runs of the text in order, and its operators are the signs
between operands, with a `*` for each factor. -/
theorem terminals_and_nodes_of_parse (h : parse text = .ok e) :
    List.Forall₂ Token.Writes (Text.runs text.toList) e.terminals ∧
    (∀ n ∈ e.nodes, 0 < n.2.length) ∧
    ((e.nodes.filter (·.1 = .add)).map fun n => n.2.length - 1).sum = text.toList.count '+' ∧
    ((e.nodes.filter (·.1 = .mul)).map fun n => n.2.length - 1).sum =
      text.toList.count '*' + Text.factors text.toList ∧
    e.nodes.countP (·.1 = .sub) = text.toList.count '-' ∧
    e.nodes.countP (·.1 = .div) = text.toList.count '/' ∧
    e.nodes.countP (·.1 = .pow) = text.toList.count '^' := by
  -- So nothing is cut off where one is subtracted.
  have hn : ∀ n ∈ e.nodes, 0 < n.2.length :=
    fun n hn => ((wellFormed_of_parse h).admits n.1 n.2 hn).pos
  refine ⟨forall₂_writes_of_parse h, hn, ?_, ?_, ?_, ?_, ?_⟩
  · rw [← occurrences_of_unordered rfl]
    exact occurrences_of_parse h .add
  · rw [← occurrences_of_unordered rfl]
    exact occurrences_of_parse h .mul
  · rw [← occurrences_of_isOrdered rfl]
    exact occurrences_of_parse h .sub
  · rw [← occurrences_of_isOrdered rfl]
    exact occurrences_of_parse h .div
  · rw [← occurrences_of_isOrdered rfl]
    exact occurrences_of_parse h .pow

theorem parse_factor_and_operands :
    ∃ e : Expr Float, parse "2.5x y+" = .ok e ∧
      List.Forall₂ Token.Writes [['2', '.', '5'], ['x'], ['y']] e.terminals ∧
      ((e.nodes.filter (·.1 = .mul)).map fun n => n.2.length - 1).sum = 1 := by
  obtain ⟨e, h⟩ := Except.exists_eq_ok (x := (parse "2.5x y+" : Except Fault (Expr Float)))
    (by decide +kernel)
  have hr : Text.runs "2.5x y+".toList = [['2', '.', '5'], ['x'], ['y']] := by
    rw [Text.runs_eq_filter]
    decide
  have hc := terminals_and_nodes_of_parse h
  rw [hr] at hc
  exact ⟨e, h, hc.1, hc.2.2.2.1⟩

/-! ## The shape of what is read -/

variable [SignBit α] [BEq α] [LawfulNumeric α]

/-- What is read has at most 512 levels, plain numbers, valid names, nodes with operands as their
operators take them, and is flat. -/
theorem shape_of_parse (h : parse text = .ok e) :
    e.depth ≤ 512 ∧
    (∀ x, .number x ∈ e.terminals → Numeric.isFinite x = true ∧ SignBit.isNegative x = false) ∧
    (∀ s, .symbol s ∈ e.terminals → Symbol.IsName s.name) ∧
    (∀ op es, (op, es) ∈ e.nodes →
      (op = .add ∨ op = .mul → 2 ≤ es.length ∧ ∀ d ∈ es, d.operator? ≠ some op) ∧
      (op = .sub → es.length = 1 ∨ es.length = 2) ∧
      (op = .div ∨ op = .pow → es.length = 2)) ∧
    e.flatten = e := by
  have hc := canonical_of_parse h
  refine ⟨depth_le_of_parse h, hc.isPlain, hc.isName, fun op es hn => ⟨fun ho => ?_, ?_, ?_⟩,
    flatten_of_isFlat hc.isFlat⟩
  · have hu : op.isOrdered = false := by
      rcases ho with rfl | rfl <;> rfl
    have hs : op ≠ .sub := by
      rcases ho with rfl | rfl <;> decide
    exact ⟨(hc.admits op es hn).resolve_right fun h1 => hs h1.2, hc.isFlat op es hn hu⟩
  · exact (hc.reads op es hn).1
  · exact (hc.reads op es hn).2

theorem flatten_parsed_sum :
    ∃ e : Expr Float, parse "x+(y+2)-z" = .ok e ∧ e.depth ≤ 512 ∧ e.flatten = e := by
  obtain ⟨e, h⟩ := Except.exists_eq_ok (x := (parse "x+(y+2)-z" : Except Fault (Expr Float)))
    (by decide +kernel)
  have hs := shape_of_parse h
  exact ⟨e, h, hs.1, hs.2.2.2.2⟩

end Expr

end InfixAlgebra
