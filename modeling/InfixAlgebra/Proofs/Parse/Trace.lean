import InfixAlgebra.Proofs.Machine.Reductions
import InfixAlgebra.Proofs.Parse.Canonical

/-!
# What reading puts on record

A text that is read has put the tree of its tokens on record before that tree was flattened: its
nodes in post-order, one for each operator among the tokens, and at last the text with the
expression that it was read as (`records_of_parse`).
-/

namespace InfixAlgebra

/-- The record of a reduction. -/
def Record.isReduced {α : Type u} : Record α → Bool
  | .reduced _ => true
  | _ => false

namespace Expr

variable {α : Type u}

/-- Binary nodes have two operands, and negations have one. -/
theorem hasArity_of_build {ts : List (Token α)} {m : Machine α} {r : Expr α}
    (h : Machine.build ts = .ok (m, r)) :
    r.HasArity fun op n => n = 2 ∨ n = 1 ∧ op = .sub := by
  obtain ⟨-, code, -, ha, -⟩ := Machine.exists_assemble_of_build h
  exact hasArity_of_assemble (.inr ⟨rfl, rfl⟩) (fun _ => .inl rfl) ha

variable [Numeric α] {text : String} {e : Expr α}

/-- While a text is read, the reductions of its tokens are put on record, and then the result. -/
theorem exists_records_of_parse (h : parse text = .ok e) :
    ∃ ts m r, Token.ofText text = .ok ts ∧ Machine.build ts = .ok (m, r) ∧ r.flatten = e ∧
      (read text).records = m.reductions.reverse.map .reduced ++ [.parsed text e] := by
  obtain ⟨ts, m, r, ht, hb, rfl⟩ := parse_eq_ok_iff.1 h
  refine ⟨ts, m, r, ht, hb, rfl, ?_⟩
  rw [read, ht]
  simp only [hb]

/-- Reading puts the nodes of a tree of negations and binary nodes on record in post-order, one for
each operator token, and then the flattened tree. -/
theorem records_of_parse (h : parse text = .ok e) :
    ∃ r : Expr α,
      (∀ op es, (op, es) ∈ r.nodes → es.length = 2 ∨ es.length = 1 ∧ op = .sub) ∧
      r.depth ≤ 512 ∧ r.flatten = e ∧
      (read text).records = r.postorder.map .reduced ++ [.parsed text e] ∧
      (read text : Reading α).records.map Record.line =
        (r.postorder.map fun d => s!"TRACE reduced to {d.text}") ++
          [s!"DEBUG parsed '{text}' into {e.text}"] ∧
      ∃ ts : List (Token α), Token.ofText text = .ok ts ∧
        (read text : Reading α).records.countP Record.isReduced = ts.countP Token.isOperator := by
  obtain ⟨ts, m, r, ht, hb, hf, hr⟩ := exists_records_of_parse h
  obtain ⟨-, -, -, -, hd⟩ := Machine.exists_assemble_of_build hb
  obtain ⟨hm, hl⟩ := Machine.reductions_of_build hb
  rw [hm] at hr
  refine ⟨r, hasArity_of_build hb, hd, hf, hr, ?_, ts, ht, ?_⟩
  · rw [hr, List.map_append, List.map_map]
    rfl
  · rw [hr, ← hl, List.countP_append, List.countP_map]
    exact List.countP_eq_length.2 fun _ _ => rfl

/-- The two sums of `x+-y+z` are one node of the result, and two of the three reductions. -/
theorem records_of_nested_sum :
    ∃ r : Expr Float,
      r.flatten = .node .add [.symbol ⟨"x"⟩, negation (.symbol ⟨"y"⟩), .symbol ⟨"z"⟩] ∧
      (read "x+-y+z" : Reading Float).records.map Record.line =
        (r.postorder.map fun d => s!"TRACE reduced to {d.text}") ++
          ["DEBUG parsed 'x+-y+z' into x+(-y)+z"] ∧
      (read "x+-y+z" : Reading Float).records.countP Record.isReduced = 3 := by
  have ht : Token.ofText "x+-y+z" = .ok ([.symbol ⟨"x"⟩, .operator .add, .operator .sub,
      .symbol ⟨"y"⟩, .operator .add, .symbol ⟨"z"⟩] : List (Token Float)) := rfl
  have h : parse "x+-y+z" = .ok (.node .add
      [.symbol ⟨"x"⟩, negation (.symbol ⟨"y"⟩), .symbol ⟨"z"⟩] : Expr Float) := rfl
  obtain ⟨r, -, -, hf, -, hl, ts, hts, hc⟩ := records_of_parse h
  obtain rfl := Except.ok.inj (ht.symm.trans hts)
  exact ⟨r, hf, hl, hc⟩

end Expr

end InfixAlgebra
