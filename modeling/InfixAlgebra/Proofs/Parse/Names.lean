import InfixAlgebra.Proofs.Expr.Equality
import InfixAlgebra.Proofs.Expr.Names
import InfixAlgebra.Proofs.Parse.Contents
import InfixAlgebra.Proofs.Text.Bytes

/-!
# The names in a text

The names that are listed for an expression are those of its symbols, each once, in the order of
their bytes, whether it is flattened or not.  For what is read from a text they are the maximal runs
of letters of that text (`listed_names_of_expr_and_text`).
-/

namespace InfixAlgebra.Expr

variable {α : Type u} [Numeric α] {text : String} {e : Expr α}

/-- The names in what is read are the maximal runs of letters of the text. -/
theorem symbol_mem_terminals_iff_of_parse (h : parse text = .ok e) {name : String} :
    .symbol ⟨name⟩ ∈ e.terminals ↔ Text.IsRun Char.isAlpha name.toList text.toList := by
  rw [Text.isRun_isAlpha_iff]
  have hw := forall₂_writes_of_parse h
  constructor
  · intro hs
    obtain ⟨run, hr, hw⟩ := exists_of_mem_right hw hs
    cases hw with
    | symbol hn =>
      rw [String.toList_ofList]
      exact ⟨hr, hn⟩
  · rintro ⟨hr, hn⟩
    obtain ⟨t, ht, hw⟩ := exists_of_mem_right (List.Forall₂.flip hw) hr
    cases hw with
    | number hd _ =>
      obtain ⟨c, hc⟩ := List.exists_mem_of_ne_nil _ (Text.isName_iff.1 hn).1
      have ha := Text.isAlpha_of_isNumeric ((Text.isNumber_iff.1 hd).2 c hc)
      rw [(Text.isName_iff.1 hn).2 c hc] at ha
      cases ha
    | symbol _ => rwa [String.ofList_toList] at ht

/-- Names are listed once each, in the order of their bytes; they are those of the symbols and, for
what is read, the runs of letters of the text. -/
theorem listed_names_of_expr_and_text (α : Type u) [Numeric α] :
    (∀ e : Expr α,
      e.variableNames.Pairwise (fun a b => Text.bytes a < Text.bytes b) ∧
      (∀ name, name ∈ e.variableNames ↔ ∃ s, .symbol s ∈ e.terminals ∧ s.name = name) ∧
      e.flatten.variableNames = e.variableNames) ∧
    ∀ text (e : Expr α), parse text = .ok e →
      ∀ name, name ∈ e.variableNames ↔ Text.IsRun Char.isAlpha name.toList text.toList := by
  refine ⟨fun e => ⟨?_, fun name => ?_, variableNames_flatten e⟩, fun text e h name => ?_⟩
  · exact (pairwise_lt_variableNames e).imp Text.bytes_lt_bytes
  · rw [mem_variableNames_iff]
    constructor
    · exact fun h => ⟨_, h, rfl⟩
    · rintro ⟨s, hs, rfl⟩
      exact hs
  · rw [mem_variableNames_iff, symbol_mem_terminals_iff_of_parse h]

theorem listed_names_of_product :
    ∃ e : Expr Float, parse "b+2ab*(a-b)" = .ok e ∧ "ab" ∈ e.variableNames ∧
      e.variableNames.Pairwise fun a b => Text.bytes a < Text.bytes b := by
  obtain ⟨e, h⟩ := Except.exists_eq_ok (x := (parse "b+2ab*(a-b)" : Except Fault (Expr Float)))
    (by decide +kernel)
  obtain ⟨hall, htext⟩ := listed_names_of_expr_and_text Float
  have hr : Text.IsRun Char.isAlpha "ab".toList "b+2ab*(a-b)".toList :=
    ⟨by decide, by simp, ['b', '+', '2'], ['*', '(', 'a', '-', 'b', ')'], by decide, by simp,
      by simp⟩
  exact ⟨e, h, (htext _ e h "ab").2 hr, (hall e).1⟩

end InfixAlgebra.Expr
