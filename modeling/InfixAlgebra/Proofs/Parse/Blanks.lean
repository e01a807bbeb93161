import InfixAlgebra.Proofs.Parse.Faults

/-!
# Blanks between tokens

Texts with the same tokens are read alike (`ReadAlike`): as the same expression, or not at all.  So
it does not matter which blanks part two texts, and none are needed if the texts neither join where
they meet nor make a factor there (`readAlike_of_blanks`).
-/

namespace InfixAlgebra.Expr

open Text

/-- Two texts are read as the same expression, or reading fails for both. -/
def ReadAlike (α : Type u) [Numeric α] (s t : String) : Prop :=
  (∃ e : Expr α, parse s = .ok e ∧ parse t = .ok e) ∨
    ∃ fault other, (parse s : Except Fault (Expr α)) = .error fault ∧ fault.kind = .reading ∧
      (parse t : Except Fault (Expr α)) = .error other ∧ other.kind = .reading

variable {α : Type u} [Numeric α] {s t : String}

/-- Texts with the same tokens are read alike. -/
theorem readAlike_of_ofText
    (h : ∀ ts : List (Token α), Token.ofText s = .ok ts ↔ Token.ofText t = .ok ts) :
    ReadAlike α s t := by
  have hok (e : Expr α) : parse s = .ok e ↔ parse t = .ok e := by
    simp only [parse_eq_ok_iff, h]
  cases hs : (parse s : Except Fault (Expr α)) with
  | ok e => exact .inl ⟨e, hs, (hok e).1 hs⟩
  | error fault =>
    cases ht : (parse t : Except Fault (Expr α)) with
    | ok e =>
      rw [(hok e).2 ht] at hs
      cases hs
    | error other => exact .inr ⟨_, _, hs, kind_of_parse_error hs, ht, kind_of_parse_error ht⟩

/-- Texts are read alike with any blanks between them, and with none unless a number or a name goes
on, or a name follows a number. -/
theorem readAlike_of_blanks (u v : String) {w : String} (hw : w ≠ "")
    (hb : ∀ c ∈ w.toList, isBlank c = true) :
    (∀ w' : String, w' ≠ "" → (∀ c ∈ w'.toList, isBlank c = true) →
      ReadAlike α (u ++ w ++ v) (u ++ w' ++ v)) ∧
    ((∀ a ∈ u.toList.getLast?, ∀ b ∈ v.toList.head?, ¬ (isNumeric a ∧ isNumeric b) ∧
      ¬ (a.isAlpha ∧ b.isAlpha) ∧ ¬ (isNumeric a ∧ b.isAlpha)) →
      ReadAlike α (u ++ w ++ v) (u ++ v)) := by
  constructor
  · intro w' hw' hb'
    refine readAlike_of_ofText fun ts => ?_
    rw [Token.ofText_append_blanks_append hw hb, Token.ofText_append_blanks_append hw' hb']
  · intro h
    refine readAlike_of_ofText fun ts => ?_
    rw [Token.ofText_append_blanks_append hw hb, Token.ofText_append]
    · intro a ha c hc
      obtain ⟨hn, hl, -⟩ := h a ha c hc
      rw [joined, Bool.or_eq_false_iff, ← Bool.not_eq_true, ← Bool.not_eq_true, Bool.and_eq_true,
        Bool.and_eq_true]
      exact ⟨hn, hl⟩
    · exact fun a ha c hc => (h a ha c hc).2.2

theorem readAlike_parted_and_joined :
    ReadAlike Float "x\t y" "x\u3000y" ∧ ReadAlike Float "-x\n^2" "-x^2" := by
  constructor
  · have hb : ∀ c ∈ "\t ".toList, isBlank c = true := List.all_eq_true.1 rfl
    have hb' : ∀ c ∈ "\u3000".toList, isBlank c = true := List.all_eq_true.1 rfl
    exact (readAlike_of_blanks "x" "y" (by decide) hb).1 "\u3000" (by decide) hb'
  · have hb : ∀ c ∈ "\n".toList, isBlank c = true := List.all_eq_true.1 rfl
    refine (readAlike_of_blanks "-x" "^2" (by decide) hb).2 ?_
    rintro a ⟨⟩ b ⟨⟩
    decide

end InfixAlgebra.Expr
