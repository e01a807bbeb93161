import InfixAlgebra.Numeric
import InfixAlgebra.Proofs.Number.Positional

/-!
# Runs of digits and points that are read

In a decimal number type a run of digits and points is read as a number exactly if there is a digit
in it and at most one point (`Numeral.exists_decimal?_iff`).  The number that is read need not be
finite: a run of many digits may be too large.

`Float` and `Float32` are decimal number types.
-/

namespace InfixAlgebra

/-- A run of digits and points is read if it has a digit and at most one point. -/
class DecimalNumeric (α : Type u) [Numeric α] : Prop where
  exists_ofChars?_iff {cs : List Char} : (∀ c ∈ cs, Text.isNumeric c = true) →
    ((∃ x : α, Numeric.ofChars? cs = some x) ↔ (∃ c ∈ cs, c.isDigit = true) ∧ cs.count '.' ≤ 1)

namespace Numeral

/-- A run of digits and points is digits only, or digits before its first point. -/
theorem digits_or_point {cs : List Char} (h : ∀ c ∈ cs, Text.isNumeric c = true) :
    ∃ ds, (∀ c ∈ ds, c.isDigit = true) ∧
      (cs = ds ∨ ∃ rest, cs = ds ++ '.' :: rest ∧ ∀ c ∈ rest, Text.isNumeric c = true) := by
  induction cs with
  | nil => exact ⟨[], nofun, .inl rfl⟩
  | cons c cs ih =>
    rw [List.forall_mem_cons, Text.isNumeric, Bool.or_eq_true, beq_iff_eq] at h
    obtain ⟨hd | rfl, hcs⟩ := h
    · obtain ⟨ds, hds, rfl | ⟨rest, rfl, hr⟩⟩ := ih hcs
      · exact ⟨c :: cs, List.forall_mem_cons.2 ⟨hd, hds⟩, .inl rfl⟩
      · exact ⟨c :: ds, List.forall_mem_cons.2 ⟨hd, hds⟩, .inr ⟨rest, rfl, hr⟩⟩
    · exact ⟨[], nofun, .inr ⟨cs, rfl, hcs⟩⟩

/-- A second point is no exponent. -/
theorem decimal?_second_point {ds fs : List Char} (hd : ∀ c ∈ ds, c.isDigit = true)
    (hf : ∀ c ∈ fs, c.isDigit = true) (rest : List Char) :
    decimal? (ds ++ '.' :: (fs ++ '.' :: rest)) = none := by
  have hr : (ds ++ '.' :: (fs ++ '.' :: rest)).dropWhile Char.isDigit =
      '.' :: (fs ++ '.' :: rest) := by
    rw [List.dropWhile_append_of_pos hd]
    rfl
  have hrf : (fs ++ '.' :: rest).dropWhile Char.isDigit = '.' :: rest := by
    rw [List.dropWhile_append_of_pos hf]
    rfl
  have he : exponent? ('.' :: rest) = none := by
    unfold exponent?
    exact if_neg fun h => absurd h.1 (by decide)
  unfold decimal?
  simp only [hr, splitFraction, hrf, he, Option.map_none, ite_self]

theorem count_point_of_isDigit {ds : List Char} (hd : ∀ c ∈ ds, c.isDigit = true) :
    ds.count '.' = 0 :=
  List.count_eq_zero.2 fun hm => absurd (hd _ hm) (by decide)

theorem exists_isDigit_iff {ds : List Char} (hd : ∀ c ∈ ds, c.isDigit = true) :
    (∃ c ∈ ds, c.isDigit = true) ↔ ds ≠ [] := by
  constructor
  · rintro ⟨c, hc, -⟩ rfl
    cases hc
  · intro hn
    exact ⟨_, List.head_mem hn, hd _ (List.head_mem hn)⟩

/-- A run of digits and points is a decimal if it has a digit and at most one point. -/
theorem exists_decimal?_iff {cs : List Char} (h : ∀ c ∈ cs, Text.isNumeric c = true) :
    (∃ d, decimal? cs = some d) ↔ (∃ c ∈ cs, c.isDigit = true) ∧ cs.count '.' ≤ 1 := by
  obtain ⟨ds, hd, rfl | ⟨rest, rfl, hr⟩⟩ := digits_or_point h
  · -- There are digits only.
    rw [exists_isDigit_iff hd, count_point_of_isDigit hd]
    by_cases hn : cs = []
    · subst hn
      exact iff_of_false nofun fun h => h.1 rfl
    · exact iff_of_true ⟨_, decimal?_digits hd hn⟩ ⟨hn, Nat.zero_le 1⟩
  obtain ⟨fs, hf, rfl | ⟨rest, rfl, -⟩⟩ := digits_or_point hr
  · -- There is one point, and only digits before and behind it.
    have hc : (ds ++ '.' :: rest).count '.' = 1 := by
      rw [List.count_append, List.count_cons_self, count_point_of_isDigit hd,
        count_point_of_isDigit hf]
    by_cases hn : ds = [] ∧ rest = []
    · obtain ⟨rfl, rfl⟩ := hn
      exact iff_of_false (fun ⟨_, h⟩ => nomatch h) (by simp)
    · refine iff_of_true ⟨_, decimal?_point hd hf hn⟩ ⟨?_, Nat.le_of_eq hc⟩
      rw [not_and_or, ← ne_eq, ← ne_eq, ← exists_isDigit_iff hd, ← exists_isDigit_iff hf] at hn
      rcases hn with ⟨c, hc, hcd⟩ | ⟨c, hc, hcd⟩
      · exact ⟨c, List.mem_append_left _ hc, hcd⟩
      · exact ⟨c, List.mem_append_right _ (List.mem_cons_of_mem _ hc), hcd⟩
  · -- There is a second point.
    rw [decimal?_second_point hd hf]
    refine iff_of_false (fun ⟨_, h⟩ => nomatch h) fun h => ?_
    simp only [List.count_append, List.count_cons_self] at h
    omega

end Numeral

/-- A number type that is spelled by the words of a binary format is decimal. -/
theorem DecimalNumeric.ofWords {α : Type u} [Numeric α] {f : BinaryFormat} (ofWord : Nat → α)
    (h : ∀ cs, (Numeric.ofChars? cs : Option α) = (f.ofChars? cs).map ofWord) :
    DecimalNumeric α where
  exists_ofChars?_iff hc := by
    rw [← Numeral.exists_decimal?_iff hc, h, BinaryFormat.ofChars?,
      Numeral.ofChars?_of_isNumeric hc]
    simp only [Option.map_map, Option.map_eq_some_iff]
    constructor
    · rintro ⟨x, d, hd, -⟩
      exact ⟨d, hd⟩
    · rintro ⟨d, hd⟩
      exact ⟨_, d, hd, rfl⟩

instance : DecimalNumeric Float := .ofWords _ fun _ => rfl

instance : DecimalNumeric Float32 := .ofWords _ fun _ => rfl

end InfixAlgebra
