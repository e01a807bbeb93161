import InfixAlgebra.Number.Spelling
import InfixAlgebra.Proofs.Number.Rounding
import InfixAlgebra.Token
import Mathlib.Data.List.TakeWhile

/-!
# Decimals without an exponent

A decimal without an exponent consists of digits and at most one point (`isNumeric_positional`), and
it is read as the decimal that it was written for (`ofChars?_positional`).  So the text of a finite
number without a sign reads back as that number (`ofChars?_chars`).
-/

namespace InfixAlgebra

namespace Numeral

/-! ## Digits -/

theorem isDigit_repr (n : Nat) : ∀ c ∈ n.repr.toList, c.isDigit = true := by
  rw [Nat.toList_repr]
  exact fun c hc => Nat.isDigit_of_mem_toDigits (by decide) (by decide) hc

theorem isDigit_leftpad (k n : Nat) : ∀ c ∈ n.repr.toList.leftpad k '0', c.isDigit = true := by
  intro c hc
  rw [List.leftpad, List.mem_append, List.mem_replicate] at hc
  rcases hc with ⟨-, rfl⟩ | hc
  · rfl
  · exact isDigit_repr n c hc

theorem ofDigitChars_repr (n : Nat) : Nat.ofDigitChars 10 n.repr.toList 0 = n := by
  rw [Nat.toList_repr, Nat.ofDigitChars_ten_toDigits]

theorem ofDigitChars_leftpad (k n init : Nat) (h : n < 10 ^ (k + 1)) :
    Nat.ofDigitChars 10 (n.repr.toList.leftpad (k + 1) '0') init = init * 10 ^ (k + 1) + n := by
  have hl : n.repr.toList.length ≤ k + 1 := by
    rw [Nat.toList_repr]
    exact (Nat.length_toDigits_le_iff (by decide) (Nat.succ_pos k)).2 h
  rw [Nat.ofDigitChars_eq_ofDigitChars_zero, List.leftpad, Nat.ofDigitChars_append,
    Nat.ofDigitChars_replicate_zero, Nat.mul_zero, ofDigitChars_repr, List.length_append,
    List.length_replicate, Nat.sub_add_cancel hl, Nat.mul_comm]

theorem length_leftpad_repr (k n : Nat) (h : n < 10 ^ (k + 1)) :
    (n.repr.toList.leftpad (k + 1) '0').length = k + 1 := by
  have hl : n.repr.toList.length ≤ k + 1 := by
    rw [Nat.toList_repr]
    exact (Nat.length_toDigits_le_iff (by decide) (Nat.succ_pos k)).2 h
  rw [List.leftpad, List.length_append, List.length_replicate, Nat.sub_add_cancel hl]

/-! ## Reading digits and a point -/

/-- Digits without a point are a whole number. -/
theorem decimal?_digits {ds : List Char} (hd : ∀ c ∈ ds, c.isDigit = true) (hn : ds ≠ []) :
    decimal? ds = some (Nat.ofDigitChars 10 ds 0, 0) := by
  have ht : ds.takeWhile Char.isDigit = ds := List.takeWhile_eq_self_iff.2 hd
  have hr : ds.dropWhile Char.isDigit = [] := List.dropWhile_eq_nil_iff.2 hd
  unfold decimal?
  simp only [ht, hr, splitFraction, and_true, if_neg hn, exponent?, Option.map_some,
    List.append_nil]
  rfl

/-- The digits after the point count the places. -/
theorem decimal?_point {ds fs : List Char} (hd : ∀ c ∈ ds, c.isDigit = true)
    (hf : ∀ c ∈ fs, c.isDigit = true) (hn : ¬ (ds = [] ∧ fs = [])) :
    decimal? (ds ++ '.' :: fs) = some (Nat.ofDigitChars 10 (ds ++ fs) 0, -(fs.length : Int)) := by
  have ht : (ds ++ '.' :: fs).takeWhile Char.isDigit = ds := by
    rw [List.takeWhile_append_of_pos hd]
    simp
  have hr : (ds ++ '.' :: fs).dropWhile Char.isDigit = '.' :: fs := by
    rw [List.dropWhile_append_of_pos hd]
    rfl
  have htf : fs.takeWhile Char.isDigit = fs := List.takeWhile_eq_self_iff.2 hf
  have hrf : fs.dropWhile Char.isDigit = [] := List.dropWhile_eq_nil_iff.2 hf
  unfold decimal?
  simp only [ht, hr, splitFraction, htf, hrf, hn, if_false, exponent?, Option.map_some]
  rw [Int.zero_sub]

/-! ## Runs of digits and points -/

theorem splitSign_of_isNumeric {cs : List Char} (h : ∀ c ∈ cs, Text.isNumeric c = true) :
    splitSign cs = (false, cs) := by
  unfold splitSign
  split
  · exact absurd (h '-' List.mem_cons_self) (by decide)
  · exact absurd (h '+' List.mem_cons_self) (by decide)
  · rfl

theorem toLower_of_isNumeric {c : Char} (h : Text.isNumeric c = true) : c.toLower = c := by
  rw [Text.isNumeric, Bool.or_eq_true, beq_iff_eq] at h
  rcases h with h | rfl
  · rw [Char.isDigit, Bool.and_eq_true, decide_eq_true_eq, decide_eq_true_eq] at h
    refine dif_neg fun hu => ?_
    exact absurd (UInt32.le_trans hu.1 h.2) (by decide)
  · rfl

/-- A run of digits and points spells a decimal without a sign, or nothing. -/
theorem ofChars?_of_isNumeric {cs : List Char} (h : ∀ c ∈ cs, Text.isNumeric c = true) :
    ofChars? cs = (decimal? cs).map fun d => .finite false d.1 d.2 := by
  rw [ofChars?, splitSign_of_isNumeric h]
  cases hd : decimal? cs with
  | some d => simp only [hd, Option.map_some]
  | none =>
    have hl : cs.map Char.toLower = cs :=
      (List.map_congr_left fun c hc => toLower_of_isNumeric (h c hc)).trans (List.map_id cs)
    have hw (word : String) (c : Char) (hc : c ∈ word.toList) (hn : Text.isNumeric c = false) :
        String.ofList cs ≠ word := by
      rintro rfl
      rw [String.toList_ofList] at hc
      rw [h c hc] at hn
      cases hn
    simp only [hd, hl, hw "inf" 'i' (by decide) rfl, hw "infinity" 'i' (by decide) rfl,
      hw "nan" 'n' (by decide) rfl, or_false, if_false, Option.map_none]

/-! ## Writing without an exponent -/

theorem isNumeric_positional (m : Nat) (e : Int) :
    ∀ c ∈ positional m e, Text.isNumeric c = true := by
  intro c hc
  rw [Text.isNumeric, Bool.or_eq_true]
  cases e with
  | ofNat e => exact Or.inl (isDigit_repr _ c hc)
  | negSucc e =>
    rw [positional, List.mem_append, List.mem_cons] at hc
    rcases hc with hc | rfl | hc
    · exact Or.inl (isDigit_repr _ c hc)
    · exact Or.inr rfl
    · exact Or.inl (isDigit_leftpad _ _ c hc)

theorem repr_ne_nil (n : Nat) : n.repr.toList ≠ [] := by
  rw [Nat.toList_repr]
  exact Nat.toDigits_ne_nil

theorem positional_ne_nil (m : Nat) (e : Int) : positional m e ≠ [] := by
  cases e with
  | ofNat e => exact repr_ne_nil _
  | negSucc e => exact List.append_ne_nil_of_left_ne_nil (repr_ne_nil _) _

/-- A decimal without a positive exponent. -/
def spread (m : Nat) : Int → Nat × Int
  | .ofNat e => (m * 10 ^ e, 0)
  | .negSucc e => (m, .negSucc e)

theorem decimal?_positional (m : Nat) (e : Int) :
    decimal? (positional m e) = some (spread m e) := by
  cases e with
  | ofNat e =>
    rw [positional, decimal?_digits (isDigit_repr _) (repr_ne_nil _), ofDigitChars_repr]
    rfl
  | negSucc e =>
    have hm : m % 10 ^ (e + 1) < 10 ^ (e + 1) := Nat.mod_lt _ (Nat.pow_pos (by decide))
    rw [positional, decimal?_point (isDigit_repr _) (isDigit_leftpad _ _)
      (fun hn => repr_ne_nil _ hn.1), Nat.ofDigitChars_append, ofDigitChars_repr]
    simp only [Nat.pow_eq]
    rw [ofDigitChars_leftpad _ _ _ hm, length_leftpad_repr _ _ hm, Nat.div_add_mod']
    rfl

end Numeral

namespace BinaryFormat

variable {f : BinaryFormat}

/-- A decimal without a positive exponent is rounded alike. -/
theorem ofDecimal_spread {m magnitude : Nat} {e : Int} (h : f.ofDecimal m e = magnitude)
    (hm : magnitude < f.infinity) :
    f.ofDecimal (Numeral.spread m e).1 (Numeral.spread m e).2 = magnitude := by
  cases e with
  | negSucc e => exact h
  | ofNat e =>
    rw [ofDecimal] at h
    show f.ofDecimal (m * 10 ^ e) (.ofNat 0) = magnitude
    split_ifs at h with h0 hu
    · rw [h0, Nat.zero_mul, ofDecimal, if_pos rfl, h]
    · exact absurd hm (h ▸ Nat.lt_irrefl _)
    · have hp : m * 10 ^ e ≠ 0 := Nat.mul_ne_zero h0 (Nat.ne_of_gt (Nat.pow_pos (by decide)))
      rw [ofDecimal, if_neg hp, if_neg (Nat.not_lt_zero _)]
      simpa using h

/-! ## Words -/

theorem chars_plain {word : Nat} (hw : word < f.infinity) :
    f.chars .plain word =
      Numeral.positional (f.shortest .up word).1 (f.shortest .up word).2 := by
  have hs := Nat.lt_trans hw f.infinity_lt_signPlace
  rw [chars, Nat.mod_eq_of_lt hs, if_neg (Nat.lt_asymm hw), if_neg (Nat.not_le.2 hs),
    magnitudeChars, if_pos hw]
  rfl

/-- The text of a finite number without a sign is read as that number. -/
theorem ofChars?_chars (hf : 1 ≤ f.precision) (hu : 1 ≤ f.unit) {word : Nat}
    (hw : word < f.infinity) : f.ofChars? (f.chars .plain word) = some word := by
  rw [chars_plain hw, ofChars?, Numeral.ofChars?_of_isNumeric (Numeral.isNumeric_positional _ _),
    Numeral.decimal?_positional]
  simp only [Option.map_some, ofNumeral, BinaryFormat.word]
  rw [if_neg Bool.false_ne_true, ofDecimal_spread (ofDecimal_shortest hf hu .up hw) hw]

/-- The text of a finite number with a sign has a minus. -/
theorem minus_mem_chars {word : Nat} (hw : f.isFinite word = true) (hs : f.signPlace ≤ word) :
    '-' ∈ f.chars .plain word := by
  rw [isFinite, decide_eq_true_eq] at hw
  rw [chars, if_neg (Nat.lt_asymm hw), if_pos hs]
  exact List.mem_cons_self

/-- A run of digits and points is read without a sign. -/
theorem le_infinity_of_ofChars? {cs : List Char} {word : Nat}
    (hc : ∀ c ∈ cs, Text.isNumeric c = true) (h : f.ofChars? cs = some word) :
    word ≤ f.infinity := by
  rw [ofChars?, Numeral.ofChars?_of_isNumeric hc, Option.map_map] at h
  obtain ⟨d, -, rfl⟩ := Option.map_eq_some_iff.1 h
  exact ofDecimal_le_infinity _ _

end BinaryFormat

end InfixAlgebra
