import InfixAlgebra.Number.Shortest
import Mathlib.Algebra.Ring.Nat
import Mathlib.Tactic.SplitIfs

/-!
# Decimals that read back

A finite number of a binary format is the magnitude nearest to it: `nearest_eq` rounds an exact
multiple of the least positive number to the magnitude it comes from.  So the decimal with all
digits reads back, and whatever the search for fewer digits finds was made to read back:
`ofDecimal_shortest`.  No decimal is rounded beyond infinity (`ofDecimal_le_infinity`).
-/

namespace InfixAlgebra.BinaryFormat

variable {f : BinaryFormat}

theorem blockSize_pos (f : BinaryFormat) : 0 < f.blockSize := Nat.two_pow_pos _

theorem infinity_lt_signPlace (f : BinaryFormat) : f.infinity < f.signPlace := by
  rw [infinity, signPlace, Nat.add_mul, Nat.one_mul]
  exact Nat.lt_add_of_pos_right f.blockSize_pos

/-- Two blocks of magnitudes are as many as there are significands. -/
theorem two_mul_blockSize (hf : 1 ≤ f.precision) : 2 * f.blockSize = 2 ^ f.precision := by
  rw [blockSize, Nat.pow_eq, ← Nat.pow_succ', Nat.succ_eq_add_one, Nat.sub_add_cancel hf]

/-! ## The significand of a magnitude -/

theorem spacing_mul_le (f : BinaryFormat) (magnitude : Nat) :
    f.spacing magnitude * f.blockSize ≤ magnitude :=
  Nat.le_trans (Nat.mul_le_mul_right _ (Nat.sub_le _ _)) (Nat.div_mul_le_self _ _)

theorem sub_spacing_mul_lt (f : BinaryFormat) (magnitude : Nat) :
    magnitude - f.spacing magnitude * f.blockSize < 2 * f.blockSize := by
  have hb := f.blockSize_pos
  have h := Nat.lt_mul_div_succ magnitude hb
  have hs : magnitude / f.blockSize + 1 ≤ f.spacing magnitude + 2 := by
    unfold spacing
    omega
  have hm := Nat.mul_le_mul_right f.blockSize hs
  rw [Nat.add_mul (f.spacing magnitude)] at hm
  rw [Nat.mul_comm] at h
  omega

theorem blockSize_le_sub (f : BinaryFormat) {magnitude : Nat} (h : 0 < f.spacing magnitude) :
    f.blockSize ≤ magnitude - f.spacing magnitude * f.blockSize := by
  have hs : f.spacing magnitude + 1 = magnitude / f.blockSize := by
    rw [spacing] at h ⊢
    omega
  have hm := Nat.div_mul_le_self magnitude f.blockSize
  rw [← hs, Nat.add_mul] at hm
  omega

/-- The spacing at a number is known from the number of its bits. -/
theorem log2_multiple (hf : 1 ≤ f.precision) (magnitude : Nat) :
    (f.multiple magnitude).log2 + 1 - f.precision = f.spacing magnitude := by
  have hlt := f.sub_spacing_mul_lt magnitude
  rw [two_mul_blockSize hf] at hlt
  rcases Nat.eq_zero_or_pos (f.spacing magnitude) with hs | hs
  · rw [multiple, Nat.pow_eq, hs, Nat.pow_zero, Nat.mul_one]
    rw [hs] at hlt
    rcases Nat.eq_zero_or_pos (magnitude - 0 * f.blockSize) with hq | hq
    · rw [hq, Nat.log2_zero]
      omega
    · have := (Nat.log2_lt (Nat.ne_of_gt hq)).2 hlt
      omega
  · have hle := f.blockSize_le_sub hs
    rw [multiple, Nat.pow_eq]
    have hl : ((magnitude - f.spacing magnitude * f.blockSize) *
        2 ^ f.spacing magnitude).log2 = f.precision - 1 + f.spacing magnitude := by
      have hpos : 0 < (magnitude - f.spacing magnitude * f.blockSize) * 2 ^ f.spacing magnitude :=
        Nat.mul_pos (Nat.lt_of_lt_of_le f.blockSize_pos hle) (Nat.two_pow_pos _)
      rw [Nat.log2_eq_iff (Nat.ne_of_gt hpos)]
      constructor
      · rw [Nat.pow_add]
        exact Nat.mul_le_mul_right _ hle
      · rw [show f.precision - 1 + f.spacing magnitude + 1 = f.precision + f.spacing magnitude by
          omega, Nat.pow_add]
        exact Nat.mul_lt_mul_of_pos_right hlt (Nat.two_pow_pos _)
    rw [hl]
    omega

/-! ## Rounding an exact ratio -/

theorem roundHalfEven_mul (n : Nat) {den : Nat} (h : 0 < den) :
    roundHalfEven (n * den) den = n := by
  have hc : compare (2 * (n * den % den)) den = .lt := by
    rw [Nat.mul_mod_left, Nat.mul_zero]
    exact Nat.compare_eq_lt.2 h
  rw [roundHalfEven, hc]
  exact Nat.mul_div_cancel n h

/-- A ratio that is a number of the format is rounded to it. -/
theorem nearest_eq (hf : 1 ≤ f.precision) {magnitude num den : Nat} (hm : magnitude < f.infinity)
    (hd : 0 < den) (h : num * 2 ^ f.unit = f.multiple magnitude * den) :
    f.nearest num den = magnitude := by
  have hr : roundHalfEven (f.multiple magnitude * den) (den * 2 ^ f.spacing magnitude) =
      magnitude - f.spacing magnitude * f.blockSize := by
    rw [multiple, Nat.pow_eq, Nat.mul_assoc, Nat.mul_comm (2 ^ _)]
    exact roundHalfEven_mul _ (Nat.mul_pos hd (Nat.two_pow_pos _))
  have hs := f.spacing_mul_le magnitude
  unfold nearest
  simp only [Nat.pow_eq]
  rw [h, Nat.mul_div_cancel _ hd, log2_multiple hf, hr, Nat.add_sub_cancel' hs]
  exact Nat.min_eq_left (Nat.le_of_lt hm)

theorem nearest_le_infinity (num den : Nat) : f.nearest num den ≤ f.infinity := Nat.min_le_right _ _

theorem ofDecimal_le_infinity (mantissa : Nat) (exponent : Int) :
    f.ofDecimal mantissa exponent ≤ f.infinity := by
  cases exponent with
  | ofNat e =>
    rw [ofDecimal]
    split_ifs
    · exact Nat.zero_le _
    · exact Nat.le_refl _
    · exact nearest_le_infinity _ _
  | negSucc e =>
    rw [ofDecimal]
    split_ifs
    · exact Nat.zero_le _
    · exact nearest_le_infinity _ _

/-! ## Shortest decimals -/

/-- All digits of a finite number read back. -/
theorem ofDecimal_exactDecimal (hf : 1 ≤ f.precision) (hu : 1 ≤ f.unit) {magnitude : Nat}
    (hm : magnitude < f.infinity) :
    f.ofDecimal (f.exactDecimal magnitude).1 (f.exactDecimal magnitude).2 = magnitude := by
  obtain ⟨u, hu⟩ := Nat.exists_eq_add_of_le' hu
  simp only [exactDecimal, hu]
  rw [Int.natCast_succ, ← Int.negSucc_eq, ofDecimal, if_neg (by omega)]
  refine nearest_eq hf hm (Nat.pow_pos (by decide)) ?_
  simp only [Nat.pow_eq, hu]
  rw [Nat.mul_assoc, ← Nat.mul_pow]

theorem roundTie_mem (tie : Tie) (num den : Nat) :
    roundTie tie num den = num / den ∨ roundTie tie num den = num / den + 1 := by
  cases tie with
  | up =>
    unfold roundTie
    split_ifs
    · exact Or.inl rfl
    · exact Or.inr rfl
  | even =>
    rw [roundTie, roundHalfEven]
    cases compare (2 * (num % den)) den with
    | lt => exact Or.inl rfl
    | eq =>
      simp only
      omega
    | gt => exact Or.inr rfl

theorem onGrid?_readsBack {tie : Tie} {magnitude mantissa : Nat} {exponent : Int}
    (h : f.onGrid? tie magnitude exponent = some mantissa) :
    f.ofDecimal mantissa exponent = magnitude := by
  unfold onGrid? at h
  simp only at h
  split at h
  · next hb ha =>
    rw [← Option.some.inj h]
    have ht := roundTie_mem tie (f.steps magnitude exponent).1 (f.steps magnitude exponent).2
    rcases ht with hr | hr
    · rw [hr]
      exact eq_of_beq hb
    · rw [hr]
      exact eq_of_beq ha
  · next hb _ =>
    rw [← Option.some.inj h]
    exact eq_of_beq hb
  · next _ ha =>
    rw [← Option.some.inj h]
    exact eq_of_beq ha
  · cases h

theorem search?_readsBack {tie : Tie} {magnitude count : Nat} {exponent : Int} {d : Nat × Int}
    (h : f.search? tie magnitude count exponent = some d) : f.ofDecimal d.1 d.2 = magnitude := by
  induction count generalizing exponent with
  | zero => cases h
  | succ count ih =>
    unfold search? at h
    cases hg : f.onGrid? tie magnitude exponent with
    | none =>
      rw [hg] at h
      exact ih h
    | some mantissa =>
      rw [hg] at h
      rw [← Option.some.inj h]
      exact onGrid?_readsBack hg

/-- The decimal that is written for a finite number reads back. -/
theorem ofDecimal_shortest (hf : 1 ≤ f.precision) (hu : 1 ≤ f.unit) (tie : Tie) {magnitude : Nat}
    (hm : magnitude < f.infinity) :
    f.ofDecimal (f.shortest tie magnitude).1 (f.shortest tie magnitude).2 = magnitude := by
  unfold shortest
  split_ifs with h0
  · rw [h0]
    rfl
  · cases hs : f.search? tie magnitude f.precision (f.topExponent magnitude) with
    | none => exact ofDecimal_exactDecimal hf hu hm
    | some d => exact search?_readsBack hs

end InfixAlgebra.BinaryFormat
