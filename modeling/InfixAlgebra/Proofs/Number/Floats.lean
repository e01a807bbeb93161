import InfixAlgebra.Proofs.Number.Lawful
import InfixAlgebra.Proofs.Number.Positional
import Mathlib

/-!
# Floats are lawful numbers

Both number types are spelled by the words of a binary format, so what has been shown of these words
carries over (`LawfulNumeric.ofWords`).  They are uniquely spelled because `-0` is not plain
(`UniquelySpelled.ofZeros`).  What is left to the floats themselves is that they are known by their
words, that words without a sign stay so, and what the equality of floats is.

The lemmas on these three are in `Batteries.Data.Float.Lemmas`, which no module of `Mathlib` but the
whole brings in.
-/

namespace InfixAlgebra

open Float.Model

/-- A number type that is spelled by the words of a binary format is lawful. -/
theorem LawfulNumeric.ofWords {α : Type u} [Numeric α] [SignBit α] [BEq α] {f : BinaryFormat}
    (hf : 1 ≤ f.precision) (hu : 1 ≤ f.unit) (toWord : α → Nat) (ofWord : Nat → α)
    (chars : ∀ x : α, Numeric.chars x = f.chars .plain (toWord x))
    (ofChars? : ∀ cs, (Numeric.ofChars? cs : Option α) = (f.ofChars? cs).map ofWord)
    (isFinite : ∀ x : α, Numeric.isFinite x = f.isFinite (toWord x))
    (isNegative : ∀ x : α, SignBit.isNegative x = decide (f.signPlace ≤ toWord x))
    (ofWord_toWord : ∀ x, ofWord (toWord x) = x)
    (toWord_ofWord : ∀ w ≤ f.infinity, toWord (ofWord w) < f.signPlace)
    (beq_self : ∀ x : α, Numeric.isFinite x = true → (x == x) = true)
    (isFinite_of_beq : ∀ x y : α, (x == y) = true → Numeric.isFinite x = true →
      Numeric.isFinite y = true) : LawfulNumeric α := by
  have lt_infinity {x : α} (h : IsPlain x) : toWord x < f.infinity := by
    obtain ⟨hx, hn⟩ := h
    rw [isNegative, decide_eq_false_iff_not, Nat.not_le] at hn
    rw [isFinite, BinaryFormat.isFinite, decide_eq_true_eq, Nat.mod_eq_of_lt hn] at hx
    exact hx
  refine ⟨fun h => ?_, fun h hc => ?_, fun {x} h => ?_, fun {cs x} hc hx => ?_, fun {x} hx hn => ?_,
    fun h => beq_self _ h, fun h => isFinite_of_beq _ _ h⟩
  · rw [chars, BinaryFormat.chars_plain (lt_infinity h)]
    exact Numeral.positional_ne_nil _ _
  · rw [chars, BinaryFormat.chars_plain (lt_infinity h)] at hc
    exact Numeral.isNumeric_positional _ _ _ hc
  · rw [ofChars?, chars, BinaryFormat.ofChars?_chars hf hu (lt_infinity h), Option.map_some,
      ofWord_toWord]
  · rw [ofChars?] at hx
    obtain ⟨w, hw, rfl⟩ := Option.map_eq_some_iff.1 hx
    rw [isNegative, decide_eq_false_iff_not, Nat.not_le]
    exact toWord_ofWord w (BinaryFormat.le_infinity_of_ofChars? hc hw)
  · rw [isFinite] at hx
    rw [isNegative, decide_eq_true_eq] at hn
    rw [chars]
    exact BinaryFormat.minus_mem_chars hx hn

/-- If only zeros of different signs are equal without being the same number, the text of a plain
number is that of its equals. -/
theorem UniquelySpelled.ofZeros {α : Type u} [Numeric α] [SignBit α] [BEq α] (zero negZero : α)
    (hz : SignBit.isNegative negZero = true)
    (eq_or_of_beq : ∀ x y : α, (x == y) = true →
      x = y ∨ x = zero ∧ y = negZero ∨ x = negZero ∧ y = zero) : UniquelySpelled α where
  chars_eq_of_beq {x y} hx hy h := by
    have hn : ¬ IsPlain negZero := fun hp => Bool.false_ne_true (hp.2.symm.trans hz)
    obtain rfl | ⟨-, rfl⟩ | ⟨rfl, -⟩ := eq_or_of_beq x y h
    · rfl
    · exact absurd hy hn
    · exact absurd hx hn

/-- What is equal to a finite number is finite if only two finite zeros are equal without being the
same number. -/
theorem isFinite_of_beq_of_zeros {α : Type u} [Numeric α] [BEq α] (zero negZero : α)
    (hz : Numeric.isFinite zero = true) (hn : Numeric.isFinite negZero = true)
    (eq_or_of_beq : ∀ x y : α, (x == y) = true →
      x = y ∨ x = zero ∧ y = negZero ∨ x = negZero ∧ y = zero) (x y : α) (h : (x == y) = true)
    (hx : Numeric.isFinite x = true) : Numeric.isFinite y = true := by
  obtain rfl | ⟨-, rfl⟩ | ⟨-, rfl⟩ := eq_or_of_beq x y h
  · exact hx
  · exact hn
  · exact hz

/-- Equality that distinguishes all numbers but two zeros, and refuses what is not a number, is
lawful. -/
theorem LawfullyCompared.ofZeros {α : Type u} [BEq α] [NotANumber α] (zero negZero nan : α)
    (beq_iff : ∀ x y : α, (x == y) = true ↔
      x ≠ nan ∧ y ≠ nan ∧ (x = y ∨ x = zero ∧ y = negZero ∨ x = negZero ∧ y = zero))
    (isNaN_iff : ∀ x : α, NotANumber.isNaN x = false ↔ x ≠ nan) : LawfullyCompared α where
  symm {x y} h := by
    rw [beq_iff] at h ⊢
    obtain ⟨hx, hy, rfl | h | h⟩ := h
    · exact ⟨hy, hx, .inl rfl⟩
    · exact ⟨hy, hx, .inr (.inr h.symm)⟩
    · exact ⟨hy, hx, .inr (.inl h.symm)⟩
  trans {x y z} h h' := by
    rw [beq_iff] at h h' ⊢
    obtain ⟨hx, -, h⟩ := h
    obtain ⟨-, hz, h'⟩ := h'
    refine ⟨hx, hz, ?_⟩
    rcases h with rfl | ⟨rfl, rfl⟩ | ⟨rfl, rfl⟩
    · exact h'
    · rcases h' with rfl | ⟨-, rfl⟩ | ⟨-, rfl⟩ <;> simp
    · rcases h' with rfl | ⟨-, rfl⟩ | ⟨-, rfl⟩ <;> simp
  beq_self_iff {x} := by
    rw [beq_iff, isNaN_iff]
    exact ⟨fun h => h.1, fun h => ⟨h, h, .inl rfl⟩⟩

/-- A word is kept, or becomes the canonical one that is not a number. -/
theorem toNat_pack_unpack_lt (spec : Format) (hs : 2 ≤ spec.exponentBits)
    (b : BitVec spec.numBits) {n : Nat} (hb : b.toNat < n)
    (hn : (UnpackedFloat.packedNaN spec).toNat < n) :
    ((UnpackedFloat.unpack spec b).pack spec).toNat < n := by
  rw [UnpackedFloat.pack_unpack b hs]
  split_ifs
  · exact hn
  · exact hb

/-! ## Numbers of 64 bits -/

theorem Float.isFinite_ne_nan {x : Float} (h : Numeric.isFinite x = true) : x ≠ Float.nan := by
  rintro rfl
  exact absurd h (by decide +kernel)

theorem Float.toNat_toBits_ofBits {w : Nat} (hw : w ≤ BinaryFormat.double.infinity) :
    (Float.ofBits (.ofNat w)).toBits.toNat < BinaryFormat.double.signPlace := by
  have hb : w % 2 ^ 64 < BinaryFormat.double.signPlace :=
    Nat.lt_of_le_of_lt (Nat.mod_le w _) (Nat.lt_of_le_of_lt hw (by decide))
  exact toNat_pack_unpack_lt .binary64 (by decide) (UInt64.ofNat w).toBitVec hb (by decide)

instance : LawfulNumeric Float :=
  .ofWords (f := .double) (by decide) (by decide) (fun x => x.toBits.toNat)
    (fun w => .ofBits (.ofNat w)) (fun _ => rfl) (fun _ => rfl) (fun _ => rfl) (fun _ => rfl)
    (fun x => by rw [UInt64.ofNat_toNat, Float.ofBits_toBits])
    (fun _ => Float.toNat_toBits_ofBits)
    (fun x h => Float.beq_self_iff.2 (Float.isFinite_ne_nan h))
    (isFinite_of_beq_of_zeros 0 (-0) (by decide +kernel) (by decide +kernel)
      fun _ _ h => (Float.beq_iff_ne_nan_and_eq.1 h).2.2)

instance : UniquelySpelled Float :=
  .ofZeros 0 (-0) (by decide +kernel) fun _ _ h => (Float.beq_iff_ne_nan_and_eq.1 h).2.2

instance : LawfullyCompared Float :=
  .ofZeros 0 (-0) Float.nan (fun _ _ => Float.beq_iff_ne_nan_and_eq) fun x => by
    show x.isNaN = false ↔ _
    rw [Float.isNaN_eq_decide_eq_nan, decide_eq_false_iff_not]

/-! ## Numbers of 32 bits -/

theorem Float32.isFinite_ne_nan {x : Float32} (h : Numeric.isFinite x = true) :
    x ≠ Float32.nan := by
  rintro rfl
  exact absurd h (by decide +kernel)

theorem Float32.toNat_toBits_ofBits {w : Nat} (hw : w ≤ BinaryFormat.single.infinity) :
    (Float32.ofBits (.ofNat w)).toBits.toNat < BinaryFormat.single.signPlace := by
  have hb : w % 2 ^ 32 < BinaryFormat.single.signPlace :=
    Nat.lt_of_le_of_lt (Nat.mod_le w _) (Nat.lt_of_le_of_lt hw (by decide))
  exact toNat_pack_unpack_lt .binary32 (by decide) (UInt32.ofNat w).toBitVec hb (by decide)

instance : LawfulNumeric Float32 :=
  .ofWords (f := .single) (by decide) (by decide) (fun x => x.toBits.toNat)
    (fun w => .ofBits (.ofNat w)) (fun _ => rfl) (fun _ => rfl) (fun _ => rfl) (fun _ => rfl)
    (fun x => by rw [UInt32.ofNat_toNat, Float32.ofBits_toBits])
    (fun _ => Float32.toNat_toBits_ofBits)
    (fun x h => Float32.beq_self_iff.2 (Float32.isFinite_ne_nan h))
    (isFinite_of_beq_of_zeros 0 (-0) (by decide +kernel) (by decide +kernel)
      fun _ _ h => (Float32.beq_iff_ne_nan_and_eq.1 h).2.2)

instance : UniquelySpelled Float32 :=
  .ofZeros 0 (-0) (by decide +kernel) fun _ _ h => (Float32.beq_iff_ne_nan_and_eq.1 h).2.2

instance : LawfullyCompared Float32 :=
  .ofZeros 0 (-0) Float32.nan (fun _ _ => Float32.beq_iff_ne_nan_and_eq) fun x => by
    show x.isNaN = false ↔ _
    rw [Float32.isNaN_eq_decide_eq_nan, decide_eq_false_iff_not]

end InfixAlgebra
