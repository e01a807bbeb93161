import Mathlib.Data.String.Basic

/-!
# The order of texts by their bytes

Texts are ordered by their characters, that is, by code points.  In UTF-8 a character is a leading
byte, which grows with the code point and tells the number of bytes that follow, and bytes of six
bits each.  So the texts have the same order by their bytes (`bytes_lt_bytes`).
-/

namespace InfixAlgebra.Text

/-- The bytes of a text. -/
def bytes (s : String) : List UInt8 := s.toUTF8.data.toList

theorem bytes_eq_flatMap (s : String) : bytes s = s.toList.flatMap String.utf8EncodeChar := by
  conv_lhs => rw [← String.ofList_toList (s := s)]
  rw [bytes, String.toUTF8_eq_toByteArray, String.toByteArray_ofList, List.utf8Encode]
  exact List.toList_data_toByteArray

/-! ## The bytes of a character -/

/-- The first byte of the character at a code point. -/
def leading (v : Nat) : Nat :=
  if v ≤ 127 then v
  else if v ≤ 2047 then v / 64 + 192
  else if v ≤ 65535 then v / 64 ^ 2 + 224
  else v / 64 ^ 3 + 240

/-- How many bytes follow the first one. -/
def following (v : Nat) : Nat :=
  if v ≤ 127 then 0 else if v ≤ 2047 then 1 else if v ≤ 65535 then 2 else 3

/-- The last `k` bytes of the character at a code point, which have six bits of it each. -/
def trailing : Nat → Nat → List UInt8
  | 0, _ => []
  | k + 1, v => trailing k (v / 64) ++ [.ofNat (v % 64 + 128)]

theorem toNat_val_lt (c : Char) : c.val.toNat < 1114112 := by
  rcases c.valid with h | h
  · exact Nat.lt_trans h (by decide)
  · exact h.2

theorem leading_lt {v : Nat} (h : v < 1114112) : leading v < 256 := by
  unfold leading
  split_ifs <;> omega

theorem utf8EncodeChar_eq (c : Char) : String.utf8EncodeChar c =
    .ofNat (leading c.val.toNat) :: trailing (following c.val.toNat) c.val.toNat := by
  have hc := toNat_val_lt c
  unfold String.utf8EncodeChar leading following
  generalize c.val.toNat = v at hc
  simp only
  split_ifs
  · rfl
  · rw [show v / 64 % 32 + 192 = v / 64 + 192 by omega]
    rfl
  · rw [show v / 4096 % 16 + 224 = v / 64 ^ 2 + 224 by omega]
    rfl
  · rw [show v / 262144 % 8 + 240 = v / 64 ^ 3 + 240 by omega,
      show v / 4096 % 64 = v / 64 / 64 % 64 by omega]
    rfl

/-! ## The order of characters -/

theorem ofNat_lt_ofNat {m n : Nat} (h : m < n) (hn : n < 256) : UInt8.ofNat m < UInt8.ofNat n := by
  rw [UInt8.lt_iff_toNat_lt, UInt8.toNat_ofNat', UInt8.toNat_ofNat']
  omega

/-- Of two code points the greater one has the greater first byte, unless they have the same first
byte, and then as many bytes follow. -/
theorem leading_lt_or_eq {m n : Nat} (h : m < n) : leading m < leading n ∨
    leading m = leading n ∧ following m = following n ∧
      m / 64 ^ following m = n / 64 ^ following m := by
  unfold leading following
  split_ifs <;> omega

theorem trailing_append_lt {k m n : Nat} (h : m < n) (hq : m / 64 ^ k = n / 64 ^ k)
    (s t : List UInt8) : trailing k m ++ s < trailing k n ++ t := by
  induction k generalizing m n s t with
  | zero =>
    rw [Nat.pow_zero, Nat.div_one, Nat.div_one] at hq
    exact absurd hq h.ne
  | succ k ih =>
    rw [trailing, trailing, List.append_assoc, List.append_assoc]
    rcases Nat.lt_or_ge (m / 64) (n / 64) with hlt | hge
    · rw [pow_succ', ← Nat.div_div_eq_div_mul, ← Nat.div_div_eq_div_mul] at hq
      exact ih hlt hq _ _
    · have heq : m / 64 = n / 64 := by omega
      have hlast : UInt8.ofNat (m % 64 + 128) < .ofNat (n % 64 + 128) :=
        ofNat_lt_ofNat (by omega) (by omega)
      rw [heq]
      exact List.append_left_lt (List.cons_lt_cons_iff.2 (.inl hlast))

/-- Characters have the order of their bytes, whatever follows them. -/
theorem utf8EncodeChar_append_lt {c d : Char} (h : c < d) (s t : List UInt8) :
    String.utf8EncodeChar c ++ s < String.utf8EncodeChar d ++ t := by
  have hd := leading_lt (toNat_val_lt d)
  rw [utf8EncodeChar_eq, utf8EncodeChar_eq, List.cons_append, List.cons_append,
    List.cons_lt_cons_iff]
  rcases leading_lt_or_eq (m := c.val.toNat) (n := d.val.toNat) h with hl | ⟨hl, hf, hq⟩
  · exact .inl (ofNat_lt_ofNat hl hd)
  · rw [hl, ← hf]
    exact .inr ⟨rfl, trailing_append_lt h hq s t⟩

/-! ## The order of texts -/

theorem flatMap_utf8EncodeChar_lt {cs ds : List Char} (h : cs < ds) :
    cs.flatMap String.utf8EncodeChar < ds.flatMap String.utf8EncodeChar := by
  induction h with
  | @nil d ds =>
    rw [List.flatMap_nil, List.flatMap_cons, utf8EncodeChar_eq]
    exact List.nil_lt_cons _ _
  | rel h => exact utf8EncodeChar_append_lt h _ _
  | cons _ ih => exact List.append_left_lt ih

/-- Texts have the order of their bytes. -/
theorem bytes_lt_bytes {s t : String} (h : s < t) : bytes s < bytes t := by
  rw [bytes_eq_flatMap, bytes_eq_flatMap]
  exact flatMap_utf8EncodeChar_lt (String.lt_iff_toList_lt.1 h)

end InfixAlgebra.Text
