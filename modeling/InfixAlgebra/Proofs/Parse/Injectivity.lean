import InfixAlgebra.Proofs.Expr.Readability
import InfixAlgebra.Proofs.Parse.RoundTrip

/-!
# Texts tell expressions apart

Well-formed expressions with plain numbers have different texts if they are different
(`eq_of_text_eq`).  That holds also of texts with too many levels to be read back, so it does not
follow from reading them; it follows from their tokens, which are written by one expression only.

For what is read from texts this means that two expressions are equal exactly if they are written
alike (`beq_iff_text_eq_of_parse`).
-/

namespace InfixAlgebra

variable {α : Type u} [Numeric α] [SignBit α] [BEq α] [LawfulNumeric α]

/-- Plain numbers that are equal are the same number. -/
theorem IsPlain.eq_of_beq [UniquelySpelled α] {x y : α} (hx : IsPlain x) (hy : IsPlain y)
    (h : (x == y) = true) : x = y := by
  have hc := congrArg (Numeric.ofChars? (α := α)) (UniquelySpelled.chars_eq_of_beq hx hy h)
  rw [LawfulNumeric.ofChars?_chars hx, LawfulNumeric.ofChars?_chars hy] at hc
  exact Option.some.inj hc

namespace Expr

variable {a b : Expr α}

/-! ## Equal expressions -/

/-- Expressions with plain numbers are the same if they are equal. -/
theorem eq_of_beq_of_isPlain [UniquelySpelled α] (ha : ∀ x, .number x ∈ a.terminals → IsPlain x)
    (hb : ∀ x, .number x ∈ b.terminals → IsPlain x) (h : (a == b) = true) : a = b := by
  induction a generalizing b with
  | number x =>
    cases b with
    | number y =>
      have hx := ha x (List.mem_singleton.2 rfl)
      have hy := hb y (List.mem_singleton.2 rfl)
      rw [hx.eq_of_beq hy h]
    | _ => cases h
  | symbol s =>
    cases b with
    | symbol s' => rw [LawfulBEq.eq_of_beq (show (s == s') = true from h)]
    | _ => cases h
  | node op es ih =>
    cases b with
    | node op' ds =>
      obtain ⟨rfl, hs⟩ := node_beq_node.1 h
      rw [hs.eq]
      intro e he d hd
      apply ih e he
      · exact fun x hx => ha x (mem_terminals_node he hx)
      · exact fun x hx => hb x (mem_terminals_node hd hx)
    | _ => cases h

/-! ## Equal texts -/

/-- Well-formed expressions with plain numbers are known by their texts. -/
theorem eq_of_text_eq (ha : WellFormed a) (hx : ∀ x, .number x ∈ a.terminals → IsPlain x)
    (hb : WellFormed b) (hy : ∀ x, .number x ∈ b.terminals → IsPlain x)
    (h : a.text = b.text) : a = b := by
  have hta : Token.ofText a.text = .ok a.tokens := ofText_text ha.admits hx ha.isName
  have htb : Token.ofText b.text = .ok b.tokens := ofText_text hb.admits hy hb.isName
  rw [h, htb] at hta
  exact tokens_injective ha.hasArity_pos hb.hasArity_pos (Except.ok.inj hta).symm

/-- Two expressions that are read from texts are equal exactly if they are written alike, and stored
alike. -/
theorem beq_iff_text_eq_of_parse [UniquelySpelled α] {s t : String} (hs : parse s = .ok a)
    (ht : parse t = .ok b) :
    ((a == b) = true ↔ a.text = b.text) ∧
      ((a == b) = true ↔ codec.write a = codec.write b) := by
  have ha := canonical_of_parse hs
  have hb := canonical_of_parse ht
  have hi : (a == b) = true ↔ a.text = b.text := by
    constructor
    · intro h
      rw [eq_of_beq_of_isPlain ha.isPlain hb.isPlain h]
    · intro h
      obtain rfl := eq_of_text_eq ha.toWellFormed ha.isPlain hb.toWellFormed hb.isPlain h
      exact beq_self fun x hx => LawfulNumeric.beq_self (ha.isPlain x hx).1
  refine ⟨hi, ?_⟩
  rw [hi, Codec.write, Codec.write, Datum.string.injEq]
  rfl

theorem text_ne_of_wide_sums :
    ∃ (s t : String) (a b : Expr Float), parse s = .ok a ∧ parse t = .ok b ∧
      (parse a.text : Except Fault (Expr Float)) = .error (.tooDeep depthLimit) ∧
      a.text ≠ b.text := by
  have hx : Symbol.IsName "x" := by decide
  have ha := parse_splitSum (α := Float) (s := ⟨"x"⟩) 255 255 hx (by decide)
  have hb := parse_splitSum (α := Float) (s := ⟨"x"⟩) 255 256 hx (by decide)
  have hc := canonical_of_parse ha
  have hd : depthLimit < (wideSum ⟨"x"⟩ 513 : Expr Float).readDepth := by
    rw [readDepth_wideSum]
    decide
  refine ⟨_, _, _, _, ha, hb, parse_text_tooDeep hc.toWellFormed hc.isPlain hd, fun ht => ?_⟩
  have he := (beq_iff_text_eq_of_parse ha hb).1.2 ht
  have hl := (node_beq_node.1 he).2.length_eq
  rw [List.length_replicate, List.length_replicate] at hl
  omega

end Expr

end InfixAlgebra
