import InfixAlgebra.Proofs.Expr.Equality
import InfixAlgebra.Proofs.Expr.Signs
import InfixAlgebra.Proofs.Expr.Sums
import InfixAlgebra.Proofs.Number.Floats
import InfixAlgebra.Proofs.Parse.Built

/-!
# Reading what was written

The text of an expression can be read back if its numbers are plain: it is read as the flattened
expression, up to the limit of levels (`parse_text`).  So an expression that was built is read back
as an equal one exactly if it is canonical and has at most 512 levels when it is read
(`parse_text_iff_of_built`).

What is read from a text is canonical.  It may yet have too many levels, because flattening widens
nodes, and a wide node is read as a chain: `parse_text_of_parse` says when it is read back, and
`exists_parse_text_ne` that it need not be.
-/

namespace InfixAlgebra.Expr

variable {α : Type u}

section Terminals

variable {e : Expr α} {s : Symbol} {n : Nat}

theorem wellFormed_of_terminals_eq (h : e.terminals = List.replicate n (.symbol s))
    (hs : Symbol.IsName s.name) (ha : HasArity Operator.Admits e) : WellFormed e := by
  constructor
  · intro s' hs'
    rw [h] at hs'
    rw [Expr.symbol.inj (List.eq_of_mem_replicate hs')]
    exact hs
  · exact ha

theorem isPlain_of_terminals_eq [Numeric α] [SignBit α]
    (h : e.terminals = List.replicate n (.symbol s)) :
    ∀ x, .number x ∈ e.terminals → IsPlain x := by
  intro x hx
  rw [h] at hx
  cases List.eq_of_mem_replicate hx

end Terminals

variable [Numeric α] [SignBit α] [BEq α] [LawfulNumeric α] {e e' : Expr α} {text : String}

/-! ## Reading texts -/

/-- The text of an expression with plain numbers is read as the expression, flattened. -/
theorem parse_text (h : WellFormed e) (hx : ∀ x, .number x ∈ e.terminals → IsPlain x)
    (hr : HasArity Operator.Reads e) (hd : e.readDepth ≤ depthLimit) :
    parse e.text = .ok e.flatten := by
  rw [← flatten_nested hr]
  exact parse_eq_ok_of_derives (ofText_text h.admits hx h.isName) (derives_tokens h.admits)
    (depth_nested h.hasArity_pos ▸ hd)

theorem parse_text_tooDeep (h : WellFormed e) (hx : ∀ x, .number x ∈ e.terminals → IsPlain x)
    (hd : depthLimit < e.readDepth) :
    (parse e.text : Except Fault (Expr α)) = .error (.tooDeep depthLimit) :=
  parse_eq_tooDeep_of_derives (ofText_text h.admits hx h.isName) (derives_tokens h.admits)
    (depth_nested h.hasArity_pos ▸ hd)

theorem Canonical.parse_text (h : Canonical e) (hd : e.readDepth ≤ depthLimit) :
    parse e.text = .ok e := by
  rw [Expr.parse_text h.toWellFormed h.isPlain h.reads hd, flatten_of_isFlat h.isFlat]

theorem Canonical.beq_self (h : Canonical e) : (e == e) = true :=
  Expr.beq_self fun x hx => LawfulNumeric.beq_self (h.isPlain x hx).1

/-- The numbers of what is read back as an equal expression are plain: the minus of a negative
number would be read as an operator. -/
theorem isPlain_of_parse_text (h : WellFormed e) (hp : parse e.text = .ok e')
    (he : (e' == e) = true) {x : α} (hx : .number x ∈ e.terminals) : IsPlain x := by
  obtain ⟨d, hd, hdx⟩ := exists_of_mem_right (forall₂_terminals he) hx
  have hf : Numeric.isFinite x = true := by
    cases d with
    | number y => exact LawfulNumeric.isFinite_of_beq hdx ((canonical_of_parse hp).isPlain y hd).1
    | symbol s => cases hdx
    | node op es => cases hdx
  refine ⟨hf, ?_⟩
  by_contra hn
  rw [Bool.not_eq_false] at hn
  have hc : 0 < (Numeric.chars x).count Operator.sub.char :=
    List.count_pos_iff.2 (LawfulNumeric.minus_mem_chars hf hn)
  have hs : (Numeric.chars x).count Operator.sub.char ≤
      (e.terminals.map fun d => d.chars.count Operator.sub.char).sum :=
    List.le_sum_of_mem (List.mem_map.2 ⟨_, hx, rfl⟩)
  have ho := occurrences_add_le_count .sub h.hasArity_pos
  have hp : occurrences .sub e' = e.text.toList.count Operator.sub.char :=
    occurrences_of_parse hp .sub
  rw [occurrences_eq_of_beq .sub he, Expr.text, String.toList_ofList] at hp
  omega

/-- An expression is read back as an equal one if it is canonical, up to the limit of levels. -/
theorem exists_parse_text_iff (h : WellFormed e) :
    (∃ e', parse e.text = .ok e' ∧ (e' == e) = true) ↔ Canonical e ∧ e.readDepth ≤ depthLimit := by
  constructor
  · rintro ⟨e', hp, he⟩
    have hc := canonical_of_parse hp
    have hx : ∀ x, .number x ∈ e.terminals → IsPlain x :=
      fun x hx => isPlain_of_parse_text h hp he hx
    refine ⟨⟨h, hx, hc.reads.of_beq he, hc.isFlat.of_beq he⟩, Nat.le_of_not_lt fun hd => ?_⟩
    rw [parse_text_tooDeep h hx hd] at hp
    cases hp
  · rintro ⟨hc, hd⟩
    exact ⟨e, hc.parse_text hd, hc.beq_self⟩

/-! ## Sums -/

/-- A sum may be read from a text though it has more levels than can be read back. -/
theorem parse_splitSum {s : Symbol} (n m : Nat) (hs : Symbol.IsName s.name)
    (hd : max (n + 2) (m + 1) < depthLimit) :
    parse (splitSum s (n + 2) (m + 1) : Expr α).text =
      .ok (wideSum s (n + 2 + (m + 1)) : Expr α) := by
  have ht := terminals_splitSum (α := α) (s := s) (n + 2) (m + 1)
  have hw : WellFormed (splitSum s (n + 2) (m + 1) : Expr α) :=
    wellFormed_of_terminals_eq ht hs (hasArity_splitSum (Or.inl (Nat.le_add_left 2 n))
      (Or.inl (Nat.le_add_left 2 m)))
  have hr : HasArity Operator.Reads (splitSum s (n + 2) (m + 1) : Expr α) :=
    hasArity_splitSum (.of_isOrdered rfl _) (.of_isOrdered rfl _)
  rw [← flatten_splitSum]
  refine parse_text hw (isPlain_of_terminals_eq ht) hr ?_
  rw [readDepth_splitSum]
  exact hd

/-! ## Expressions that are read back -/

/-- A built expression is read back as an equal one exactly if it is flat, with plain numbers,
ordered nodes as they are read, and at most 512 levels. -/
theorem parse_text_iff_of_built (h : Built e) :
    ((∃ e', parse e.text = .ok e' ∧ (e' == e) = true) ↔
      (∀ x, .number x ∈ e.terminals → IsPlain x) ∧ HasArity Operator.Reads e ∧ IsFlat e ∧
        e.readDepth ≤ 512) ∧
    ((∀ x, .number x ∈ e.terminals → IsPlain x) → HasArity Operator.Reads e → IsFlat e →
      512 < e.readDepth → ∃ fault, (parse e.text : Except Fault (Expr α)) = .error fault ∧
        fault.report = ⟨.reading, "malformed expression, nested deeper than 512 levels"⟩) := by
  have hw := h.wellFormed
  constructor
  · rw [Expr.exists_parse_text_iff hw]
    constructor
    · rintro ⟨hc, hd⟩
      exact ⟨hc.isPlain, hc.reads, hc.isFlat, hd⟩
    · rintro ⟨hx, hr, hf, hd⟩
      exact ⟨⟨hw, hx, hr, hf⟩, hd⟩
  · intro hx _ _ hd
    exact ⟨_, parse_text_tooDeep hw hx hd, by decide⟩

theorem parse_wide_sum :
    Built (wideSum ⟨"x"⟩ 513 : Expr Float) ∧
      ∃ fault,
        (parse (wideSum ⟨"x"⟩ 513 : Expr Float).text : Except _ (Expr Float)) = .error fault ∧
        fault.report = ⟨.reading, "malformed expression, nested deeper than 512 levels"⟩ := by
  have ht := terminals_wideSum (α := Float) (s := ⟨"x"⟩) 513
  have hb : Built (wideSum ⟨"x"⟩ 513 : Expr Float) :=
    built_iff_wellFormed.2
      (wellFormed_of_terminals_eq ht (by decide) (hasArity_wideSum (by decide)))
  have hd : 512 < (wideSum ⟨"x"⟩ 513 : Expr Float).readDepth := by
    rw [readDepth_wideSum]
    decide
  exact ⟨hb, (parse_text_iff_of_built hb).2 (isPlain_of_terminals_eq ht)
    (hasArity_wideSum (.of_isOrdered rfl 513)) (isFlat_wideSum 513) hd⟩

/-- What is read is read back from its text and its datum exactly if it has at most 512 levels then;
otherwise both are refused. -/
theorem parse_text_of_parse (h : parse text = .ok e) :
    ((∃ e', parse e.text = .ok e' ∧ (e' == e) = true) ↔ e.readDepth ≤ 512) ∧
    ((∃ e', codec.read (codec.write e) = .ok e' ∧ (e' == e) = true) ↔ e.readDepth ≤ 512) ∧
    (512 < e.readDepth → ∃ fault, (parse e.text : Except Fault (Expr α)) = .error fault ∧
      (codec.read (codec.write e) : Except Refusal (Expr α)) =
        .error (.content "Parse error - " fault) ∧
      fault.report = ⟨.reading, "malformed expression, nested deeper than 512 levels"⟩) := by
  have hc := canonical_of_parse h
  have hi : (∃ e', parse e.text = .ok e' ∧ (e' == e) = true) ↔ e.readDepth ≤ 512 := by
    rw [exists_parse_text_iff hc.toWellFormed]
    exact ⟨And.right, fun hd => ⟨hc, hd⟩⟩
  have hr (e' : Expr α) : codec.read (codec.write e) = .ok e' ↔ parse e.text = .ok e' :=
    Codec.read_string_eq_ok_iff
  refine ⟨hi, ?_, fun hd => ?_⟩
  · rw [← hi]
    exact exists_congr fun e' => and_congr_left' (hr e')
  · have hp := parse_text_tooDeep hc.toWellFormed hc.isPlain hd
    exact ⟨_, hp, Codec.read_string_eq_error_iff.2 ⟨_, hp, rfl⟩, by decide⟩

theorem parse_text_sum :
    ∃ e' : Expr Float,
      parse (binary .add (.symbol ⟨"x"⟩) (.symbol ⟨"y"⟩) : Expr Float).text = .ok e' ∧
        (e' == binary .add (.symbol ⟨"x"⟩) (.symbol ⟨"y"⟩)) = true := by
  have h : parse "x+y" = .ok (binary .add (.symbol ⟨"x"⟩) (.symbol ⟨"y"⟩) : Expr Float) := rfl
  exact (parse_text_of_parse h).1.2 (by decide)

/-- Not everything that is read from a text is read back from its own text. -/
theorem exists_parse_text_ne :
    ∃ (text : String) (e : Expr Float), parse text = .ok e ∧
      ¬ ∃ e', parse e.text = .ok e' ∧ (e' == e) = true := by
  have hs : Symbol.IsName "x" := by decide
  have hp := parse_splitSum (α := Float) (s := ⟨"x"⟩) 255 255 hs (by decide)
  refine ⟨_, _, hp, fun h => ?_⟩
  have hd := ((exists_parse_text_iff (canonical_of_parse hp).toWellFormed).1 h).2
  rw [readDepth_wideSum] at hd
  exact absurd hd (by decide)

end InfixAlgebra.Expr
