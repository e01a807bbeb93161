import InfixAlgebra.Proofs.Machine.Faults

/-!
# Reading and the grammar

Reading a text builds the tree of its tokens and flattens it.  If no two operands are juxtaposed,
the text is read exactly if its tokens derive from the grammar, up to the limit of levels
(`parse_of_not_juxtaposed`).

If two operands are juxtaposed, the text is not of the grammar, and yet it may be read: an operator
without a right operand takes the operand that is left over.  `parse_of_juxtaposed` says which of
these texts are read, and as what.
-/

namespace InfixAlgebra.Expr

variable {α : Type u} [Numeric α] {text : String} {ts : List (Token α)} {e : Expr α}

theorem parse_of_build_ok {m : Machine α} (ht : Token.ofText text = .ok ts)
    (hb : Machine.build ts = .ok (m, e)) : parse text = .ok e.flatten := by
  rw [parse, read, ht]
  simp only [hb]

theorem parse_of_build_error {halt : Halt α} (ht : Token.ofText text = .ok ts)
    (hb : Machine.build ts = .error halt) :
    (parse text : Except Fault (Expr α)) = .error halt.fault := by
  rw [parse, read, ht]
  simp only [hb]

/-- What is read is the flattened tree that the machine builds. -/
theorem parse_eq_ok_iff :
    parse text = .ok e ↔
      ∃ ts m r, Token.ofText text = .ok ts ∧ Machine.build ts = .ok (m, r) ∧ e = r.flatten := by
  constructor
  · intro h
    cases ht : (Token.ofText text : Except Fault (List (Token α))) with
    | error fault =>
      rw [parse, read, ht] at h
      cases h
    | ok ts =>
      cases hb : Machine.build ts with
      | error halt =>
        rw [parse_of_build_error ht hb] at h
        cases h
      | ok x =>
        rw [parse_of_build_ok ht hb] at h
        exact ⟨ts, x.1, x.2, rfl, hb, (Except.ok.inj h).symm⟩
  · rintro ⟨ts, m, r, ht, hb, rfl⟩
    exact parse_of_build_ok ht hb

/-- What is read has a loose derivation whose instructions assemble one tree. -/
theorem parse_eq_ok_iff_derivesLoosely (ht : Token.ofText text = .ok ts) :
    parse text = .ok e ↔ ∃ code r, ts ≠ [] ∧ DerivesLoosely 1 ts code ∧
      Instruction.assemble [] code = some [r] ∧ r.depth ≤ depthLimit ∧ e = r.flatten := by
  rw [parse_eq_ok_iff]
  constructor
  · rintro ⟨ts', m, r, ht', hb, rfl⟩
    obtain rfl := Except.ok.inj (ht.symm.trans ht')
    obtain ⟨hts, code, hd, ha, hr⟩ := Machine.exists_assemble_of_build hb
    exact ⟨code, r, hts, hd, ha, hr, rfl⟩
  · rintro ⟨code, r, hts, hd, ha, hr, rfl⟩
    obtain ⟨m, hb⟩ := Machine.build_eq_ok hd hts ha hr
    exact ⟨ts, m, r, ht, hb, rfl⟩

/-- If the tokens of a text cannot be read, the fault is due to them. -/
theorem isDueTo_of_parse_error {fault : Fault} (ht : Token.ofText text = .ok ts)
    (h : (parse text : Except Fault (Expr α)) = .error fault) : fault.IsDueTo ts := by
  cases hb : Machine.build ts with
  | error halt =>
    rw [parse_of_build_error ht hb] at h
    rw [← Except.error.inj h]
    exact Machine.failsWith_build ts halt hb
  | ok x =>
    rw [parse_of_build_ok ht hb] at h
    cases h

theorem exists_parse_error (ht : Token.ofText text = .ok ts)
    (h : ∀ e : Expr α, parse text ≠ .ok e) :
    ∃ fault, (parse text : Except Fault (Expr α)) = .error fault ∧ fault.kind = .reading := by
  cases hp : (parse text : Except Fault (Expr α)) with
  | error fault => exact ⟨fault, rfl, (isDueTo_of_parse_error ht hp).kind⟩
  | ok e => exact absurd hp (h e)

/-! ## Texts of the grammar -/

/-- The tree of a derivation is read, and flattened. -/
theorem parse_eq_ok_of_derives (ht : Token.ofText text = .ok ts) (h : Derives .sum ts e)
    (hd : e.depth ≤ depthLimit) : parse text = .ok e.flatten := by
  obtain ⟨code, hc, ha⟩ := h.yieldsTree
  exact (parse_eq_ok_iff_derivesLoosely ht).2 ⟨code, e, h.endsOperand.ne_nil, hc, ha [], hd, rfl⟩

theorem parse_eq_tooDeep_of_derives (ht : Token.ofText text = .ok ts) (h : Derives .sum ts e)
    (hd : depthLimit < e.depth) :
    (parse text : Except Fault (Expr α)) = .error (.tooDeep depthLimit) := by
  obtain ⟨code, hc, ha⟩ := h.yieldsTree
  obtain ⟨rs, hb⟩ := Machine.build_eq_tooDeep hc h.endsOperand.ne_nil (ha []) hd
  exact parse_of_build_error ht hb

/-- What is read without juxtaposed operands derives from the grammar. -/
theorem exists_derives_of_parse (ht : Token.ofText text = .ok ts) (hj : ¬ Juxtaposed ts)
    (h : parse text = .ok e) : ∃ r, Derives .sum ts r := by
  obtain ⟨code, r, hts, hd, ha, -, -⟩ := (parse_eq_ok_iff_derivesLoosely ht).1 h
  have hz := juxtapositions_eq_zero_iff.2 hj
  exact hd.exists_derives hts hz ((hd.missingOperands_eq hts ha).trans hz)

/-- Tokens without juxtaposed operands are read as the flattened tree of their derivation, unless it
has more than 512 levels; without a derivation they are not read. -/
theorem parse_of_not_juxtaposed (ht : Token.ofText text = .ok ts) (hj : ¬ Juxtaposed ts) :
    (∀ r : Expr α, Derives .sum ts r → r.depth ≤ 512 → parse text = .ok r.flatten) ∧
    (∀ r : Expr α, Derives .sum ts r → 512 < r.depth →
      ∃ fault, (parse text : Except Fault (Expr α)) = .error fault ∧
        fault.report = ⟨.reading, "malformed expression, nested deeper than 512 levels"⟩) ∧
    ((¬ ∃ r : Expr α, Derives .sum ts r) →
      ∃ fault, (parse text : Except Fault (Expr α)) = .error fault ∧ fault.kind = .reading) := by
  refine ⟨fun r h hd => parse_eq_ok_of_derives ht h hd, fun r h hd => ?_, fun h => ?_⟩
  · exact ⟨_, parse_eq_tooDeep_of_derives ht h hd, by decide⟩
  · exact exists_parse_error ht fun e he => h (exists_derives_of_parse ht hj he)

theorem parse_negated_power :
    (parse "-x^y*z" : Except Fault (Expr Float)) =
      .ok (node .mul [node .sub [node .pow [.symbol ⟨"x"⟩, .symbol ⟨"y"⟩]],
        .symbol ⟨"z"⟩]) := by
  have hj : ¬ Juxtaposed ([.operator .sub, .symbol ⟨"x"⟩, .operator .pow, .symbol ⟨"y"⟩,
      .operator .mul, .symbol ⟨"z"⟩] : List (Token Float)) :=
    juxtapositions_eq_zero_iff.1 rfl
  refine (parse_of_not_juxtaposed rfl hj).1 _ (.sumOfProduct (.product (.inl rfl)
    (.negation (.power (.symbol _) (.unaryOfAtom (.symbol _))))
    (.productOfUnary (.unaryOfAtom (.symbol _))))) ?_
  decide

/-! ## Juxtaposed operands -/

/-- A text with juxtaposed operands is read as its loose instructions assemble it, and only if as
many operators lack an operand as operands are juxtaposed. -/
theorem parse_of_juxtaposed (ht : Token.ofText text = .ok ts) (hj : Juxtaposed ts) :
    (∀ e : Expr α, parse text = .ok e ↔ ∃ code r, DerivesLoosely 1 ts code ∧
      Instruction.assemble [] code = some [r] ∧ r.depth ≤ 512 ∧ e = r.flatten) ∧
    ((∀ e : Expr α, parse text ≠ .ok e) →
      ∃ fault, (parse text : Except Fault (Expr α)) = .error fault ∧ fault.kind = .reading) ∧
    ∀ e : Expr α, parse text = .ok e → missingOperands ts = juxtapositions ts := by
  have hts : ts ≠ [] := by
    rintro rfl
    exact Nat.lt_irrefl 0 (juxtapositions_pos_iff.2 hj)
  refine ⟨fun e => ?_, exists_parse_error ht, fun e he => ?_⟩
  · rw [parse_eq_ok_iff_derivesLoosely ht]
    exact ⟨fun ⟨code, r, _, h⟩ => ⟨code, r, h⟩, fun ⟨code, r, h⟩ => ⟨code, r, hts, h⟩⟩
  · obtain ⟨code, r, -, hd, ha, -, -⟩ := (parse_eq_ok_iff_derivesLoosely ht).1 he
    exact hd.missingOperands_eq hts ha

theorem parse_operand_after_operand :
    (parse "x y+" : Except Fault (Expr Float)) =
      .ok (node .add [.symbol ⟨"x"⟩, .symbol ⟨"y"⟩]) := by
  have hj : Juxtaposed ([.symbol ⟨"x"⟩, .symbol ⟨"y"⟩, .operator .add] : List (Token Float)) :=
    juxtapositions_pos_iff.1 (by decide)
  have hl : DerivesLoosely (Operator.add.precedence + 1)
      ([.symbol ⟨"x"⟩, .symbol ⟨"y"⟩] : List (Token Float)) _ :=
    ((DerivesLoosely.empty.symbol _).symbol _).mono (by decide)
  have he : EndsOperand ([.symbol ⟨"x"⟩] ++ [.symbol ⟨"y"⟩] : List (Token Float)) :=
    endsOperand_concat.2 rfl
  have hr : DerivesLoosely Operator.add.precedence ([] : List (Token Float)) [] :=
    DerivesLoosely.empty.mono (by decide)
  exact ((parse_of_juxtaposed rfl hj).1 _).2 ⟨_, _, hl.binary he hr, rfl, by decide, rfl⟩

/-- Not every text with juxtaposed operands is refused. -/
theorem exists_parse_of_juxtaposed :
    ∃ (text : String) (ts : List (Token Float)) (e : Expr Float),
      Token.ofText text = .ok ts ∧ Juxtaposed ts ∧ parse text = .ok e :=
  ⟨"x y+", [.symbol ⟨"x"⟩, .symbol ⟨"y"⟩, .operator .add], _, rfl,
    juxtapositions_pos_iff.1 (by decide), rfl⟩

end InfixAlgebra.Expr
