import InfixAlgebra.Proofs.Grammar.Derivation
import InfixAlgebra.Proofs.Machine.Instruction

/-!
# The loose grammar

In the loose grammar an atom is replaced by any number of operands, also none, one after the other.
`DerivesLoosely k ts code` says that the tokens `ts` derive at the level `k` (1 for sums, 2 for
products, 3 for unary expressions, 4 for operands), and that `code` are the instructions for them:
each operator is reduced after what stands on its left and on its right.

Every derivation of the grammar is loose, and its instructions assemble its tree
(`Derives.yieldsTree`).  A loose derivation is one of the grammar if no operands are juxtaposed and
no operand is missing (`DerivesLoosely.exists_derives`).  If its instructions assemble one tree,
there are as many missing operands as juxtapositions (`DerivesLoosely.missingOperands_eq`).
-/

namespace InfixAlgebra

variable {α : Type u}

/-- The derivations of the loose grammar, with their instructions. -/
inductive DerivesLoosely : Nat → List (Token α) → List (Instruction α) → Prop
  | empty : DerivesLoosely 4 [] []
  | number {ts code} (x) : DerivesLoosely 4 ts code →
      DerivesLoosely 4 (ts ++ [.number x]) (code ++ [.shift (.number x) rfl])
  | symbol {ts code} (s) : DerivesLoosely 4 ts code →
      DerivesLoosely 4 (ts ++ [.symbol s]) (code ++ [.shift (.symbol s) rfl])
  | group {ts code us code'} : DerivesLoosely 4 ts code → DerivesLoosely 1 us code' → us ≠ [] →
      DerivesLoosely 4 (ts ++ .opening :: (us ++ [.closing])) (code ++ code')
  | negation {ts code} : DerivesLoosely 3 ts code →
      DerivesLoosely 3 (.operator .sub :: ts) (code ++ [.reduce .negation])
  | binary {op ls l rs r} : DerivesLoosely (op.precedence + 1) ls l → EndsOperand ls →
      DerivesLoosely op.precedence rs r →
      DerivesLoosely op.precedence (ls ++ .operator op :: rs) (l ++ r ++ [.reduce (.binary op)])
  | weaken {k ts code} : DerivesLoosely (k + 1) ts code → DerivesLoosely k ts code

namespace DerivesLoosely

theorem mono {k n : Nat} {ts : List (Token α)} {code : List (Instruction α)}
    (h : DerivesLoosely k ts code) (hn : n ≤ k) : DerivesLoosely n ts code := by
  induction hn with
  | refl => exact h
  | step _ ih => exact ih h.weaken

/-- Operands in a row end with an operand. -/
theorem endsOperand_of_le {k : Nat} {ts : List (Token α)} {code : List (Instruction α)}
    (h : DerivesLoosely k ts code) (hk : 4 ≤ k) : ts = [] ∨ EndsOperand ts := by
  induction h with
  | empty => exact Or.inl rfl
  | number x _ _ => exact Or.inr (endsOperand_concat.2 rfl)
  | symbol s _ _ => exact Or.inr (endsOperand_concat.2 rfl)
  | @group ts _ us _ _ _ _ _ _ =>
    exact Or.inr (EndsOperand.append ts (EndsOperand.append (.opening :: us) ⟨.closing, rfl, rfl⟩))
  | negation _ _ => omega
  | @binary op _ _ _ _ _ _ _ _ _ =>
    have := op.precedence_le
    omega
  | weaken _ ih => exact ih (by omega)

theorem endsOperand {ts : List (Token α)} {code : List (Instruction α)}
    (h : DerivesLoosely 4 ts code) : ts = [] ∨ EndsOperand ts :=
  h.endsOperand_of_le (Nat.le_refl 4)

theorem head?_ne_closing {k : Nat} {ts : List (Token α)} {code : List (Instruction α)}
    (h : DerivesLoosely k ts code) : ts.head? ≠ some .closing := by
  induction h with
  | empty => simp
  | @number ts _ _ _ ih | @symbol ts _ _ _ ih | @group ts _ _ _ _ _ _ ih _ =>
    cases ts with
    | nil => simp
    | cons t ts => simpa using ih
  | negation _ _ => simp
  | @binary _ ls _ _ _ _ he _ ih _ =>
    cases ls with
    | nil => exact absurd rfl he.ne_nil
    | cons t ls => simpa using ih
  | weaken _ ih => exact ih

end DerivesLoosely

/-! ## Derivations of the grammar are loose -/

/-- The level of a category. -/
def Category.level : Category → Nat
  | .sum => 1
  | .product => 2
  | .unary => 3
  | .atom => 4

/-- Loose instructions put one tree on top of any others. -/
def YieldsTree (k : Nat) (ts : List (Token α)) (e : Expr α) : Prop :=
  ∃ code, DerivesLoosely k ts code ∧ ∀ es, Instruction.assemble es code = some (e :: es)

namespace YieldsTree

variable {k : Nat} {ts ls rs : List (Token α)} {e l r : Expr α}

/-- What instructions assemble from nothing they put on top of any other trees. -/
theorem of_assemble {code : List (Instruction α)} (h : DerivesLoosely k ts code)
    (ha : Instruction.assemble [] code = some [e]) : YieldsTree k ts e :=
  ⟨code, h, Instruction.assemble_append_below ha⟩

theorem mono {n : Nat} (h : YieldsTree k ts e) (hn : n ≤ k) : YieldsTree n ts e := by
  obtain ⟨code, hc, ha⟩ := h
  exact ⟨code, hc.mono hn, ha⟩

theorem negation (h : YieldsTree 3 ts e) :
    YieldsTree 3 (.operator .sub :: ts) (.negation e) := by
  obtain ⟨code, hc, ha⟩ := h
  refine ⟨_, hc.negation, fun es => ?_⟩
  rw [Instruction.assemble_append, ha]
  rfl

theorem binary (op : Operator) (hl : YieldsTree (op.precedence + 1) ls l) (he : EndsOperand ls)
    (hr : YieldsTree op.precedence rs r) :
    YieldsTree op.precedence (ls ++ .operator op :: rs) (.binary op l r) := by
  obtain ⟨code, hc, ha⟩ := hl
  obtain ⟨code', hc', ha'⟩ := hr
  refine ⟨_, hc.binary he hc', fun es => ?_⟩
  rw [Instruction.assemble_append, Instruction.assemble_append, ha, Option.bind_some, ha']
  rfl

theorem parens (h : YieldsTree 1 ts e) (hts : ts ≠ []) :
    YieldsTree 4 (.opening :: (ts ++ [.closing])) e := by
  obtain ⟨code, hc, ha⟩ := h
  exact ⟨code, DerivesLoosely.empty.group hc hts, ha⟩

end YieldsTree

/-- Every derivation is loose, and its instructions assemble its tree. -/
theorem Derives.yieldsTree {c : Category} {ts : List (Token α)} {e : Expr α} (h : Derives c ts e) :
    YieldsTree c.level ts e := by
  induction h with
  | sumOfProduct _ ih | productOfUnary _ ih | unaryOfAtom _ ih => exact ih.mono (by decide)
  | sum ho hl _ ihl ihr =>
    rcases ho with rfl | rfl
    · exact YieldsTree.binary .add ihl hl.endsOperand ihr
    · exact YieldsTree.binary .sub ihl hl.endsOperand ihr
  | product ho hl _ ihl ihr =>
    rcases ho with rfl | rfl
    · exact YieldsTree.binary .mul ihl hl.endsOperand ihr
    · exact YieldsTree.binary .div ihl hl.endsOperand ihr
  | negation _ ih => exact ih.negation
  | power hl _ ihl ihr => exact YieldsTree.binary .pow ihl hl.endsOperand ihr
  | number x => exact ⟨_, DerivesLoosely.empty.number x, fun _ => rfl⟩
  | symbol s => exact ⟨_, DerivesLoosely.empty.symbol s, fun _ => rfl⟩
  | parens h ih => exact ih.parens h.endsOperand.ne_nil

/-! ## What tokens and instructions have in common -/

namespace DerivesLoosely

variable {k : Nat} {ts : List (Token α)} {code : List (Instruction α)}

/-- The terminals are shifted in their order. -/
theorem filterMap_terminal? (h : DerivesLoosely k ts code) :
    code.filterMap Instruction.terminal? = ts.filterMap Token.terminal? := by
  induction h with
  | empty => rfl
  | number x _ ih | symbol s _ ih =>
    rw [List.filterMap_append, List.filterMap_append, ih]
    rfl
  | group _ _ _ ih ih' => simp [List.filterMap_cons, ih, ih', Token.terminal?]
  | negation _ ih => simp [List.filterMap_cons, ih, Token.terminal?, Instruction.terminal?]
  | binary _ _ _ ihl ihr =>
    simp [List.filterMap_cons, ihl, ihr, Token.terminal?, Instruction.terminal?]
  | weaken _ ih => exact ih

/-- There is one reduction for every operator. -/
theorem countP_isOp (op : Operator) (h : DerivesLoosely k ts code) :
    code.countP (Instruction.isOp op) = ts.countP (Token.isOp op) := by
  induction h with
  | empty => rfl
  | number x _ ih | symbol s _ ih =>
    rw [List.countP_append, List.countP_append, ih]
    rfl
  | group _ _ _ ih ih' => simp [ih, ih', Token.isOp]
  | negation _ ih => simp [ih, Token.isOp, Instruction.isOp, List.countP_cons, eq_comm]
  | binary _ _ _ ihl ihr =>
    simp [ihl, ihr, Token.isOp, Instruction.isOp, List.countP_cons]
  | weaken _ ih => exact ih

end DerivesLoosely

/-! ## Counting operands -/

namespace Instruction

def isShift : Instruction α → Bool
  | .shift .. => true
  | .reduce _ => false

def isBinary : Instruction α → Bool
  | .reduce (.binary _) => true
  | _ => false

theorem length_apply {i : Instruction α} {es es' : List (Expr α)} (h : i.apply es = some es') :
    es'.length + i.isBinary.toNat = es.length + i.isShift.toNat := by
  match i, es with
  | .shift e _, es =>
    obtain rfl := Option.some.inj h
    rfl
  | .reduce .negation, e :: es =>
    obtain rfl := Option.some.inj h
    rfl
  | .reduce (.binary op), r :: l :: es =>
    obtain rfl := Option.some.inj h
    rfl

/-- A shift adds a tree, and a binary reduction takes one away. -/
theorem length_assemble {code : List (Instruction α)} {es es' : List (Expr α)}
    (h : assemble es code = some es') :
    es'.length + code.countP isBinary = es.length + code.countP isShift := by
  induction code generalizing es with
  | nil =>
    rw [Option.some.inj h]
    rfl
  | cons i code ih =>
    obtain ⟨es₁, h₁, h₂⟩ := Option.bind_eq_some_iff.1 h
    have hi := length_apply h₁
    have hc := ih h₂
    rw [List.countP_cons, List.countP_cons]
    cases hb : i.isBinary <;> cases hs : i.isShift <;> simp [hb, hs] at hi ⊢ <;> omega

end Instruction

section Operands

theorem toNat_not_add_toNat (b : Bool) : (!b).toNat + b.toNat = 1 := by
  cases b <;> rfl

theorem isEmpty_append_cons {β : Type u} (xs : List β) (y : β) (ys : List β) :
    (xs ++ y :: ys).isEmpty = false := by
  simp

variable {ts us : List (Token α)}

/-- One more operand after operands in a row is a juxtaposition unless it is the first. -/
theorem juxtapositions_append_operand {u : Token α} (us : List (Token α))
    (hu : u.startsOperand = true) (h : ts = [] ∨ EndsOperand ts) :
    juxtapositions (ts ++ u :: us) =
      juxtapositions ts + (!ts.isEmpty).toNat + juxtapositions (u :: us) := by
  rcases h with rfl | h
  · simp [juxtapositions, countBefore]
  · rw [juxtapositions_append h, List.isEmpty_eq_false_iff.2 h.ne_nil]
    simp [hu]

/-- An operand that is not juxtaposed to operands in a row is the first one. -/
theorem eq_nil_of_juxtapositions_eq_zero {u : Token α} (hu : u.startsOperand = true)
    (h : ts = [] ∨ EndsOperand ts) (hj : juxtapositions (ts ++ u :: us) = 0) : ts = [] := by
  rw [juxtapositions_append_operand us hu h] at hj
  cases ts with
  | nil => rfl
  | cons t ts =>
    rw [List.isEmpty_cons, Bool.not_false, Bool.toNat_true] at hj
    omega

theorem missingOperands_append_operand (h : ts = [] ∨ EndsOperand ts) :
    missingOperands (ts ++ us) = missingOperands ts + missingOperands us := by
  rcases h with rfl | h
  · simp [missingOperands, countBefore]
  · exact missingOperands_append h

theorem missingOperands_concat_operand {u : Token α} (hu : u.isOperator = false)
    (h : ts = [] ∨ EndsOperand ts) : missingOperands (ts ++ [u]) = missingOperands ts := by
  rw [missingOperands_append_operand h, missingOperands_singleton, hu]
  rfl

end Operands

namespace DerivesLoosely

variable {k : Nat} {ts : List (Token α)} {code : List (Instruction α)}

theorem closes_head? (h : DerivesLoosely k ts code) : closes ts.head? = ts.isEmpty := by
  have hc := h.head?_ne_closing
  cases ts with
  | nil => rfl
  | cons t ts => cases t <;> first | rfl | exact absurd rfl hc

/-- Every place for an operand has one operand, none, or juxtaposed ones, and there is one place
more than there are binary operators. -/
theorem countP_isShift (h : DerivesLoosely k ts code) :
    code.countP Instruction.isShift + (ts.isEmpty.toNat + missingOperands ts) =
      code.countP Instruction.isBinary + 1 + juxtapositions ts := by
  induction h with
  | empty => rfl
  | @number ts _ x h ih | @symbol ts _ s h ih =>
    have he := h.endsOperand
    have hb := toNat_not_add_toNat ts.isEmpty
    rw [missingOperands_concat_operand rfl he, juxtapositions_append_operand [] rfl he,
      juxtapositions_singleton]
    simp [Instruction.isShift, Instruction.isBinary, isEmpty_append_cons]
    omega
  | @group ts _ us _ h h' hus ih ih' =>
    have he := h.endsOperand
    have hb := toNat_not_add_toNat ts.isEmpty
    rw [juxtapositions_append_operand _ rfl he, juxtapositions_cons rfl,
      juxtapositions_concat_closing, missingOperands_append_operand he,
      missingOperands_cons, missingOperands_concat_closing]
    rw [List.isEmpty_eq_false_iff.2 hus] at ih'
    simp [lacksOperand, Token.isOperator, isEmpty_append_cons] at ih' ⊢
    omega
  | negation h ih =>
    rw [List.countP_append, List.countP_append, juxtapositions_cons rfl, missingOperands_cons,
      lacksOperand, h.closes_head?]
    simpa [Instruction.isShift, Instruction.isBinary, Token.isOperator] using ih
  | binary hl he hr ihl ihr =>
    rw [juxtapositions_append he, missingOperands_append he, juxtapositions_cons rfl,
      missingOperands_cons, lacksOperand, hr.closes_head?]
    rw [List.isEmpty_eq_false_iff.2 he.ne_nil] at ihl
    simp [Instruction.isShift, Instruction.isBinary, Token.isOperator, Token.startsOperand,
      isEmpty_append_cons] at ihl ihr ⊢
    omega
  | weaken _ ih => exact ih

/-- If the instructions assemble one tree, missing and juxtaposed operands are as many. -/
theorem missingOperands_eq {e : Expr α} (h : DerivesLoosely k ts code) (hts : ts ≠ [])
    (ha : Instruction.assemble [] code = some [e]) : missingOperands ts = juxtapositions ts := by
  have hc := h.countP_isShift
  have hl := Instruction.length_assemble ha
  rw [List.isEmpty_eq_false_iff.2 hts] at hc
  simp at hc hl
  omega

end DerivesLoosely

/-! ## Loose derivations without missing or juxtaposed operands -/

/-- A loose derivation in which no operands are missing or juxtaposed is one of the grammar. -/
theorem DerivesLoosely.exists_derives {k : Nat} {ts : List (Token α)} {code : List (Instruction α)}
    (h : DerivesLoosely k ts code) (hts : ts ≠ []) (hj : juxtapositions ts = 0)
    (hm : missingOperands ts = 0) : ∃ e, Derives (.ofLevel k) ts e := by
  induction h with
  | empty => exact absurd rfl hts
  | @number ts _ x h _ =>
    obtain rfl := eq_nil_of_juxtapositions_eq_zero rfl h.endsOperand hj
    exact ⟨_, .number x⟩
  | @symbol ts _ s h _ =>
    obtain rfl := eq_nil_of_juxtapositions_eq_zero rfl h.endsOperand hj
    exact ⟨_, .symbol s⟩
  | @group ts _ us _ h h' hus _ ih =>
    obtain rfl := eq_nil_of_juxtapositions_eq_zero rfl h.endsOperand hj
    rw [List.nil_append, juxtapositions_cons rfl, juxtapositions_concat_closing] at hj
    rw [List.nil_append, missingOperands_cons, missingOperands_concat_closing] at hm
    obtain ⟨e, he⟩ := ih hus hj (by omega)
    exact ⟨e, he.parens⟩
  | @negation ts _ h ih =>
    rw [juxtapositions_cons rfl] at hj
    rw [missingOperands_cons, lacksOperand, h.closes_head?, Nat.add_eq_zero_iff] at hm
    have hts : ts ≠ [] := by
      rintro rfl
      simp [Token.isOperator] at hm
    obtain ⟨e, he⟩ := ih hts hj hm.2
    exact ⟨_, he.negation⟩
  | @binary op ls _ rs _ hl hls hr ihl ihr =>
    rw [juxtapositions_append hls, juxtapositions_cons rfl, Nat.add_eq_zero_iff] at hj
    rw [missingOperands_append hls, missingOperands_cons, lacksOperand, hr.closes_head?,
      Nat.add_eq_zero_iff, Nat.add_eq_zero_iff] at hm
    have hrs : rs ≠ [] := by
      rintro rfl
      simp [Token.isOperator] at hm
    obtain ⟨l, hl⟩ := ihl hls.ne_nil (by omega) hm.1
    obtain ⟨r, hr⟩ := ihr hrs hj.2 hm.2.2
    exact ⟨_, hl.binary hr⟩
  | weaken _ ih =>
    obtain ⟨e, he⟩ := ih hts hj hm
    exact ⟨e, he.ofLevel_succ⟩

end InfixAlgebra
