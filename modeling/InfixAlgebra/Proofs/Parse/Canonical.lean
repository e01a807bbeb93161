import InfixAlgebra.Proofs.Parse.Grammar
import InfixAlgebra.Proofs.Token.Reading

/-!
# What is read

An expression that is read from a text is canonical: its numbers are plain, its names are valid, its
nodes have the numbers of operands that the grammar gives them, and it is flat
(`canonical_of_parse`).  It has no more levels than the tree that was built (`depth_le_of_parse`).
An operator occurs in it as often as its character in the text, apart from the multiplications of
names that directly follow numbers (`occurrences_of_parse`).
-/

namespace InfixAlgebra.Expr

variable {α : Type u}

/-- Names are valid, and nodes have the numbers of operands that they are built with. -/
structure WellFormed (e : Expr α) : Prop where
  isName : ∀ s, .symbol s ∈ e.terminals → Symbol.IsName s.name
  admits : e.HasArity Operator.Admits

/-- What is read from a text. -/
structure Canonical [Numeric α] [SignBit α] (e : Expr α) : Prop extends WellFormed e where
  isPlain : ∀ x, .number x ∈ e.terminals → IsPlain x
  reads : e.HasArity Operator.Reads
  isFlat : e.IsFlat

section Parse

theorem eq_symbol_of_terminal? {t : Token α} {s : Symbol} (h : t.terminal? = some (.symbol s)) :
    t = .symbol s := by
  cases t with
  | symbol s' => rw [Expr.symbol.inj (Option.some.inj h)]
  | _ => cases h

theorem hasArity_of_assemble {p : Operator → Nat → Prop} (hn : p .sub 1) (hb : ∀ op, p op 2)
    {code : List (Instruction α)} {r : Expr α} (h : Instruction.assemble [] code = some [r]) :
    HasArity p r := by
  have hr := Instruction.forall_of_assemble (motive := HasArity p)
    (fun e he => hasArity_negation.2 ⟨hn, he⟩)
    (fun op l r hl hr => hasArity_binary.2 ⟨hb op, hl, hr⟩)
    (fun e he _ => hasArity_of_isTerminal he) (fun e he => absurd he List.not_mem_nil) h
  exact hr r (List.mem_singleton.2 rfl)

variable [Numeric α] {text : String} {e : Expr α}

/-- What is read is the flattened tree that the instructions for the tokens of the text assemble. -/
theorem exists_assemble_of_parse (h : parse text = .ok e) :
    ∃ ts code r, Token.ofText text = .ok ts ∧ DerivesLoosely 1 ts code ∧
      Instruction.assemble [] code = some [r] ∧ r.depth ≤ depthLimit ∧ e = r.flatten := by
  obtain ⟨ts, m, r, ht, hb, rfl⟩ := parse_eq_ok_iff.1 h
  obtain ⟨-, code, hd, ha, hr⟩ := Machine.exists_assemble_of_build hb
  exact ⟨ts, code, r, ht, hd, ha, hr, rfl⟩

/-- What is read has no more levels than the limit. -/
theorem depth_le_of_parse (h : parse text = .ok e) : e.depth ≤ depthLimit := by
  obtain ⟨-, -, r, -, -, -, hr, rfl⟩ := exists_assemble_of_parse h
  exact Nat.le_trans (depth_flatten_le r) hr

/-- The terminals of what is read are those of the tokens. -/
theorem terminals_of_parse (h : parse text = .ok e) :
    ∃ ts, Token.ofText text = .ok ts ∧ e.terminals = ts.filterMap Token.terminal? := by
  obtain ⟨ts, code, r, ht, hd, ha, -, rfl⟩ := exists_assemble_of_parse h
  have hr := Instruction.flatMap_terminals_assemble ha
  rw [List.reverse_singleton, List.flatMap_singleton, List.reverse_nil, List.flatMap_nil,
    List.nil_append, hd.filterMap_terminal?] at hr
  exact ⟨ts, ht, (terminals_flatten r).trans hr⟩

/-- An operator occurs as often as its character, and `*` also where a name directly follows a
number. -/
theorem occurrences_of_parse (h : parse text = .ok e) (op : Operator) :
    occurrences op e =
      text.toList.count op.char + if op = .mul then Text.factors text.toList else 0 := by
  obtain ⟨ts, code, r, ht, hd, ha, -, rfl⟩ := exists_assemble_of_parse h
  have hp : HasArity (fun _ n => 0 < n) r :=
    hasArity_of_assemble Nat.one_pos (fun _ => Nat.two_pos) ha
  have hs := Instruction.sum_occurrences_assemble op ha
  rw [List.map_singleton, List.sum_singleton, List.map_nil, List.sum_nil, Nat.zero_add,
    hd.countP_isOp, Token.countP_isOp_of_ofText ht op] at hs
  rw [occurrences_flatten op hp, hs]

/-- What is read is well formed. -/
theorem wellFormed_of_parse (h : parse text = .ok e) : WellFormed e := by
  obtain ⟨ts, ht, hm⟩ := terminals_of_parse h
  obtain ⟨-, code, r, -, -, ha, -, rfl⟩ := exists_assemble_of_parse h
  constructor
  · intro s hs
    rw [hm] at hs
    obtain ⟨t, hts, hs⟩ := List.mem_filterMap.1 hs
    exact Token.isName_of_ofText ht (eq_symbol_of_terminal? hs ▸ hts)
  · have hr : HasArity Operator.Admits r :=
      hasArity_of_assemble (Or.inr ⟨rfl, rfl⟩) (fun _ => Or.inl (Nat.le_refl 2)) ha
    exact hasArity_flatten (fun _ _ hn => hn.pos) (fun _ _ _ _ => Operator.Admits.mono) hr

variable [SignBit α]

theorem isPlain_of_terminal? {t : Token α} {x : α} (h : t.IsReadable)
    (hx : t.terminal? = some (.number x)) : IsPlain x := by
  cases t with
  | number y =>
    obtain rfl := Expr.number.inj (Option.some.inj hx)
    exact h
  | _ => cases hx

variable [BEq α] [LawfulNumeric α]

/-- What is read is canonical. -/
theorem canonical_of_parse (h : parse text = .ok e) : e.Canonical := by
  have hw := wellFormed_of_parse h
  obtain ⟨ts, ht, hm⟩ := terminals_of_parse h
  obtain ⟨-, code, r, -, -, ha, -, rfl⟩ := exists_assemble_of_parse h
  have hreads : HasArity (fun op n => op.Reads n ∧ 0 < n) r :=
    hasArity_of_assemble (by decide) (fun op => by cases op <;> decide) ha
  refine ⟨hw, fun x hx => ?_, ?_, isFlat_flatten r⟩
  · rw [hm] at hx
    obtain ⟨t, hts, hx⟩ := List.mem_filterMap.1 hx
    exact isPlain_of_terminal? (Token.isReadable_of_ofText ht t hts) hx
  · refine (hasArity_flatten (fun _ _ hn => hn.2) (fun op n m ho hn hm => ?_) hreads).mono
      fun _ _ hn => hn.1
    exact ⟨.of_isOrdered ho m, Nat.lt_of_lt_of_le hn.2 hm⟩

end Parse

end InfixAlgebra.Expr
