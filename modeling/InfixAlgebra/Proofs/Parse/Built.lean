import InfixAlgebra.Datum.Codec
import InfixAlgebra.Expr.Operands
import InfixAlgebra.Proofs.Parse.Canonical

/-!
# What can be built

Expressions come from numbers, from names, from operators and operands, from texts and from data;
they are flattened and their operands are edited.  What comes out of any number of such steps is
`Built`, and that is exactly what is well formed (`built_iff_wellFormed`).
-/

namespace InfixAlgebra.Expr

variable {α : Type u}

/-! ## Well-formed expressions -/

section WellFormed

variable {op : Operator} {e d e' : Expr α} {es : List (Expr α)}

theorem wellFormed_node :
    WellFormed (node op es) ↔ op.Admits es.length ∧ ∀ e ∈ es, WellFormed e := by
  constructor
  · rintro ⟨hn, ha⟩
    rw [hasArity_node] at ha
    rw [terminals_node] at hn
    exact ⟨ha.1, fun e he => ⟨fun s hs => hn s (List.mem_flatMap.2 ⟨e, he, hs⟩), ha.2 e he⟩⟩
  · rintro ⟨ha, hes⟩
    constructor
    · intro s hs
      rw [terminals_node] at hs
      obtain ⟨e, he, hs⟩ := List.mem_flatMap.1 hs
      exact (hes e he).isName s hs
    · exact hasArity_node.2 ⟨ha, fun e he => (hes e he).admits⟩

theorem wellFormed_number (x : α) : WellFormed (.number x) :=
  ⟨fun s hs => (by cases List.mem_singleton.1 hs), hasArity_of_isTerminal rfl⟩

theorem wellFormed_symbol {s : Symbol} (h : Symbol.IsName s.name) :
    WellFormed (.symbol s : Expr α) := by
  refine ⟨fun s' hs => ?_, hasArity_of_isTerminal rfl⟩
  obtain rfl := Expr.symbol.inj (List.mem_singleton.1 hs)
  exact h

theorem ofOperands_eq_ok_iff :
    Expr.ofOperands op es = .ok e ↔ op.Admits es.length ∧ e = .node op es := by
  match es with
  | [] => simp [Expr.ofOperands, Operator.Admits]
  | [d] =>
    unfold Expr.ofOperands
    split_ifs with ho
    · subst ho
      simp [Operator.Admits, Expr.negation, eq_comm]
    · simp [Operator.Admits, ho]
  | d :: d' :: ds => simp [Expr.ofOperands, Operator.Admits, eq_comm]

theorem wellFormed_of_ofOperands (hes : ∀ d ∈ es, WellFormed d)
    (h : Expr.ofOperands op es = .ok e) : WellFormed e := by
  obtain ⟨ha, rfl⟩ := ofOperands_eq_ok_iff.1 h
  exact wellFormed_node.2 ⟨ha, hes⟩

theorem wellFormed_of_ofHead {head : Head α} {es : Option (List (Expr α))}
    (hs : ∀ s, head = .symbol s → Symbol.IsName s.name)
    (hes : ∀ ds ∈ es, ∀ d ∈ ds, WellFormed d) (h : Expr.ofHead head es = .ok e) :
    WellFormed e := by
  match head, es with
  | .operator op, some es => exact wellFormed_of_ofOperands (hes es rfl) h
  | .operator op, none => cases h
  | .number x, some es => cases h
  | .symbol s, some es => cases h
  | .number x, none =>
    obtain rfl := Except.ok.inj h
    exact wellFormed_number x
  | .symbol s, none =>
    obtain rfl := Except.ok.inj h
    exact wellFormed_symbol (hs s rfl)

namespace WellFormed

theorem hasArity_pos (h : WellFormed e) : HasArity (fun _ n => 0 < n) e :=
  h.admits.mono fun _ _ hn => hn.pos

theorem negation (h : WellFormed e) : WellFormed (.negation e) :=
  wellFormed_node.2 ⟨Or.inr ⟨rfl, rfl⟩, List.forall_mem_singleton.2 h⟩

theorem binary {l r : Expr α} (op : Operator) (hl : WellFormed l) (hr : WellFormed r) :
    WellFormed (.binary op l r) :=
  wellFormed_node.2
    ⟨Or.inl (Nat.le_refl 2), List.forall_mem_cons.2 ⟨hl, List.forall_mem_singleton.2 hr⟩⟩

theorem flatten (h : WellFormed e) : WellFormed e.flatten where
  isName s hs := h.isName s (terminals_flatten e ▸ hs)
  admits := hasArity_flatten (fun _ _ hn => hn.pos) (fun _ _ _ _ => Operator.Admits.mono) h.admits

theorem of_mem_operands (h : WellFormed e) (hd : d ∈ e.operands) : WellFormed d := by
  cases e with
  | number x => cases hd
  | symbol s => cases hd
  | node op es => exact (wellFormed_node.1 h).2 d hd

/-- An expression is built again from what stands at its root and its operands. -/
theorem ofHead_head (h : WellFormed e) :
    Expr.ofHead e.head (if e.isTerminal then none else some e.operands) = .ok e := by
  cases e with
  | number x => rfl
  | symbol s => rfl
  | node op es => exact ofOperands_eq_ok_iff.2 ⟨(wellFormed_node.1 h).1, rfl⟩

variable [Numeric α]

theorem append {more : List (Expr α)} (h : WellFormed e) (hm : ∀ d ∈ more, WellFormed d) :
    WellFormed (e.append more).2 := by
  obtain ⟨-, fault, ha⟩ | ⟨op, es, rfl, ha⟩ := append_cases e more
  · rwa [ha]
  · rw [ha]
    rw [wellFormed_node] at h ⊢
    have hl : es.length ≤ (es ++ more).length := by
      rw [List.length_append]
      omega
    exact ⟨h.1.mono hl, List.forall_mem_append.2 ⟨h.2, hm⟩⟩

/-- An expression from which an operand is removed, or cannot be. -/
theorem remains (h : WellFormed e) (index : Nat) : WellFormed (e.remove index).2 := by
  obtain ⟨-, fault, hr⟩ | ⟨op, es, d, rfl, -, hl, hr⟩ := remove_cases e index
  · rwa [hr]
  · rw [hr]
    rw [wellFormed_node] at h
    refine wellFormed_node.2 ⟨Or.inl ?_, fun d hd => h.2 d (List.mem_of_mem_eraseIdx hd)⟩
    have := List.le_length_eraseIdx es index
    omega

theorem removed {index : Nat} (h : WellFormed e) (hr : (e.remove index).1 = .ok d) :
    WellFormed d := by
  obtain ⟨-, fault, he⟩ | ⟨op, es, d', rfl, hi, -, he⟩ := remove_cases e index
  · rw [he] at hr
    cases hr
  · rw [he] at hr
    obtain rfl := Except.ok.inj hr
    exact h.of_mem_operands (List.mem_of_getElem? hi)

end WellFormed

end WellFormed

/-! ## What can be built -/

variable [Numeric α]

/-- The expressions that can be built. -/
inductive Built : Expr α → Prop
  | number (x) : Built (.number x)
  | ofName {name e} : Expr.ofName name = .ok e → Built e
  | ofHead {head es e} : (∀ s, head = .symbol s → Symbol.IsName s.name) →
      (∀ ds ∈ es, ∀ d ∈ ds, Built d) → Expr.ofHead head es = .ok e → Built e
  | ofTag {tag es e} : (∀ ds ∈ es, ∀ d ∈ ds, Built d) → Expr.ofTag tag es = .ok e → Built e
  | ofOperands {op es e} : (∀ d ∈ es, Built d) → Expr.ofOperands op es = .ok e → Built e
  | negation {e} : Built e → Built (.negation e)
  | binary {op l r} : Built l → Built r → Built (.binary op l r)
  | parse {text e} : Expr.parse text = .ok e → Built e
  | read {datum e} : Expr.codec.read datum = .ok e → Built e
  | flatten {e} : Built e → Built e.flatten
  | operand {e d} : Built e → d ∈ e.operands → Built d
  | append {e more} : Built e → (∀ d ∈ more, Built d) → Built (e.append more).2
  | removed {e index d} : Built e → (e.remove index).1 = .ok d → Built d
  | remains {e} (index) : Built e → Built (e.remove index).2

/-- A datum is read if it is a string that writes an expression. -/
theorem codec_read_eq_ok_iff {datum : Datum} {e : Expr α} :
    codec.read datum = .ok e ↔ ∃ text, datum = .string text ∧ parse text = .ok e := by
  cases datum with
  | string text =>
    rw [Codec.read_string_eq_ok_iff]
    simp [codec]
  | other shape => simp [Codec.read]

variable {e : Expr α}

/-- What can be built is well formed. -/
theorem Built.wellFormed (h : Built e) : WellFormed e := by
  induction h with
  | number x => exact wellFormed_number x
  | @ofName name e h =>
    obtain ⟨s, hs, rfl⟩ := Except.map_eq_ok_iff.1 h
    obtain ⟨hn, rfl⟩ := Symbol.ofName_eq_ok_iff.1 hs
    exact wellFormed_symbol hn
  | ofHead hs _ h ih => exact wellFormed_of_ofHead hs ih h
  | @ofTag tag es e _ h ih =>
    unfold Expr.ofTag at h
    cases ho : Operator.ofText tag with
    | error fault =>
      rw [ho] at h
      cases h
    | ok op =>
      rw [ho] at h
      have hs : ∀ s, (Head.operator op : Head α) = .symbol s → Symbol.IsName s.name := nofun
      exact wellFormed_of_ofHead hs ih h
  | ofOperands _ h ih => exact wellFormed_of_ofOperands ih h
  | negation _ ih => exact ih.negation
  | binary _ _ ihl ihr => exact ihl.binary _ ihr
  | parse h => exact wellFormed_of_parse h
  | read h =>
    obtain ⟨text, -, h⟩ := codec_read_eq_ok_iff.1 h
    exact wellFormed_of_parse h
  | flatten _ ih => exact ih.flatten
  | operand _ hd ih => exact ih.of_mem_operands hd
  | append _ _ ih ihm => exact ih.append ihm
  | removed _ h ih => exact ih.removed h
  | remains index _ ih => exact ih.remains index

/-- Exactly the well-formed expressions can be built. -/
theorem built_iff_wellFormed : Built e ↔ WellFormed e := by
  refine ⟨Built.wellFormed, fun h => ?_⟩
  induction e with
  | number x => exact .number x
  | symbol s =>
    have hs := h.isName s (List.mem_singleton.2 rfl)
    have ho : Symbol.ofName s.name = .ok s := Symbol.ofName_eq_ok_iff.2 ⟨hs, rfl⟩
    refine .ofName (Except.map_eq_ok_iff.2 ⟨s, ho, rfl⟩)
  | node op es ih =>
    rw [wellFormed_node] at h
    exact .ofOperands (fun d hd => ih d hd (h.2 d hd)) (ofOperands_eq_ok_iff.2 ⟨h.1, rfl⟩)

end InfixAlgebra.Expr
