import InfixAlgebra.Expr.Evaluation
import InfixAlgebra.Proofs.Expr.Nodes

/-!
# Values of expressions

What evaluation finds for an expression is a value or none (`value?`).  The value of a negation is
that of its operand, negated; every other node folds its operator over the values of its operands,
where operands without a value do not count (`value?_node`).

An expression has a value exactly if it is live, that is, if it has a number in it or the symbol
that is given a value (`value?_eq_none_iff`).  So the value that is given does not decide whether
there is one.
-/

namespace InfixAlgebra.Expr

variable {α : Type u}

/-! ## Negations -/

theorem isNegation_node_iff {op : Operator} {es : List (Expr α)} :
    (node op es).isNegation = true ↔ op = .sub ∧ es.length = 1 := by
  match op, es with
  | .sub, [] | .sub, [_] | .sub, _ :: _ :: _ => simp [isNegation]
  | .add, _ | .mul, _ | .div, _ | .pow, _ => simp [isNegation]

/-- A node is a negation, or it has more operands or another operator. -/
theorem node_cases (op : Operator) (es : List (Expr α)) :
    (∃ e, node op es = negation e) ∨ (node op es).isNegation = false := by
  by_cases h : (node op es).isNegation = true
  · obtain ⟨rfl, hl⟩ := isNegation_node_iff.1 h
    obtain ⟨e, rfl⟩ := List.length_eq_one_iff.1 hl
    exact Or.inl ⟨e, rfl⟩
  · exact Or.inr (Bool.eq_false_iff.2 h)

/-- Induction on expressions in which negations are a case of their own. -/
@[elab_as_elim]
theorem negationInductionOn {motive : Expr α → Prop} (number : ∀ x, motive (.number x))
    (symbol : ∀ s, motive (.symbol s)) (negation : ∀ e, motive e → motive (.negation e))
    (node : ∀ op es, (Expr.node op es).isNegation = false → (∀ e ∈ es, motive e) →
      motive (.node op es)) (e : Expr α) : motive e := by
  induction e with
  | number x => exact number x
  | symbol s => exact symbol s
  | node op es ih =>
    rcases node_cases op es with ⟨e, he⟩ | hn
    · obtain ⟨rfl, rfl⟩ := Expr.node.inj he
      exact negation e (ih e List.mem_cons_self)
    · exact node op es hn ih

theorem isNegation_of_unordered {op : Operator} (h : op.isOrdered = false) (es : List (Expr α)) :
    (node op es).isNegation = false := by
  rw [Bool.eq_false_iff, ne_eq, isNegation_node_iff]
  rintro ⟨rfl, -⟩
  cases h

theorem isNegation_of_two_le {op : Operator} {es : List (Expr α)} (h : 2 ≤ es.length) :
    (node op es).isNegation = false := by
  rw [Bool.eq_false_iff, ne_eq, isNegation_node_iff]
  omega

/-- Whether a node is a negation depends on its operator and on how many operands it has. -/
theorem isNegation_node_map (op : Operator) (f : Expr α → Expr α) (es : List (Expr α)) :
    (node op (es.map f)).isNegation = (node op es).isNegation := by
  rw [Bool.eq_iff_iff, isNegation_node_iff, isNegation_node_iff, List.length_map]

/-! ## Values -/

section Value

variable [Arithmetic α]

/-- The value of an expression with `value` for the symbol named `name`, if it has one. -/
def value? (name : String) (value : α) (e : Expr α) : Option α := (e.resolve name value).value?

variable (name : String) (value : α)

@[simp] theorem value?_number (x : α) : (number x).value? name value = some x := rfl

@[simp] theorem value?_symbol (s : Symbol) :
    (symbol s).value? name value = if s.name = name then some value else none := rfl

@[simp] theorem value?_negation (e : Expr α) :
    (negation e).value? name value = (e.value? name value).map fun x => -x := rfl

/-- A node that is no negation is resolved from its operands, one by one. -/
theorem resolve_node {op : Operator} {es : List (Expr α)} (h : (node op es).isNegation = false) :
    (node op es).resolve name value =
      ⟨op.fold (es.filterMap (value? name value)),
        es.flatMap fun e => (e.resolve name value).recordsWithin e op⟩ := by
  have hv : (resolveAll name value es).filterMap (fun part => part.2.value?) =
      es.filterMap (value? name value) := by
    rw [resolveAll_eq_map, List.filterMap_map]
    rfl
  have hr : (resolveAll name value es).flatMap (fun part => part.2.recordsWithin part.1 op) =
      es.flatMap fun e => (e.resolve name value).recordsWithin e op := by
    rw [resolveAll_eq_map, List.flatMap_map]
  rw [← hv, ← hr]
  match op, es, h with
  | .sub, [], _ | .sub, _ :: _ :: _, _ => rfl
  | .add, _, _ | .mul, _, _ | .div, _, _ | .pow, _, _ => rfl

/-- The value of a node that is no negation comes from the values of its operands. -/
theorem value?_node {op : Operator} {es : List (Expr α)} (h : (node op es).isNegation = false) :
    (node op es).value? name value = op.fold (es.filterMap (value? name value)) := by
  rw [value?, resolve_node name value h]

/-! ## Outcomes -/

variable {name value} {e : Expr α}

theorem number?_evaluate : (e.evaluate name value).number? = e.value? name value := by
  show (e.evaluate name value).number? = (e.resolve name value).value?
  unfold evaluate
  split <;> simp [Evaluated.number?, *]

theorem evaluate_eq_number_iff {x : α} :
    e.evaluate name value = .number x ↔ e.value? name value = some x := by
  rw [← number?_evaluate]
  cases e.evaluate name value <;> simp [Evaluated.number?]

/-- What is not resolved is kept. -/
theorem evaluate_eq_unresolved_iff {d : Expr α} :
    e.evaluate name value = .unresolved d ↔ e.value? name value = none ∧ d = e := by
  show _ ↔ (e.resolve name value).value? = none ∧ d = e
  unfold evaluate
  split <;> simp [*, eq_comm]

theorem exists_evaluate_eq_unresolved_iff :
    (∃ d, e.evaluate name value = .unresolved d) ↔ e.value? name value = none := by
  simp [evaluate_eq_unresolved_iff]

theorem evaluate_congr {other : String} {b : α} (h : e.value? other b = e.value? name value) :
    e.evaluate other b = e.evaluate name value := by
  cases hv : e.evaluate name value with
  | number x => rwa [evaluate_eq_number_iff, h, ← evaluate_eq_number_iff]
  | unresolved d => rwa [evaluate_eq_unresolved_iff, h, ← evaluate_eq_unresolved_iff]

end Value

/-! ## Live expressions -/

/-- A number, or a symbol of the given name. -/
def isKnown (name : String) : Expr α → Bool
  | .number _ => true
  | .symbol s => s.name = name
  | .node .. => false

/-- There is a number in the expression, or a symbol of the given name. -/
def isLive (name : String) (e : Expr α) : Bool := e.terminals.any (isKnown name)

variable {name : String} {e : Expr α}

theorem isLive_iff :
    e.isLive name = true ↔ (∃ x, .number x ∈ e.terminals) ∨ .symbol ⟨name⟩ ∈ e.terminals := by
  rw [isLive, List.any_eq_true]
  constructor
  · rintro ⟨t, ht, hk⟩
    cases t with
    | number x => exact Or.inl ⟨x, ht⟩
    | symbol s =>
      obtain rfl : s.name = name := of_decide_eq_true hk
      exact Or.inr ht
    | node op es => cases hk
  · rintro (⟨x, hx⟩ | hs)
    · exact ⟨_, hx, rfl⟩
    · exact ⟨_, hs, decide_eq_true rfl⟩

@[simp] theorem isLive_number (x : α) : (number x).isLive name = true := rfl

@[simp] theorem isLive_symbol (s : Symbol) :
    (symbol s : Expr α).isLive name = decide (s.name = name) :=
  Bool.or_false _

@[simp] theorem isLive_negation : (negation e).isLive name = e.isLive name := by
  rw [isLive, terminals_negation, isLive]

/-- A node is live if one of its operands is. -/
theorem isLive_node (op : Operator) (es : List (Expr α)) :
    (node op es).isLive name = es.any (isLive name) := by
  rw [isLive, terminals_node, List.any_flatMap]
  rfl

/-- Flattening keeps the terminals, and so whether an expression is live. -/
theorem isLive_flatten : e.flatten.isLive name = e.isLive name := by
  rw [isLive, terminals_flatten, isLive]

/-- Exactly the live expressions have a value. -/
theorem value?_eq_none_iff [Arithmetic α] {value : α} :
    e.value? name value = none ↔ e.isLive name = false := by
  induction e using negationInductionOn with
  | number x => simp
  | symbol s => by_cases hs : s.name = name <;> simp [hs]
  | negation e ih => rw [value?_negation, Option.map_eq_none_iff, ih, isLive_negation]
  | node op es hn ih =>
    rw [value?_node _ _ hn, Operator.fold_eq_none_iff, List.filterMap_eq_nil_iff, isLive_node,
      List.any_eq_false]
    exact forall₂_congr fun e he => by rw [ih e he, Bool.not_eq_true]

theorem exists_value? [Arithmetic α] (value : α) (h : e.isLive name = true) :
    ∃ x, e.value? name value = some x := by
  refine Option.ne_none_iff_exists'.1 fun hn => ?_
  rw [value?_eq_none_iff, h] at hn
  cases hn

/-- Operands that are not live do not count. -/
theorem filterMap_filter_isLive [Arithmetic α] {value : α} (es : List (Expr α)) :
    (es.filter (isLive name)).filterMap (value? name value) = es.filterMap (value? name value) := by
  rw [List.filterMap_filter]
  refine List.filterMap_congr fun e _ => ?_
  cases hl : e.isLive name with
  | true => rfl
  | false => exact (value?_eq_none_iff.2 hl).symm

end InfixAlgebra.Expr
