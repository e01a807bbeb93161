import InfixAlgebra.Expr.Construction
import InfixAlgebra.Expr.Operands
import InfixAlgebra.Proofs.Expr.Equality
import InfixAlgebra.Proofs.Number.Floats
import InfixAlgebra.Report

/-!
# Equality is a congruence

Equality of expressions is coarser than identity, since `0` and `-0` are equal, and it is not
reflexive, since what is not a number differs from itself.  It is symmetric and transitive all the
same, and an expression is equal to itself exactly if all its numbers are.

Nothing that is done with expressions tells equal ones apart.  Whether an operand is merged depends
on its operator, and whether an edit is refused depends on numbers of operands; equal expressions
agree in both (`beq_flatten`, `agree_append`, `agree_remove`).
-/

namespace InfixAlgebra

/-- Two requests both succeed, with related results, or both fail, with faults of one kind. -/
inductive Agree {β : Type u} (r : β → β → Prop) : Except Fault β → Except Fault β → Prop
  | ok {b c} : r b c → Agree r (.ok b) (.ok c)
  | error {f g} : f.kind = g.kind → Agree r (.error f) (.error g)

namespace Expr

variable {α : Type u} [BEq α] {a b c e e' : Expr α} {es es' more more' : List (Expr α)}

/-! ## A partial equivalence -/

theorem node_beq_iff {op : Operator} :
    (node op es == e) = true ↔ ∃ es', e = .node op es' ∧ SameAll es es' := by
  constructor
  · intro h
    cases e with
    | node op' es' =>
      obtain ⟨rfl, hs⟩ := node_beq_node.1 h
      exact ⟨es', rfl, hs⟩
    | _ => cases h
  · rintro ⟨es', rfl, hs⟩
    exact node_beq_node.2 ⟨rfl, hs⟩

/-- Equality is passed on from operands to operands that are equal to no fewer expressions. -/
theorem SameAll.of_forall₂ {ds : List (Expr α)} (hs : SameAll es' ds)
    (h : List.Forall₂ (fun e e' => ∀ d, (e' == d) = true → (e == d) = true) es es') :
    SameAll es ds := by
  induction h generalizing ds with
  | nil => exact hs
  | cons he _ ih =>
    cases hs with
    | cons hd hs => exact .cons (he _ hd) (ih hs)

/-- An expression is equal to itself exactly if its numbers are. -/
theorem beq_self_iff : (e == e) = true ↔ ∀ x, .number x ∈ e.terminals → (x == x) = true :=
  ⟨fun h _ hx => List.forall₂_same.1 (forall₂_terminals h) _ hx, beq_self⟩

section PartialEquiv

variable [PartialEquivBEq α]

theorem beq_symm (h : (a == b) = true) : (b == a) = true := by
  refine beq_induction (motive := fun a b => (b == a) = true) ?_ ?_ ?_ h
  · exact fun x y h => PartialEquivBEq.symm (α := α) h
  · exact fun s => beq_self_eq_true s
  · exact fun op es es' _ ih => node_beq_node.2 ⟨rfl, List.Forall₂.flip ih⟩

theorem beq_trans (h : (a == b) = true) : (b == c) = true → (a == c) = true := by
  refine beq_induction (motive := fun a b => ∀ c, (b == c) = true → (a == c) = true)
    ?_ ?_ ?_ h c
  · intro x y h c h'
    cases c with
    | number z => exact PartialEquivBEq.trans (α := α) h h'
    | _ => cases h'
  · exact fun _ _ h' => h'
  · intro op es es' _ ih c h'
    obtain ⟨ds, rfl, hs⟩ := node_beq_iff.1 h'
    exact node_beq_node.2 ⟨rfl, hs.of_forall₂ ih⟩

end PartialEquiv

/-! ## Building and flattening -/

theorem beq_negation (h : (a == b) = true) : (negation a == negation b) = true :=
  node_beq_node.2 ⟨rfl, .cons h .nil⟩

theorem beq_binary (op : Operator) {l l' r r' : Expr α} (hl : (l == l') = true)
    (hr : (r == r') = true) : (binary op l r == binary op l' r') = true :=
  node_beq_node.2 ⟨rfl, .cons hl (.cons hr .nil)⟩

/-- Of two equal operands both are merged into a node, or none. -/
theorem sameAll_spliced (op : Operator) (h : (e == e') = true) :
    SameAll (spliced op e) (spliced op e') := by
  cases e with
  | node op₁ es =>
    obtain ⟨es', rfl, hs⟩ := node_beq_iff.1 h
    simp only [spliced]
    split_ifs
    · exact hs
    · exact .cons h .nil
  | _ =>
    cases e' with
    | node op₂ es' => cases h
    | _ => exact .cons h .nil

theorem beq_flatten (h : (e == e') = true) : (e.flatten == e'.flatten) = true := by
  refine beq_induction (motive := fun e e' => (e.flatten == e'.flatten) = true) ?_ ?_ ?_ h
  · exact fun x y h => h
  · exact fun s => beq_self_eq_true s
  · intro op es es' _ ih
    rw [flatten_node, flatten_node, node_beq_node]
    exact ⟨rfl, List.rel_flatMap ih fun _ _ h => sameAll_spliced op h⟩

theorem symbol?_eq_of_beq (h : (e == e') = true) : e.symbol? = e'.symbol? := by
  refine beq_induction (motive := fun e e' => e.symbol? = e'.symbol?) ?_ ?_ ?_ h
  · exact fun _ _ _ => rfl
  · exact fun _ => rfl
  · exact fun _ _ _ _ _ => rfl

theorem variableNames_eq_of_beq (h : (e == e') = true) : e.variableNames = e'.variableNames := by
  have hn : List.Forall₂ Eq (e.terminals.filterMap fun t => t.symbol?.map Symbol.name)
      (e'.terminals.filterMap fun t => t.symbol?.map Symbol.name) := by
    refine List.rel_filterMap (fun t t' ht => ?_) (forall₂_terminals h)
    rw [symbol?_eq_of_beq ht]
    cases t'.symbol? with
    | none => exact .none
    | some s => exact .some rfl
  rw [List.forall₂_eq_eq_eq] at hn
  rw [variableNames, variableNames, hn]

/-! ## Editing -/

theorem SameAll.eraseIdx (h : SameAll es es') (index : Nat) :
    SameAll (es.eraseIdx index) (es'.eraseIdx index) := by
  rw [List.eraseIdx_eq_take_drop_succ, List.eraseIdx_eq_take_drop_succ]
  exact List.rel_append (List.forall₂_take index h) (List.forall₂_drop (index + 1) h)

variable [Numeric α]

theorem agree_append (h : (e == e') = true) (hm : SameAll more more') :
    Agree Eq (e.append more).1 (e'.append more').1 ∧
      ((e.append more).2 == (e'.append more').2) = true := by
  refine beq_induction (motive := fun e e' => Agree Eq (e.append more).1 (e'.append more').1 ∧
    ((e.append more).2 == (e'.append more').2) = true) ?_ ?_ ?_ h
  · exact fun _ _ h => ⟨.error rfl, h⟩
  · exact fun s => ⟨.error rfl, beq_self_eq_true s⟩
  · exact fun _ _ _ hs _ => ⟨.ok rfl, node_beq_node.2 ⟨rfl, List.rel_append hs hm⟩⟩

theorem agree_remove (h : (e == e') = true) (index : Nat) :
    Agree (fun d d' => (d == d') = true) (e.remove index).1 (e'.remove index).1 ∧
      ((e.remove index).2 == (e'.remove index).2) = true := by
  refine beq_induction (motive := fun e e' => Agree _ (e.remove index).1 (e'.remove index).1 ∧
    ((e.remove index).2 == (e'.remove index).2) = true) ?_ ?_ ?_ h
  · exact fun _ _ h => ⟨.error rfl, h⟩
  · exact fun s => ⟨.error rfl, beq_self_eq_true s⟩
  · intro op es es' hs _
    have hl := hs.length_eq
    have hn : (node op es == node op es') = true := node_beq_node.2 ⟨rfl, hs⟩
    rcases Nat.lt_or_ge index es.length with hi | hi
    · have hi' := hl ▸ hi
      rcases Nat.lt_or_ge 2 es.length with h2 | h2
      · rw [remove_of_two_lt_length (List.getElem?_eq_getElem hi) h2,
          remove_of_two_lt_length (List.getElem?_eq_getElem hi') (hl ▸ h2)]
        exact ⟨.ok (hs.get hi hi'), node_beq_node.2 ⟨rfl, hs.eraseIdx index⟩⟩
      · rw [remove_of_length_le_two hi h2, remove_of_length_le_two hi' (hl ▸ h2)]
        exact ⟨.error rfl, hn⟩
    · rw [remove_of_length_le hi, remove_of_length_le (hl ▸ hi)]
      exact ⟨.error rfl, hn⟩

/-! ## All together -/

/-- Equality is symmetric and transitive, and reflexive without NaN.  What is made of equal
expressions is equal, or refused for both. -/
theorem beq_partial_equivalence_and_congruence (α : Type u) [BEq α] [Numeric α] [NotANumber α]
    [LawfullyCompared α] :
    (∀ a b : Expr α, (a == b) = true → (b == a) = true) ∧
    (∀ a b c : Expr α, (a == b) = true → (b == c) = true → (a == c) = true) ∧
    (∀ a : Expr α, (a == a) = true ↔ ∀ x, .number x ∈ a.terminals → NotANumber.isNaN x = false) ∧
    ∀ a b : Expr α, (a == b) = true →
      (a.flatten == b.flatten) = true ∧
      a.variableNames = b.variableNames ∧
      (negation a == negation b) = true ∧
      (∀ op c d, (c == d) = true → (binary op a c == binary op b d) = true) ∧
      (∀ more more', List.Forall₂ (fun d d' => (d == d') = true) more more' →
        Agree Eq (a.append more).1 (b.append more').1 ∧
          ((a.append more).2 == (b.append more').2) = true) ∧
      ∀ index, Agree (fun d d' => (d == d') = true) (a.remove index).1 (b.remove index).1 ∧
        ((a.remove index).2 == (b.remove index).2) = true := by
  refine ⟨fun _ _ => beq_symm, fun _ _ _ => beq_trans, fun a => ?_, fun a b h => ⟨beq_flatten h,
    variableNames_eq_of_beq h, beq_negation h, fun op _ _ hr => beq_binary op h hr,
    fun _ _ hm => agree_append h hm, agree_remove h⟩⟩
  simp only [beq_self_iff, LawfullyCompared.beq_self_iff]

theorem beq_sums_of_zeros :
    ∃ a b : Expr Float, a = .node .add [.number 0, .symbol ⟨"x"⟩, .number 1] ∧
      b = .node .add [.number (-0), .symbol ⟨"x"⟩, .number 1] ∧ (b == a) = true ∧
      (a.flatten == b.flatten) = true ∧
      Agree (fun d d' => (d == d') = true) (a.remove 0).1 (b.remove 0).1 ∧
      ((a.remove 0).2 == (b.remove 0).2) = true ∧
      ¬ ((Expr.number Float.nan : Expr Float) == .number Float.nan) = true := by
  obtain ⟨hsymm, -, hself, hcongr⟩ := beq_partial_equivalence_and_congruence Float
  have h : ((Expr.node .add [.number 0, .symbol ⟨"x"⟩, .number 1] : Expr Float) ==
      .node .add [.number (-0), .symbol ⟨"x"⟩, .number 1]) = true := by
    decide +kernel
  obtain ⟨hf, -, -, -, -, hr⟩ := hcongr _ _ h
  refine ⟨_, _, rfl, rfl, hsymm _ _ h, hf, (hr 0).1, (hr 0).2, fun hn => ?_⟩
  exact absurd ((hself _).1 hn _ List.mem_cons_self) (by decide +kernel)

end Expr

end InfixAlgebra
