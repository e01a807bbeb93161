import InfixAlgebra.Proofs.Parse.Built

/-!
# Regrouping

Two expressions are regroupings of each other if one becomes the other by writing chains of `+` and
chains of `*` as one node or as nested ones, anywhere in it (`Regroups`).  Flattening decides that:
it is the only flat regrouping (`Regroups.eq_flatten`), and two expressions are regroupings of each
other exactly if they are flattened to the same one (`flatten_eq_iff_regroups`).
-/

namespace InfixAlgebra.Expr

variable {α : Type u}

/-! ## Flattening nodes -/

section Flatten

variable {op : Operator}

/-- Flattening keeps the operands of an ordered operator apart. -/
theorem flatten_of_isOrdered (ho : op.isOrdered = true) (es : List (Expr α)) :
    (node op es).flatten = .node op (es.map flatten) := by
  simp only [flatten_node, spliced_of_isOrdered ho, List.map_eq_flatMap]

/-- Flattening does not see whether a chain is one node or two. -/
theorem flatten_splice (ho : op.isOrdered = false) (xs ys zs : List (Expr α)) :
    (node op (xs ++ node op ys :: zs)).flatten = (node op (xs ++ ys ++ zs)).flatten := by
  simp only [flatten_node, List.flatMap_append, List.flatMap_cons, spliced_node ho,
    List.append_assoc]

theorem flatten_replace {d d' : Expr α} (h : d.flatten = d'.flatten) (op : Operator)
    (xs zs : List (Expr α)) :
    (node op (xs ++ d :: zs)).flatten = (node op (xs ++ d' :: zs)).flatten := by
  simp only [flatten_node, List.flatMap_append, List.flatMap_cons, h]

end Flatten

/-! ## Regroupings -/

variable [Numeric α]

/-- The least congruence on expressions that can be built under which an operand of the same
unordered operator may give its operands instead of itself. -/
inductive Regroups : Expr α → Expr α → Prop
  | splice {op xs ys zs} : op.isOrdered = false → Built (.node op (xs ++ .node op ys :: zs)) →
      Regroups (.node op (xs ++ .node op ys :: zs)) (.node op (xs ++ ys ++ zs))
  | operand {op xs d d' zs} : Built (.node op (xs ++ d :: zs)) → Regroups d d' →
      Regroups (.node op (xs ++ d :: zs)) (.node op (xs ++ d' :: zs))
  | refl {e} : Built e → Regroups e e
  | symm {a b} : Regroups a b → Regroups b a
  | trans {a b c} : Regroups a b → Regroups b c → Regroups a c

variable {a b d d' e : Expr α} {op : Operator} {xs ys zs es : List (Expr α)}

theorem built_node : Built (.node op es) ↔ op.Admits es.length ∧ ∀ e ∈ es, Built e := by
  simp only [built_iff_wellFormed, wellFormed_node]

theorem Built.splice (h : Built (.node op (xs ++ .node op ys :: zs))) :
    Built (.node op (xs ++ ys ++ zs)) := by
  rw [built_node, List.forall_mem_append, List.forall_mem_cons, built_node] at h
  obtain ⟨hn, hx, ⟨hy, hys⟩, hz⟩ := h
  refine built_node.2 ⟨hn.mono ?_, ?_⟩
  · have hp := hy.pos
    simp only [List.length_append, List.length_cons]
    omega
  · exact List.forall_mem_append.2 ⟨List.forall_mem_append.2 ⟨hx, hys⟩, hz⟩

theorem Built.replace (h : Built (.node op (xs ++ d :: zs))) (hd : Built d') :
    Built (.node op (xs ++ d' :: zs)) := by
  rw [built_node, List.forall_mem_append, List.forall_mem_cons] at h ⊢
  obtain ⟨hn, hx, -, hz⟩ := h
  refine ⟨?_, hx, hd, hz⟩
  simpa only [List.length_append, List.length_cons] using hn

theorem Regroups.built (h : Regroups a b) : Built a ∧ Built b := by
  induction h with
  | splice _ h => exact ⟨h, h.splice⟩
  | operand h _ ih => exact ⟨h, h.replace ih.2⟩
  | refl h => exact ⟨h, h⟩
  | symm _ ih => exact ih.symm
  | trans _ _ ih ih' => exact ⟨ih.1, ih'.2⟩

/-! ## Flattening is a regrouping -/

/-- An operand may be replaced by what it stands for. -/
theorem regroups_spliced (h : Built (.node op (xs ++ e :: zs))) :
    Regroups (.node op (xs ++ e :: zs)) (.node op (xs ++ spliced op e ++ zs)) := by
  rcases spliced_cases op e with ⟨ho, he⟩ | ⟨hs, -⟩
  · rw [he] at h
    conv => lhs; rw [he]
    exact .splice ho h
  · rw [hs, List.append_assoc, List.singleton_append]
    exact .refl h

/-- The operands of a node may be flattened and spliced from left to right, where `xs` are the ones
that are there already. -/
theorem regroups_flatMap (xs : List (Expr α)) (h : Built (.node op (xs ++ es)))
    (hes : ∀ e ∈ es, Regroups e e.flatten) :
    Regroups (.node op (xs ++ es)) (.node op (xs ++ es.flatMap fun e => spliced op e.flatten)) := by
  induction es generalizing xs with
  | nil => exact .refl h
  | cons e es ih =>
    rw [List.forall_mem_cons] at hes
    have hf : Regroups (.node op (xs ++ e :: es)) (.node op (xs ++ e.flatten :: es)) :=
      .operand h hes.1
    have hs := regroups_spliced hf.built.2
    rw [List.flatMap_cons, ← List.append_assoc]
    exact hf.trans (hs.trans (ih _ hs.built.2 hes.2))

/-- An expression is a regrouping of the flat one. -/
theorem regroups_flatten (h : Built e) : Regroups e e.flatten := by
  induction e with
  | number x => exact .refl h
  | symbol s => exact .refl h
  | node op es ih =>
    have hes : ∀ e ∈ es, Regroups e e.flatten := fun e he => ih e he ((built_node.1 h).2 e he)
    rw [flatten_node]
    exact regroups_flatMap [] h hes

/-! ## Regroupings have one normal form -/

/-- Regroupings are flattened to the same expression. -/
theorem Regroups.flatten_eq (h : Regroups a b) : a.flatten = b.flatten := by
  induction h with
  | splice ho _ => exact flatten_splice ho _ _ _
  | operand _ _ ih => exact flatten_replace ih _ _ _
  | refl _ => rfl
  | symm _ ih => exact ih.symm
  | trans _ _ ih ih' => exact ih.trans ih'

/-- There is one flat regrouping. -/
theorem Regroups.eq_flatten (h : Regroups a b) (hb : IsFlat b) : b = a.flatten := by
  rw [h.flatten_eq, flatten_of_isFlat hb]

/-- Expressions have the same flat form exactly if they are regroupings of each other.  The flat
form is one, too, and keeps the operands of ordered operators. -/
theorem flatten_eq_iff_regroups (ha : Built a) (hb : Built b) :
    (a.flatten = b.flatten ↔ Regroups a b) ∧
    Regroups a.flatten a ∧
    (∀ op es, (op, es) ∈ a.flatten.nodes → op = .add ∨ op = .mul →
      ∀ d ∈ es, d.operator? ≠ some op) ∧
    a.flatten.flatten = a.flatten ∧
    ∀ op es, op = .sub ∨ op = .div ∨ op = .pow →
      (node op es : Expr α).flatten = .node op (es.map flatten) := by
  have hf := isFlat_flatten a
  refine ⟨⟨fun h => ?_, Regroups.flatten_eq⟩, (regroups_flatten ha).symm, fun op es hn ho => ?_,
    flatten_of_isFlat hf, fun op es ho => ?_⟩
  · have hr := regroups_flatten ha
    rw [h] at hr
    exact hr.trans (regroups_flatten hb).symm
  · refine hf op es hn ?_
    rcases ho with rfl | rfl <;> rfl
  · refine flatten_of_isOrdered ?_ es
    rcases ho with rfl | rfl | rfl <;> rfl

/-- Three operands may be grouped to the left or to the right. -/
theorem regroups_sum_assoc :
    Regroups (binary .add (binary .add (.number 1) (.symbol ⟨"x"⟩)) (.number 2) : Expr Float)
      (binary .add (.number 1) (binary .add (.symbol ⟨"x"⟩) (.number 2))) := by
  have hs : Expr.ofName "x" = .ok (.symbol ⟨"x"⟩ : Expr Float) := rfl
  have hx : Built (.symbol ⟨"x"⟩ : Expr Float) := .ofName hs
  exact (flatten_eq_iff_regroups (.binary (.binary (.number 1) hx) (.number 2))
    (.binary (.number 1) (.binary hx (.number 2)))).1.1 rfl

end InfixAlgebra.Expr
