import InfixAlgebra.Proofs.Grammar.Parentheses
import InfixAlgebra.Proofs.Machine.Completeness
import InfixAlgebra.Report

/-!
# Faults of the machine

The faults that stop the machine, and what they say about the tokens (`Fault.IsDueTo`).  Reductions
fail only for a missing operand or for too many levels (`Fault.IsOfReduction`); that an opening
parenthesis is met among the entries to be reduced can happen only at the end.

While the machine takes tokens in, as many opening parentheses are pending as are still to be closed
(`Machine.Tracks`).  So each fault is due to the tokens (`failsWith_build`), and if there is none,
the parentheses are balanced and no pair of them is empty (`isBalanced_of_build`).
-/

namespace InfixAlgebra

variable {α : Type u}

/-! ## Reasons to stop -/

namespace Machine

/-- If there is a fault, it is one of `p`. -/
def FailsWith {β : Type v} (p : Fault → Prop) (x : Except (Halt α) β) : Prop :=
  ∀ halt, x = .error halt → p halt.fault

namespace FailsWith

variable {β : Type v} {γ : Type w} {p q : Fault → Prop} {x : Except (Halt α) β}

theorem ok (p : Fault → Prop) (b : β) : FailsWith p (.ok b : Except (Halt α) β) :=
  fun _ h => nomatch h

theorem halt (m : Machine α) {fault : Fault} (h : p fault) :
    FailsWith p (m.halt fault : Except (Halt α) β) := by
  intro _ he
  rw [← Except.error.inj he]
  exact h

theorem mono (hx : FailsWith p x) (h : ∀ fault, p fault → q fault) : FailsWith q x :=
  fun halt he => h _ (hx halt he)

theorem bind {f : β → Except (Halt α) γ} (hx : FailsWith p x)
    (hf : ∀ b, x = .ok b → FailsWith p (f b)) : FailsWith p (x.bind f) := by
  cases x with
  | ok b => exact hf b rfl
  | error h => exact fun halt he => hx halt (Except.error.inj he ▸ rfl)

theorem map (hx : FailsWith p x) (f : β → γ) : FailsWith p (x.map f) := by
  cases x with
  | ok b => exact .ok p _
  | error h => exact fun halt he => hx halt (Except.error.inj he ▸ rfl)

end FailsWith

end Machine

/-- An operand is missing, or the tree would have too many levels. -/
def Fault.IsOfReduction (fault : Fault) : Prop :=
  fault = .malformed ∨ fault = .tooDeep depthLimit

/-- What a fault of the machine says about the tokens. -/
def Fault.IsDueTo (ts : List (Token α)) : Fault → Prop
  | .emptyText => ts = []
  | .emptyParens => Token.HasEmptyParens ts
  | .mismatchedParens => ¬ Text.IsBalanced (Token.parens ts)
  | .nothingOnLeft op => op ≠ .sub ∧
    ∃ before after, ts = before ++ .operator op :: after ∧ ¬ EndsOperand before
  | .tooDeep limit => limit = depthLimit
  | .malformed => True
  | _ => False

/-- All faults of the machine. -/
def Machine.faults : List Fault :=
  [.emptyText, .emptyParens, .mismatchedParens, .tooDeep depthLimit, .malformed] ++
    Operator.all.map .nothingOnLeft

namespace Fault

variable {fault : Fault} {ts : List (Token α)}

theorem IsOfReduction.isDueTo (h : fault.IsOfReduction) (ts : List (Token α)) :
    fault.IsDueTo ts := by
  rcases h with rfl | rfl
  · trivial
  · rfl

theorem IsDueTo.mem_faults (h : fault.IsDueTo ts) : fault ∈ Machine.faults := by
  cases fault with
  | nothingOnLeft op => exact List.mem_append_right _ (List.mem_map_of_mem op.mem_all)
  | tooDeep limit =>
    obtain rfl := h
    decide
  | emptyText | emptyParens | mismatchedParens | malformed => decide
  | _ => cases h

theorem IsDueTo.kind (h : fault.IsDueTo ts) : fault.kind = .reading := by
  have hk : ∀ f ∈ Machine.faults, f.kind = .reading := by decide
  exact hk fault h.mem_faults

end Fault

namespace Machine

open Token Text

variable {m m' : Machine α} {t : Token α} {ts us : List (Token α)}

/-! ## Reductions -/

theorem failsWith_reduce (m : Machine α) {p : Pending} (hp : p ≠ .opening) :
    FailsWith Fault.IsOfReduction (m.reduce p) := by
  have hg (tree : Expr α) (depth : Nat) (bs : List (Branch α)) :
      FailsWith Fault.IsOfReduction (m.grow tree depth bs) := by
    unfold grow
    split_ifs
    · exact .ok _ _
    · exact .halt m (.inr rfl)
  unfold reduce
  cases p with
  | opening => exact absurd rfl hp
  | negation | binary op =>
    dsimp only
    split
    · exact hg _ _ _
    · exact .halt m (.inl rfl)

/-- Pending entries are reduced, or there is a parenthesis among them. -/
theorem failsWith_execute_reduce (m : Machine α) (ps : List Pending) :
    FailsWith (fun fault => fault.IsOfReduction ∨ fault = .mismatchedParens ∧ .opening ∈ ps)
      (m.execute (ps.map .reduce)) := by
  induction ps generalizing m with
  | nil => exact .ok _ _
  | cons p ps ih =>
    rw [List.map_cons, execute, perform]
    by_cases hp : p = .opening
    · subst hp
      refine FailsWith.bind (.halt m (.inr ⟨rfl, List.mem_cons_self⟩)) fun m' h => ?_
      cases h
    · refine ((failsWith_reduce m hp).mono fun _ => .inl).bind fun m' _ => (ih m').mono ?_
      exact fun fault => Or.imp_right (And.imp_right (List.mem_cons_of_mem p))

theorem failsWith_execute_reduce_of_not_mem (m : Machine α) {ps : List Pending}
    (hp : .opening ∉ ps) : FailsWith Fault.IsOfReduction (m.execute (ps.map .reduce)) :=
  (failsWith_execute_reduce m ps).mono fun _ => Or.rec id fun h => absurd h.2 hp

theorem reduceToOpening_of_not_mem (m : Machine α) {ps : List Pending} (hp : .opening ∉ ps) :
    m.reduceToOpening reduce ps =
      (m.execute (ps.map .reduce)).bind fun m' => m'.halt .mismatchedParens := by
  induction ps generalizing m with
  | nil => rfl
  | cons p ps ih =>
    rw [List.mem_cons, not_or] at hp
    rw [reduceToOpening_cons reduce m (Ne.symm hp.1), List.map_cons, execute, perform]
    cases m.reduce p with
    | error h => rfl
    | ok m' => exact ih m' hp.2

/-! ## Parentheses that are pending -/

/-- The machine has taken the tokens `ts` in.  None of their parentheses was closed before it was
opened or right after, and those that are still open are pending. -/
structure Tracks (m : Machine α) (ts : List (Token α)) : Prop where
  previous : m.previous = ts.getLast?
  count_le : ∀ ds, ds <+: parens ts → ds.count ')' ≤ ds.count '('
  pending : m.pending.count .opening + (parens ts).count ')' = (parens ts).count '('
  notEmpty : ¬ Token.HasEmptyParens ts

theorem tracks_start : (start : Machine α).Tracks [] where
  previous := rfl
  count_le ds hd := by rw [List.prefix_nil.1 hd]; exact Nat.le_refl 0
  pending := rfl
  notEmpty h := absurd (List.infix_nil.1 h) (List.cons_ne_nil _ _)

/-! ### One step -/

theorem count_pending_takeOperator {op : Operator} (hm : m.takeOperator reduce op = .ok m') :
    m'.pending.count .opening = m.pending.count .opening := by
  rw [takeOperator_eq] at hm
  split_ifs at hm
  · obtain rfl := Except.ok.inj hm
    exact List.count_cons_of_ne (by decide)
  · cases hm
  · obtain ⟨qs, rs, hps, hq, hr⟩ := Pending.exists_append op m.pending
    have hqs : qs.count .opening = 0 :=
      List.count_eq_zero.2 fun ho => absurd (hq _ ho) (Nat.not_lt_zero _)
    rw [hps, reducePreceding_append hq hr] at hm
    obtain ⟨m₁, hm₁, rfl⟩ := Except.map_eq_ok_iff.1 hm
    obtain ⟨m₂, -, rfl⟩ := Except.map_eq_ok_iff.1 hm₁
    rw [hps, List.count_append, hqs, Nat.zero_add]
    have ho : Pending.binary op ≠ .opening := nofun
    exact List.count_cons_of_ne ho

theorem count_pending_reduceToOpening (hm : m.reduceToOpening reduce m.pending = .ok m') :
    m'.pending.count .opening + 1 = m.pending.count .opening := by
  obtain ⟨qs, rs, hps, hq⟩ := List.eq_append_cons_of_mem (mem_of_reduceToOpening hm)
  rw [hps, reduceToOpening_append hq] at hm
  obtain ⟨m₁, -, rfl⟩ := Except.map_eq_ok_iff.1 hm
  rw [hps, List.count_append, List.count_eq_zero.2 hq, Nat.zero_add, List.count_cons_self]
  rfl

theorem failsWith_takeOperator (h : m.previous = ts.getLast?) (op : Operator)
    (us : List (Token α)) :
    FailsWith (Fault.IsDueTo (ts ++ .operator op :: us)) (m.takeOperator reduce op) := by
  rw [takeOperator_eq, leftIsEmpty_eq, h]
  split_ifs with hl ho
  · exact .ok _ _
  · refine .halt m ⟨ho, ts, us, rfl, fun he => ?_⟩
    rw [endsOperand_iff_any.1 he] at hl
    cases hl
  · obtain ⟨qs, rs, hps, hq, hr⟩ := Pending.exists_append op m.pending
    have hqs : .opening ∉ qs := fun ho => absurd (hq _ ho) (Nat.not_lt_zero _)
    rw [hps, reducePreceding_append hq hr]
    refine (((failsWith_execute_reduce_of_not_mem m hqs).map _).map _).mono ?_
    exact fun fault hf => hf.isDueTo _

namespace Tracks

/-- The tokens go on to be tracked if the pending entries keep count of the parentheses. -/
theorem concat (h : m.Tracks ts) (ht : m'.previous = some t)
    (hp : m'.pending.count .opening + (parens (ts ++ [t])).count ')' =
      (parens (ts ++ [t])).count '(')
    (hn : ¬ (ts.getLast? = some .opening ∧ t = .closing)) : m'.Tracks (ts ++ [t]) where
  previous := ht.trans List.getLast?_concat.symm
  count_le ds hd := by
    rw [parens_concat] at hd hp
    cases hc : t.paren? with
    | none =>
      rw [hc, Option.toList_none, List.append_nil] at hd
      exact h.count_le ds hd
    | some c =>
      rw [hc, Option.toList_some] at hd hp
      rcases List.prefix_concat_iff.1 hd with rfl | hd
      · omega
      · exact h.count_le ds hd
  pending := hp
  notEmpty he := (hasEmptyParens_concat_iff.1 he).elim hn h.notEmpty

theorem concat_of_paren?_eq_none (h : m.Tracks ts) (ht : t.paren? = none)
    (hp : m'.pending.count .opening = m.pending.count .opening) :
    ({ m' with previous := some t } : Machine α).Tracks (ts ++ [t]) := by
  refine h.concat rfl ?_ ?_
  · rw [parens_concat, ht, Option.toList_none, List.append_nil]
    exact hp ▸ h.pending
  · rintro ⟨-, rfl⟩
    cases ht

theorem opening (h : m.Tracks ts) :
    ({ m.push .opening with previous := some .opening } : Machine α).Tracks (ts ++ [.opening]) := by
  refine h.concat rfl ?_ fun he => nomatch he.2
  have hp := h.pending
  rw [count_parens_concat, count_parens_concat]
  show List.count .opening (.opening :: m.pending) + ((parens ts).count ')' + 0) =
    (parens ts).count '(' + 1
  rw [List.count_cons_self]
  omega

theorem closing (h : m.Tracks ts) (hj : m.justOpened = false)
    (hm : m.reduceToOpening reduce m.pending = .ok m') :
    ({ m' with previous := some .closing } : Machine α).Tracks (ts ++ [.closing]) := by
  have hp := h.pending
  have hc := count_pending_reduceToOpening hm
  refine h.concat rfl ?_ fun he => ?_
  · rw [count_parens_concat, count_parens_concat]
    show m'.pending.count .opening + ((parens ts).count ')' + 1) = (parens ts).count '(' + 0
    omega
  · rw [justOpened, h.previous, he.1] at hj
    cases hj

/-- A parenthesis that is closed although none is open is due to the tokens. -/
theorem not_isBalanced_of_closing (h : m.Tracks ts) (hm : .opening ∉ m.pending)
    (us : List (Token α)) : ¬ IsBalanced (parens (ts ++ .closing :: us)) := by
  intro hb
  have hk : parens (ts ++ [.closing]) <+: parens (ts ++ .closing :: us) :=
    ((List.prefix_append_right_inj ts).2 ⟨us, rfl⟩).filterMap paren?
  have hp := h.pending
  have hc := hb.count_le _ hk
  rw [List.count_eq_zero.2 hm] at hp
  rw [count_parens_concat, count_parens_concat] at hc
  have hc : (parens ts).count ')' + 1 ≤ (parens ts).count '(' + 0 := hc
  omega

/-- Taking a token in fails for the tokens, or goes on to track them. -/
theorem failsWith_take (h : m.Tracks ts) (t : Token α) (us : List (Token α)) :
    FailsWith (Fault.IsDueTo (ts ++ t :: us)) (m.take reduce t) := by
  cases t with
  | number x => exact .ok _ _
  | symbol s => exact .ok _ _
  | operator op => exact failsWith_takeOperator h.previous op us
  | opening => exact .ok _ _
  | closing =>
    unfold take
    split_ifs with hj
    · have ho : ts.getLast? = some .opening := by
        rw [← h.previous]
        unfold justOpened at hj
        split at hj
        · assumption
        · cases hj
      have he := hasEmptyParens_concat_iff.2 (.inl ⟨ho, rfl⟩)
      rw [List.append_cons]
      exact .halt m (he.trans (List.prefix_append _ us).isInfix)
    · by_cases hm : .opening ∈ m.pending
      · obtain ⟨qs, rs, hps, hq⟩ := List.eq_append_cons_of_mem hm
        rw [hps, reduceToOpening_append hq]
        exact ((failsWith_execute_reduce_of_not_mem m hq).map _).mono fun _ hf => hf.isDueTo _
      · rw [reduceToOpening_of_not_mem m hm]
        refine ((failsWith_execute_reduce_of_not_mem m hm).mono fun _ hf => hf.isDueTo _).bind ?_
        exact fun m' _ => .halt m' (h.not_isBalanced_of_closing hm us)

theorem take (h : m.Tracks ts) (hm : m.take reduce t = .ok m') :
    ({ m' with previous := some t } : Machine α).Tracks (ts ++ [t]) := by
  cases t with
  | number x =>
    obtain rfl := Except.ok.inj hm
    exact h.concat_of_paren?_eq_none rfl rfl
  | symbol s =>
    obtain rfl := Except.ok.inj hm
    exact h.concat_of_paren?_eq_none rfl rfl
  | operator op => exact h.concat_of_paren?_eq_none rfl (count_pending_takeOperator hm)
  | opening =>
    obtain rfl := Except.ok.inj hm
    exact h.opening
  | closing =>
    unfold Machine.take at hm
    split_ifs at hm with hj
    · cases hm
    · exact h.closing (Bool.eq_false_iff.2 hj) hm

/-- A run fails for the tokens, or goes on to track them. -/
theorem run (h : m.Tracks ts) (us : List (Token α)) :
    FailsWith (Fault.IsDueTo (ts ++ us)) (m.run reduce us) ∧
      ∀ m', m.run reduce us = .ok m' → m'.Tracks (ts ++ us) := by
  induction us generalizing m ts with
  | nil =>
    rw [List.append_nil]
    exact ⟨.ok _ _, fun m' hm => Except.ok.inj hm ▸ h⟩
  | cons u us ih =>
    rw [run_cons]
    have hu (m₁ : Machine α) (hm : m.take reduce u = .ok m₁) := ih (h.take hm)
    rw [← List.append_cons] at hu
    refine ⟨(h.failsWith_take u us).bind fun m₁ hm => (hu m₁ hm).1, fun m' hm' => ?_⟩
    obtain ⟨m₁, hm, hr⟩ := Except.bind_eq_ok_iff.1 hm'
    exact (hu m₁ hm).2 m' hr

/-- What is left to reduce at the end contains a parenthesis only if it was never closed. -/
theorem failsWith_finish (h : m.Tracks ts) : FailsWith (Fault.IsDueTo ts) (m.finish reduce) := by
  rw [finish_eq]
  refine ((failsWith_execute_reduce m _).mono fun fault hf => ?_).bind fun m' _ => ?_
  · rcases hf with hf | ⟨rfl, ho⟩
    · exact hf.isDueTo ts
    · intro hb
      have hp := h.pending
      have hc := hb.count_eq
      have hm := List.count_pos_iff.2 ho
      omega
  · show FailsWith _ ((m'.await [] m.previous).finish reduce)
    unfold finish
    dsimp only [await_pending, reduceAll]
    split
    · exact .ok _ _
    · exact .halt _ trivial

theorem isBalanced_of_finish {x : Machine α × Expr α} (h : m.Tracks ts)
    (hf : m.finish reduce = .ok x) : IsBalanced (parens ts) := by
  rw [finish_eq_bind] at hf
  obtain ⟨m', ha, -⟩ := Except.bind_eq_ok_iff.1 hf
  have hp := h.pending
  rw [List.count_eq_zero.2 (not_mem_of_reduceAll ha), Nat.zero_add] at hp
  exact ⟨h.count_le, hp⟩

end Tracks

/-! ## Whole runs -/

/-- Whatever stops the machine is due to the tokens. -/
theorem failsWith_build (ts : List (Token α)) : FailsWith (Fault.IsDueTo ts) (build ts) := by
  rw [build_eq_bind]
  split_ifs with hts
  · exact .halt _ (List.isEmpty_iff.1 hts)
  · have hr := tracks_start.run ts
    exact hr.1.bind fun m hm => (hr.2 m hm).failsWith_finish

/-- If the machine builds a tree, the parentheses are balanced and none of them is empty. -/
theorem isBalanced_of_build {x : Machine α × Expr α} (h : build ts = .ok x) :
    IsBalanced (parens ts) ∧ ¬ Token.HasEmptyParens ts := by
  rw [build_eq_bind] at h
  split_ifs at h with hts
  · cases h
  · obtain ⟨m, hm, hf⟩ := Except.bind_eq_ok_iff.1 h
    have ht := (tracks_start.run ts).2 m hm
    exact ⟨ht.isBalanced_of_finish hf, ht.notEmpty⟩

end Machine

end InfixAlgebra
