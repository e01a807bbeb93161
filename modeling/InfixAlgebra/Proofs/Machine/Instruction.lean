import InfixAlgebra.Machine
import InfixAlgebra.Proofs.Expr.Nodes

/-!
# Instructions of the machine

What the machine does to its branches is a list of instructions: it shifts a terminal, or reduces
by a pending operator.  `Machine.execute` carries such a list out, and leaves the pending entries
and the previous token alone (`execute_await`).

`Instruction.assemble` carries the same list out on bare trees, without a limit on their levels.
The machine does the same up to the limit: it makes the assembled trees if none of them is too deep
(`execute_eq_ok`), it stops at the limit if one is (`execute_eq_tooDeep`), and it stops if an
operand is missing (`execute_eq_error`).
-/

namespace InfixAlgebra

/-- What the machine does to its branches. -/
inductive Instruction (α : Type u) where
  | shift (e : Expr α) (terminal : e.isTerminal = true)
  | reduce (p : Pending)

variable {α : Type u}

theorem Except.bind_eq_ok_iff {ε : Type u} {β : Type v} {γ : Type w} {x : Except ε β}
    {f : β → Except ε γ} {c : γ} : x.bind f = .ok c ↔ ∃ b, x = .ok b ∧ f b = .ok c := by
  cases x <;> simp [Except.bind]

theorem Except.map_eq_ok_iff {ε : Type u} {β : Type v} {γ : Type w} {x : Except ε β} {f : β → γ}
    {c : γ} : x.map f = .ok c ↔ ∃ b, x = .ok b ∧ f b = c := by
  cases x <;> simp [Except.map]

namespace Machine

/-- Carries an instruction out. -/
def perform (m : Machine α) : Instruction α → Except (Halt α) (Machine α)
  | .shift e _ => .ok (m.shift e)
  | .reduce p => m.reduce p

/-- Carries instructions out, one after the other. -/
def execute (m : Machine α) : List (Instruction α) → Except (Halt α) (Machine α)
  | [] => .ok m
  | i :: code => (m.perform i).bind fun m' => m'.execute code

/-- The machine with other pending entries and another token before the next one. -/
def await (m : Machine α) (pending : List Pending) (previous : Option (Token α)) : Machine α :=
  { m with pending := pending, previous := previous }

@[simp] theorem await_pending (m : Machine α) (ps : List Pending) (t : Option (Token α)) :
    (m.await ps t).pending = ps := rfl

@[simp] theorem await_previous (m : Machine α) (ps : List Pending) (t : Option (Token α)) :
    (m.await ps t).previous = t := rfl

@[simp] theorem await_branches (m : Machine α) (ps : List Pending) (t : Option (Token α)) :
    (m.await ps t).branches = m.branches := rfl

@[simp] theorem await_self (m : Machine α) : m.await m.pending m.previous = m := rfl

theorem grow_await (m : Machine α) (ps : List Pending) (t : Option (Token α)) (e : Expr α) (n : Nat)
    (bs : List (Branch α)) :
    (m.await ps t).grow e n bs = (m.grow e n bs).map fun m' => m'.await ps t := by
  unfold grow
  split_ifs <;> rfl

theorem perform_await (m : Machine α) (ps : List Pending) (t : Option (Token α))
    (i : Instruction α) :
    (m.await ps t).perform i = (m.perform i).map fun m' => m'.await ps t := by
  match i with
  | .shift e _ => rfl
  | .reduce .opening => rfl
  | .reduce .negation =>
    unfold perform reduce
    rw [await_branches]
    match m.branches with
    | [] => rfl
    | b :: bs => exact grow_await m ps t _ _ _
  | .reduce (.binary op) =>
    unfold perform reduce
    rw [await_branches]
    match m.branches with
    | [] => rfl
    | [_] => rfl
    | r :: l :: bs => exact grow_await m ps t _ _ _

/-- Instructions do not look at the pending entries or the previous token, and keep them. -/
theorem execute_await (m : Machine α) (ps : List Pending) (t : Option (Token α))
    (code : List (Instruction α)) :
    (m.await ps t).execute code = (m.execute code).map fun m' => m'.await ps t := by
  induction code generalizing m with
  | nil => rfl
  | cons i code ih =>
    rw [execute, execute, perform_await]
    cases m.perform i with
    | error h => rfl
    | ok m' => exact ih m'

theorem execute_append (m : Machine α) (code code' : List (Instruction α)) :
    m.execute (code ++ code') = (m.execute code).bind fun m' => m'.execute code' := by
  induction code generalizing m with
  | nil => rfl
  | cons i code ih =>
    rw [List.cons_append, execute, execute]
    cases m.perform i with
    | error h => rfl
    | ok m' => exact ih m'

end Machine

/-! ## Assembling trees -/

namespace Instruction

/-- What an instruction makes of some trees, the newest first; nothing if an operand is missing. -/
def apply : Instruction α → List (Expr α) → Option (List (Expr α))
  | .shift e _, es => some (e :: es)
  | .reduce .negation, e :: es => some (.negation e :: es)
  | .reduce (.binary op), r :: l :: es => some (.binary op l r :: es)
  | _, _ => none

/-- What instructions make of some trees, one after the other. -/
def assemble (es : List (Expr α)) : List (Instruction α) → Option (List (Expr α))
  | [] => some es
  | i :: code => (i.apply es).bind fun es' => assemble es' code

theorem assemble_append (es : List (Expr α)) (code code' : List (Instruction α)) :
    assemble es (code ++ code') = (assemble es code).bind fun es' => assemble es' code' := by
  induction code generalizing es with
  | nil => rfl
  | cons i code ih =>
    rw [List.cons_append, assemble, assemble]
    cases i.apply es with
    | none => rfl
    | some es' => exact ih es'

/-- An instruction that has its operands leaves alone what lies below them. -/
theorem apply_append {i : Instruction α} {es es' : List (Expr α)} (h : i.apply es = some es')
    (below : List (Expr α)) : i.apply (es ++ below) = some (es' ++ below) := by
  match i, es with
  | .shift e _, es =>
    obtain rfl := Option.some.inj h
    rfl
  | .reduce .negation, e :: es =>
    obtain rfl := Option.some.inj h
    rfl
  | .reduce (.binary op), r :: l :: es =>
    obtain rfl := Option.some.inj h
    rfl

/-- Instructions that have their operands leave alone what lies below them. -/
theorem assemble_append_below {code : List (Instruction α)} {es es' : List (Expr α)}
    (h : assemble es code = some es') (below : List (Expr α)) :
    assemble (es ++ below) code = some (es' ++ below) := by
  induction code generalizing es with
  | nil =>
    rw [Option.some.inj h]
    rfl
  | cons i code ih =>
    obtain ⟨es₁, h₁, h₂⟩ := Option.bind_eq_some_iff.1 h
    rw [assemble, apply_append h₁, Option.bind_some]
    exact ih h₂

/-- What is true of the trees that are there and of those shifted, and carries over to negations and
binary nodes, is true of the assembled trees. -/
theorem forall_of_assemble {motive : Expr α → Prop}
    (negation : ∀ e, motive e → motive (.negation e))
    (binary : ∀ op l r, motive l → motive r → motive (.binary op l r))
    {code : List (Instruction α)} {es es' : List (Expr α)}
    (shift : ∀ e h, .shift e h ∈ code → motive e) (hes : ∀ e ∈ es, motive e)
    (h : assemble es code = some es') : ∀ e ∈ es', motive e := by
  induction code generalizing es with
  | nil => exact Option.some.inj h ▸ hes
  | cons i code ih =>
    obtain ⟨es₁, h₁, h₂⟩ := Option.bind_eq_some_iff.1 h
    refine ih (fun e he hm => shift e he (List.mem_cons_of_mem i hm)) ?_ h₂
    match i, es with
    | .shift e he, es =>
      obtain rfl := Option.some.inj h₁
      exact List.forall_mem_cons.2 ⟨shift e he List.mem_cons_self, hes⟩
    | .reduce .negation, e :: es =>
      obtain rfl := Option.some.inj h₁
      rw [List.forall_mem_cons] at hes ⊢
      exact ⟨negation e hes.1, hes.2⟩
    | .reduce (.binary op), r :: l :: es =>
      obtain rfl := Option.some.inj h₁
      rw [List.forall_mem_cons, List.forall_mem_cons] at hes
      exact List.forall_mem_cons.2 ⟨binary op l r hes.2.1 hes.1, hes.2.2⟩

/-! ## Operators -/

/-- A reduction by an operator; negations are reductions by the minus. -/
def isOp (op : Operator) : Instruction α → Bool
  | .reduce .negation => op = .sub
  | .reduce (.binary op') => op' = op
  | _ => false

/-- Every reduction makes one occurrence of its operator. -/
theorem sum_occurrences_apply (op : Operator) {i : Instruction α} {es es' : List (Expr α)}
    (h : i.apply es = some es') :
    (es'.map (Expr.occurrences op)).sum =
      (es.map (Expr.occurrences op)).sum + (i.isOp op).toNat := by
  match i, es with
  | .shift e he, es =>
    obtain rfl := Option.some.inj h
    rw [List.map_cons, List.sum_cons, Expr.occurrences_of_isTerminal op he, Nat.zero_add]
    rfl
  | .reduce .negation, e :: es =>
    obtain rfl := Option.some.inj h
    simp only [List.map_cons, List.sum_cons, Expr.occurrences_negation, isOp]
    by_cases ho : op = .sub
    · simp only [ho, if_true, decide_true, Bool.toNat_true]
      omega
    · simp only [ho, if_false, decide_false, Bool.toNat_false]
      omega
  | .reduce (.binary op'), r :: l :: es =>
    obtain rfl := Option.some.inj h
    simp only [List.map_cons, List.sum_cons, Expr.occurrences_binary, isOp]
    by_cases ho : op' = op
    · simp only [ho, if_true, decide_true, Bool.toNat_true]
      omega
    · simp only [ho, if_false, decide_false, Bool.toNat_false]
      omega

theorem sum_occurrences_assemble (op : Operator) {code : List (Instruction α)}
    {es es' : List (Expr α)} (h : assemble es code = some es') :
    (es'.map (Expr.occurrences op)).sum =
      (es.map (Expr.occurrences op)).sum + code.countP (isOp op) := by
  induction code generalizing es with
  | nil =>
    rw [Option.some.inj h]
    rfl
  | cons i code ih =>
    obtain ⟨es₁, h₁, h₂⟩ := Option.bind_eq_some_iff.1 h
    rw [ih h₂, sum_occurrences_apply op h₁, List.countP_cons]
    cases i.isOp op with
    | false => simp
    | true =>
      rw [if_pos rfl, Bool.toNat_true]
      omega

/-! ## Terminals -/

/-- The number or symbol that is shifted. -/
def terminal? : Instruction α → Option (Expr α)
  | .shift e _ => some e
  | .reduce _ => none

theorem flatMap_terminals_apply {i : Instruction α} {es es' : List (Expr α)}
    (h : i.apply es = some es') :
    es'.reverse.flatMap Expr.terminals =
      es.reverse.flatMap Expr.terminals ++ i.terminal?.toList := by
  match i, es with
  | .shift e he, es =>
    obtain rfl := Option.some.inj h
    rw [List.reverse_cons, List.flatMap_append, List.flatMap_singleton,
      Expr.terminals_of_isTerminal he]
    rfl
  | .reduce .negation, e :: es =>
    obtain rfl := Option.some.inj h
    simp [terminal?, Expr.terminals_negation]
  | .reduce (.binary op), r :: l :: es =>
    obtain rfl := Option.some.inj h
    simp [terminal?, Expr.terminals_binary]

/-- The assembled trees have the shifted terminals in their order. -/
theorem flatMap_terminals_assemble {code : List (Instruction α)} {es es' : List (Expr α)}
    (h : assemble es code = some es') :
    es'.reverse.flatMap Expr.terminals =
      es.reverse.flatMap Expr.terminals ++ code.filterMap terminal? := by
  induction code generalizing es with
  | nil =>
    rw [Option.some.inj h]
    exact (List.append_nil _).symm
  | cons i code ih =>
    obtain ⟨es₁, h₁, h₂⟩ := Option.bind_eq_some_iff.1 h
    rw [ih h₂, flatMap_terminals_apply h₁, List.append_assoc]
    cases i <;> rfl

/-! ## Levels -/

/-- An instruction uses trees up only for deeper ones. -/
theorem depth_le_of_apply {i : Instruction α} {es es' : List (Expr α)} {n : Nat}
    (h : i.apply es = some es') (hn : ∀ e ∈ es', e.depth ≤ n) : ∀ e ∈ es, e.depth ≤ n := by
  match i, es with
  | .shift e _, es =>
    obtain rfl := Option.some.inj h
    exact (List.forall_mem_cons.1 hn).2
  | .reduce .negation, e :: es =>
    obtain rfl := Option.some.inj h
    rw [List.forall_mem_cons, Expr.depth_negation] at hn
    exact List.forall_mem_cons.2 ⟨by omega, hn.2⟩
  | .reduce (.binary op), r :: l :: es =>
    obtain rfl := Option.some.inj h
    rw [List.forall_mem_cons, Expr.depth_binary] at hn
    exact List.forall_mem_cons.2 ⟨by omega, List.forall_mem_cons.2 ⟨by omega, hn.2⟩⟩

theorem depth_le_of_assemble {code : List (Instruction α)} {es es' : List (Expr α)} {n : Nat}
    (h : assemble es code = some es') (hn : ∀ e ∈ es', e.depth ≤ n) : ∀ e ∈ es, e.depth ≤ n := by
  induction code generalizing es with
  | nil => exact Option.some.inj h ▸ hn
  | cons i code ih =>
    obtain ⟨es₁, h₁, h₂⟩ := Option.bind_eq_some_iff.1 h
    exact depth_le_of_apply h₁ (ih h₂)

end Instruction

/-! ## The machine and the assembled trees -/

/-- A tree as a branch, with the levels that it has. -/
def Branch.ofExpr (e : Expr α) : Branch α := ⟨e, e.depth⟩

namespace Machine

open Instruction

variable {m : Machine α} {es es' : List (Expr α)}

theorem perform_shift {e : Expr α} (he : e.isTerminal = true)
    (hm : m.branches = es.map Branch.ofExpr) :
    ∃ m', m.perform (.shift e he) = .ok m' ∧ m'.branches = (e :: es).map Branch.ofExpr := by
  refine ⟨_, rfl, ?_⟩
  rw [shift, hm, List.map_cons, Branch.ofExpr, Expr.depth_of_isTerminal he]

theorem perform_negation {e : Expr α} (hm : m.branches = (e :: es).map Branch.ofExpr) :
    m.perform (.reduce .negation) =
      m.grow (.negation e) (Expr.negation e).depth (es.map Branch.ofExpr) := by
  rw [Expr.depth_negation, perform, reduce, hm]
  rfl

theorem perform_binary {op : Operator} {l r : Expr α}
    (hm : m.branches = (r :: l :: es).map Branch.ofExpr) :
    m.perform (.reduce (.binary op)) =
      m.grow (.binary op l r) (Expr.binary op l r).depth (es.map Branch.ofExpr) := by
  rw [Expr.depth_binary, perform, reduce, hm]
  rfl

theorem grow_eq_ok {e : Expr α} (h : e.depth ≤ depthLimit) :
    ∃ m', m.grow e e.depth (es.map Branch.ofExpr) = .ok m' ∧
      m'.branches = (e :: es).map Branch.ofExpr :=
  ⟨_, if_pos h, rfl⟩

theorem grow_eq_tooDeep {e : Expr α} {bs : List (Branch α)} (h : depthLimit < e.depth) :
    m.grow e e.depth bs = .error ⟨.tooDeep depthLimit, m.reductions⟩ :=
  if_neg (by omega)

theorem perform_eq_ok {i : Instruction α} (hm : m.branches = es.map Branch.ofExpr)
    (h : i.apply es = some es') (hd : ∀ e ∈ es', e.depth ≤ depthLimit) :
    ∃ m', m.perform i = .ok m' ∧ m'.branches = es'.map Branch.ofExpr := by
  match i, es with
  | .shift e he, es =>
    obtain rfl := Option.some.inj h
    exact perform_shift he hm
  | .reduce .negation, e :: es =>
    obtain rfl := Option.some.inj h
    rw [perform_negation hm]
    exact grow_eq_ok (List.forall_mem_cons.1 hd).1
  | .reduce (.binary op), r :: l :: es =>
    obtain rfl := Option.some.inj h
    rw [perform_binary hm]
    exact grow_eq_ok (List.forall_mem_cons.1 hd).1

theorem perform_eq_tooDeep {i : Instruction α} (hm : m.branches = es.map Branch.ofExpr)
    (h : i.apply es = some es') (hes : ∀ e ∈ es, e.depth ≤ depthLimit)
    (hd : ¬ ∀ e ∈ es', e.depth ≤ depthLimit) :
    m.perform i = .error ⟨.tooDeep depthLimit, m.reductions⟩ := by
  match i, es with
  | .shift e he, es =>
    obtain rfl := Option.some.inj h
    have h1 := Expr.depth_of_isTerminal he
    exact absurd (List.forall_mem_cons.2 ⟨h1 ▸ by decide, hes⟩) hd
  | .reduce .negation, e :: es =>
    obtain rfl := Option.some.inj h
    rw [List.forall_mem_cons, not_and_or, Nat.not_le] at hd
    rw [perform_negation hm]
    exact grow_eq_tooDeep (hd.resolve_right (not_not_intro (List.forall_mem_cons.1 hes).2))
  | .reduce (.binary op), r :: l :: es =>
    obtain rfl := Option.some.inj h
    rw [List.forall_mem_cons, not_and_or, Nat.not_le] at hd
    rw [List.forall_mem_cons, List.forall_mem_cons] at hes
    rw [perform_binary hm]
    exact grow_eq_tooDeep (hd.resolve_right (not_not_intro hes.2.2))

theorem perform_eq_error {i : Instruction α} (hm : m.branches = es.map Branch.ofExpr)
    (h : i.apply es = none) : ∃ halt, m.perform i = .error halt := by
  match i, es with
  | .reduce .opening, _ => exact ⟨_, rfl⟩
  | .reduce .negation, [] =>
    rw [perform, reduce, hm]
    exact ⟨_, rfl⟩
  | .reduce (.binary op), [] =>
    rw [perform, reduce, hm]
    exact ⟨_, rfl⟩
  | .reduce (.binary op), [e] =>
    rw [perform, reduce, hm]
    exact ⟨_, rfl⟩

variable {code : List (Instruction α)}

/-- The machine makes the assembled trees if none of them is too deep. -/
theorem execute_eq_ok (hm : m.branches = es.map Branch.ofExpr) (h : assemble es code = some es')
    (hd : ∀ e ∈ es', e.depth ≤ depthLimit) :
    ∃ m', m.execute code = .ok m' ∧ m'.branches = es'.map Branch.ofExpr := by
  induction code generalizing m es with
  | nil => exact ⟨m, rfl, Option.some.inj h ▸ hm⟩
  | cons i code ih =>
    obtain ⟨es₁, h₁, h₂⟩ := Option.bind_eq_some_iff.1 h
    obtain ⟨m₁, hp, hm₁⟩ := perform_eq_ok hm h₁ (depth_le_of_assemble h₂ hd)
    rw [execute, hp]
    exact ih hm₁ h₂

/-- The machine stops at the limit if an assembled tree is too deep. -/
theorem execute_eq_tooDeep (hm : m.branches = es.map Branch.ofExpr)
    (hes : ∀ e ∈ es, e.depth ≤ depthLimit) (h : assemble es code = some es')
    (hd : ¬ ∀ e ∈ es', e.depth ≤ depthLimit) :
    ∃ rs, m.execute code = .error ⟨.tooDeep depthLimit, rs⟩ := by
  induction code generalizing m es with
  | nil => exact absurd (Option.some.inj h ▸ hes) hd
  | cons i code ih =>
    obtain ⟨es₁, h₁, h₂⟩ := Option.bind_eq_some_iff.1 h
    by_cases hes₁ : ∀ e ∈ es₁, e.depth ≤ depthLimit
    · obtain ⟨m₁, hp, hm₁⟩ := perform_eq_ok hm h₁ hes₁
      rw [execute, hp]
      exact ih hm₁ hes₁ h₂
    · rw [execute, perform_eq_tooDeep hm h₁ hes hes₁]
      exact ⟨_, rfl⟩

/-- The machine stops if an operand is missing. -/
theorem execute_eq_error (hm : m.branches = es.map Branch.ofExpr)
    (hes : ∀ e ∈ es, e.depth ≤ depthLimit) (h : assemble es code = none) :
    ∃ halt, m.execute code = .error halt := by
  induction code generalizing m es with
  | nil => cases h
  | cons i code ih =>
    unfold assemble at h
    unfold execute
    cases h₁ : i.apply es with
    | none =>
      obtain ⟨halt, hp⟩ := perform_eq_error hm h₁
      exact ⟨halt, by rw [hp]; rfl⟩
    | some es₁ =>
      rw [h₁] at h
      by_cases hes₁ : ∀ e ∈ es₁, e.depth ≤ depthLimit
      · obtain ⟨m₁, hp, hm₁⟩ := perform_eq_ok hm h₁ hes₁
        rw [hp]
        exact ih hm₁ hes₁ h
      · rw [perform_eq_tooDeep hm h₁ hes hes₁]
        exact ⟨_, rfl⟩

end Machine

end InfixAlgebra
