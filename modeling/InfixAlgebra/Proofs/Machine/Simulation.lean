import InfixAlgebra.Proofs.Grammar.Loose

/-!
# The machine on loose derivations

The machine carries out the instructions of a loose derivation, in their order.  It does so lazily:
after the tokens of the derivation the last reductions are still pending.
`DerivesLoosely.runsLazily` says that the instructions are some that have been carried out,
followed by reductions that are pending, and that these bind at least as tight as the level of the
derivation; so whatever may stand next reduces them.

`build_eq` is the result for all tokens of a text: building a tree is carrying out the instructions,
and then asking for the only branch.
-/

namespace InfixAlgebra

variable {α : Type u}

/-- How tight a pending entry holds its operand, on the scale of precedences. -/
def Pending.level : Pending → Nat
  | .opening => 0
  | .negation => negationPrecedence + 1
  | .binary op => op.precedence

theorem Pending.precedes_iff {p : Pending} {op : Operator} :
    p.precedes op = true ↔ op.precedence < p.level := by
  cases p with
  | opening => exact iff_of_false Bool.false_ne_true (Nat.not_lt_zero _)
  | negation => exact decide_eq_true_iff.trans Nat.lt_succ_iff.symm
  | binary op' => exact decide_eq_true_iff

theorem Pending.level_le (p : Pending) : p.level ≤ 3 := by
  cases p with
  | opening => decide
  | negation => decide
  | binary op => exact op.precedence_le

/-- Nothing pending holds its operand as tight as the operand holds itself together. -/
theorem Pending.level_le_four (p : Pending) : p.level ≤ 4 := Nat.le_succ_of_le p.level_le

theorem Pending.level_pos {p : Pending} (h : p ≠ .opening) : 0 < p.level := by
  cases p with
  | opening => exact absurd rfl h
  | negation => decide
  | binary op => exact op.precedence_pos

namespace Machine

/-! ## Steps in a row -/

section Loops

variable (f : Reducer α) (m : Machine α)

theorem reduceToOpening_cons {p : Pending} (hp : p ≠ .opening) (ps : List Pending) :
    m.reduceToOpening f (p :: ps) = (f m p).bind fun m' => m'.reduceToOpening f ps := by
  rw [reduceToOpening]
  · cases f m p <;> rfl
  · exact hp

theorem reducePreceding_cons {op : Operator} {p : Pending} (hp : op.precedence < p.level)
    (ps : List Pending) :
    m.reducePreceding f op (p :: ps) = (f m p).bind fun m' => m'.reducePreceding f op ps := by
  rw [reducePreceding, if_pos (Pending.precedes_iff.2 hp)]
  cases f m p <;> rfl

theorem reducePreceding_of_le {op : Operator} {ps : List Pending}
    (hp : ∀ p ∈ ps.head?, p.level ≤ op.precedence) :
    m.reducePreceding f op ps = .ok { m with pending := ps } := by
  cases ps with
  | nil => rfl
  | cons p ps =>
    have h : ¬ p.precedes op = true := by
      rw [Pending.precedes_iff]
      exact Nat.not_lt.2 (hp p rfl)
    rw [reducePreceding, if_neg h]

theorem reduceAll_cons {p : Pending} (hp : p ≠ .opening) (ps : List Pending) :
    m.reduceAll f (p :: ps) = (f m p).bind fun m' => m'.reduceAll f ps := by
  rw [reduceAll]
  · cases f m p <;> rfl
  · exact hp

theorem takeOperator_eq (op : Operator) :
    m.takeOperator f op =
      if m.leftIsEmpty then if op = .sub then .ok (m.push .negation) else m.halt (.nothingOnLeft op)
      else (m.reducePreceding f op m.pending).map fun m' => m'.push (.binary op) := by
  unfold takeOperator
  cases m.reducePreceding f op m.pending <;> rfl

theorem run_cons (t : Token α) (ts : List (Token α)) :
    m.run f (t :: ts) = (m.take f t).bind fun m' => { m' with previous := some t }.run f ts := by
  rw [run, step]
  cases m.take f t <;> rfl

theorem run_append (ts us : List (Token α)) :
    m.run f (ts ++ us) = (m.run f ts).bind fun m' => m'.run f us := by
  induction ts generalizing m with
  | nil => rfl
  | cons t ts ih =>
    rw [List.cons_append, run_cons, run_cons]
    cases m.take f t with
    | error h => rfl
    | ok m' => exact ih _

theorem finish_eq_bind :
    m.finish f = (m.reduceAll f m.pending).bind fun m' =>
      match m'.branches with
      | [branch] => .ok (m', branch.expr)
      | _ => m'.halt .malformed := by
  unfold finish
  cases m.reduceAll f m.pending <;> rfl

theorem buildBy_eq_bind (ts : List (Token α)) :
    buildBy f ts =
      if ts.isEmpty then start.halt .emptyText else (start.run f ts).bind (finish f) := by
  unfold buildBy
  cases start.run f ts <;> rfl

end Loops

theorem build_eq_bind (ts : List (Token α)) :
    build ts =
      if ts.isEmpty then start.halt .emptyText else (start.run reduce ts).bind (finish reduce) :=
  buildBy_eq_bind reduce ts

theorem leftIsEmpty_eq (m : Machine α) : m.leftIsEmpty = !m.previous.any Token.endsOperand := by
  unfold leftIsEmpty
  match m.previous with
  | none => rfl
  | some t => cases t <;> rfl

theorem justOpened_eq_false {m : Machine α} (h : m.previous ≠ some .opening) :
    m.justOpened = false := by
  unfold justOpened
  split
  · contradiction
  · rfl

/-! ## Reducing pending entries -/

theorem previous_of_reduce {m m' : Machine α} {p : Pending} (h : m.reduce p = .ok m') :
    m'.previous = m.previous := by
  have ha := perform_await m m.pending m.previous (.reduce p)
  rw [await_self, perform, h] at ha
  have he : m' = m'.await m.pending m.previous := Except.ok.inj ha
  rw [he, await_previous]

theorem reducePreceding_append {m : Machine α} {op : Operator} {ps qs : List Pending}
    (hq : ∀ q ∈ qs, op.precedence < q.level) (hp : ∀ p ∈ ps.head?, p.level ≤ op.precedence) :
    m.reducePreceding reduce op (qs ++ ps) =
      (m.execute (qs.map .reduce)).map fun m' => m'.await ps m.previous := by
  induction qs generalizing m with
  | nil => exact reducePreceding_of_le reduce m hp
  | cons q qs ih =>
    rw [List.forall_mem_cons] at hq
    rw [List.cons_append, reducePreceding_cons reduce m hq.1, List.map_cons, execute, perform]
    cases hr : m.reduce q with
    | error h => rfl
    | ok m' =>
      rw [← previous_of_reduce hr]
      exact ih hq.2

theorem reduceToOpening_append {m : Machine α} {ps qs : List Pending} (hq : .opening ∉ qs) :
    m.reduceToOpening reduce (qs ++ .opening :: ps) =
      (m.execute (qs.map .reduce)).map fun m' => m'.await ps m.previous := by
  induction qs generalizing m with
  | nil => rfl
  | cons q qs ih =>
    rw [List.mem_cons, not_or] at hq
    rw [List.cons_append, reduceToOpening_cons reduce m (Ne.symm hq.1), List.map_cons, execute,
      perform]
    cases hr : m.reduce q with
    | error h => rfl
    | ok m' =>
      rw [← previous_of_reduce hr]
      exact ih hq.2

theorem reduceAll_eq (m : Machine α) (qs : List Pending) :
    m.reduceAll reduce qs = (m.execute (qs.map .reduce)).map fun m' => m'.await [] m.previous := by
  induction qs generalizing m with
  | nil => rfl
  | cons q qs ih =>
    by_cases hq : q = .opening
    · -- To reduce an opening parenthesis would be the same fault.
      rw [hq]
      rfl
    · rw [reduceAll_cons reduce m hq, List.map_cons, execute, perform]
      cases hr : m.reduce q with
      | error h => rfl
      | ok m' =>
        rw [← previous_of_reduce hr]
        exact ih m'

end Machine

/-! ## Tokens as instructions -/

open Machine

/-- With `ps` pending and after `t`, to take `ts` in is to carry `code` out; then `qs` are pending,
and `u` is the last token. -/
def RunsAs (ps : List Pending) (t : Option (Token α)) (ts : List (Token α))
    (code : List (Instruction α)) (qs : List Pending) (u : Option (Token α)) : Prop :=
  ∀ m : Machine α, (m.await ps t).run reduce ts = (m.execute code).map fun m' => m'.await qs u

/-- The last of some tokens, or else the one before them. -/
theorem getLast?_append_cons_or {β : Type u} (ts : List β) (t : β) (us : List β) (o : Option β) :
    (ts ++ t :: us).getLast?.or o = us.getLast?.or (some t) := by
  rw [List.getLast?_append_cons, List.getLast?_cons, Option.some_or]
  cases us.getLast? <;> rfl

namespace RunsAs

variable {ps qs rs : List Pending} {t u v : Option (Token α)} {ts us : List (Token α)}
  {code code' : List (Instruction α)}

theorem nil (ps : List Pending) (t : Option (Token α)) : RunsAs ps t [] [] ps t := fun _ => rfl

theorem append (h : RunsAs ps t ts code qs u) (h' : RunsAs qs u us code' rs v) :
    RunsAs ps t (ts ++ us) (code ++ code') rs v := by
  intro m
  rw [run_append, h m, execute_append]
  cases m.execute code with
  | error halt => rfl
  | ok m' => exact h' m'

theorem number (ps : List Pending) (t : Option (Token α)) (x : α) :
    RunsAs ps t [.number x] [.shift (.number x) rfl] ps (some (.number x)) := fun _ => rfl

theorem symbol (ps : List Pending) (t : Option (Token α)) (s : Symbol) :
    RunsAs ps t [.symbol s] [.shift (.symbol s) rfl] ps (some (.symbol s)) := fun _ => rfl

theorem opening (ps : List Pending) (t : Option (Token α)) :
    RunsAs ps t [.opening] [] (.opening :: ps) (some .opening) := fun _ => rfl

theorem negation (ps : List Pending) (ht : t.any Token.endsOperand = false) :
    RunsAs ps t [.operator .sub] [] (.negation :: ps) (some (.operator .sub)) := by
  intro m
  have hl : (m.await ps t).leftIsEmpty = true := by rw [leftIsEmpty_eq, await_previous, ht]; rfl
  rw [run, step, take, takeOperator, if_pos hl]
  rfl

theorem binary {op : Operator} (ht : t.any Token.endsOperand = true)
    (hq : ∀ q ∈ qs, op.precedence < q.level) (hp : ∀ p ∈ ps.head?, p.level ≤ op.precedence) :
    RunsAs (qs ++ ps) t [.operator op] (qs.map .reduce) (.binary op :: ps)
      (some (.operator op)) := by
  intro m
  have hl : ¬ (m.await (qs ++ ps) t).leftIsEmpty = true := by
    rw [leftIsEmpty_eq, await_previous, ht]
    decide
  rw [run, step, take, takeOperator, if_neg hl, await_pending, reducePreceding_append hq hp,
    execute_await]
  cases m.execute (qs.map .reduce) <;> rfl

theorem closing (ht : t ≠ some .opening) (hq : .opening ∉ qs) :
    RunsAs (qs ++ .opening :: ps) t [.closing] (qs.map .reduce) ps (some .closing) := by
  intro m
  have hj : (m.await (qs ++ .opening :: ps) t).justOpened = false := justOpened_eq_false ht
  rw [run, step, take, hj, if_neg Bool.false_ne_true, await_pending, reduceToOpening_append hq,
    execute_await]
  cases m.execute (qs.map .reduce) <;> rfl

end RunsAs

/-- The machine carries the instructions of tokens out, except for reductions that are still pending
and hold their operands at least as tight as the level `k`. -/
def RunsLazily (k : Nat) (ts : List (Token α)) (code : List (Instruction α)) : Prop :=
  ∃ emitted kept, code = emitted ++ kept.map .reduce ∧ (∀ p ∈ kept, k ≤ p.level) ∧
    ∀ ps t, t.any Token.endsOperand = false → (∀ p ∈ ps.head?, p.level ≤ k) →
      RunsAs ps t ts emitted (kept ++ ps) (ts.getLast?.or t)

section

variable {k : Nat} {ts ls rs us : List (Token α)} {code code' : List (Instruction α)}

/-- Nothing is pending after operands in a row. -/
theorem runsLazily_four_iff : RunsLazily 4 ts code ↔
    ∀ ps t, t.any Token.endsOperand = false → RunsAs ps t ts code ps (ts.getLast?.or t) := by
  constructor
  · rintro ⟨emitted, kept, rfl, hk, hr⟩ ps t ht
    obtain rfl : kept = [] := List.eq_nil_iff_forall_not_mem.2 fun p hp => by
      have h4 := hk p hp
      have h3 := p.level_le
      omega
    simpa using hr ps t ht fun p _ => p.level_le_four
  · exact fun hr => ⟨code, [], by simp, by simp, fun ps t ht _ => hr ps t ht⟩

theorem RunsLazily.weaken (h : RunsLazily (k + 1) ts code) : RunsLazily k ts code := by
  obtain ⟨emitted, kept, rfl, hk, hr⟩ := h
  refine ⟨emitted, kept, rfl, fun p hp => Nat.le_of_lt (hk p hp), fun ps t ht hp => ?_⟩
  exact hr ps t ht fun p h => Nat.le_succ_of_le (hp p h)

theorem RunsLazily.group (h : RunsLazily 4 ts code) (h' : RunsLazily 1 us code') (hus : us ≠ [])
    (ho : us.getLast? ≠ some .opening) :
    RunsLazily 4 (ts ++ .opening :: (us ++ [.closing])) (code ++ code') := by
  obtain ⟨emitted, kept, rfl, hk, hr⟩ := h'
  rw [runsLazily_four_iff] at h ⊢
  intro ps t ht
  have hl : us.getLast?.or (some .opening) ≠ some .opening := by
    rwa [List.getLast?_eq_some_getLast hus, Option.some_or, ← List.getLast?_eq_some_getLast hus]
  have hi := hr (.opening :: ps) (some .opening) rfl fun p hp => by
    obtain rfl := Option.some.inj hp
    decide
  have hc := hi.append (.closing hl fun hm => absurd (hk _ hm) (by decide))
  rw [getLast?_append_cons_or, List.getLast?_concat, Option.some_or]
  exact (h ps t ht).append ((RunsAs.opening ps _).append hc)

theorem RunsLazily.negation (h : RunsLazily 3 ts code) :
    RunsLazily 3 (.operator .sub :: ts) (code ++ [.reduce .negation]) := by
  obtain ⟨emitted, kept, rfl, hk, hr⟩ := h
  refine ⟨emitted, kept ++ [.negation], by simp, ?_, fun ps t ht hp => ?_⟩
  · rw [List.forall_mem_append, List.forall_mem_singleton]
    exact ⟨hk, Nat.le_refl 3⟩
  · have hi := hr (.negation :: ps) (some (.operator .sub)) rfl fun p hp => p.level_le
    rw [List.append_assoc, ← List.nil_append (_ :: ts), getLast?_append_cons_or]
    exact (RunsAs.negation ps ht).append hi

theorem RunsLazily.binary {op : Operator} (hl : RunsLazily (op.precedence + 1) ls code)
    (he : EndsOperand ls) (hr : RunsLazily op.precedence rs code') :
    RunsLazily op.precedence (ls ++ .operator op :: rs)
      (code ++ code' ++ [.reduce (.binary op)]) := by
  obtain ⟨emitted, kept, rfl, hk, hr₁⟩ := hl
  obtain ⟨emitted', kept', rfl, hk', hr₂⟩ := hr
  refine ⟨emitted ++ (kept.map .reduce ++ emitted'), kept' ++ [.binary op], by simp, ?_,
    fun ps t ht hp => ?_⟩
  · rw [List.forall_mem_append, List.forall_mem_singleton]
    exact ⟨hk', Nat.le_refl _⟩
  · have hi := hr₁ ps t ht fun p h => Nat.le_succ_of_le (hp p h)
    have he : (ls.getLast?.or t).any Token.endsOperand = true := by
      obtain ⟨u, hu, he⟩ := he
      rw [Option.mem_def.1 hu]
      exact he
    have hi' := hr₂ (.binary op :: ps) (some (.operator op)) rfl fun p hp => by
      obtain rfl := Option.some.inj hp
      exact Nat.le_refl _
    rw [List.append_assoc, getLast?_append_cons_or]
    exact hi.append ((RunsAs.binary he hk hp).append hi')

end

namespace DerivesLoosely

variable {k : Nat} {ts : List (Token α)} {code : List (Instruction α)}

theorem getLast?_ne_opening (h : DerivesLoosely k ts code) : ts.getLast? ≠ some .opening := by
  induction h with
  | empty => simp
  | number x _ _ | symbol s _ _ => simp
  | @group ts _ us _ _ _ _ _ _ =>
    rw [← List.cons_append, ← List.append_assoc, List.getLast?_concat]
    simp
  | @negation ts _ _ ih =>
    rw [List.getLast?_cons]
    cases h : ts.getLast? with
    | none => simp
    | some t => simpa [h] using ih
  | @binary op ls _ rs _ _ _ _ _ ih =>
    rw [List.getLast?_append_cons, List.getLast?_cons]
    cases h : rs.getLast? with
    | none => simp
    | some t => simpa [h] using ih
  | weaken _ ih => exact ih

theorem runsLazily (h : DerivesLoosely k ts code) : RunsLazily k ts code := by
  induction h with
  | empty => exact runsLazily_four_iff.2 fun ps t _ => .nil ps t
  | number x _ ih =>
    rw [runsLazily_four_iff] at ih ⊢
    intro ps t ht
    rw [List.getLast?_concat]
    exact (ih ps t ht).append (.number ps _ x)
  | symbol s _ ih =>
    rw [runsLazily_four_iff] at ih ⊢
    intro ps t ht
    rw [List.getLast?_concat]
    exact (ih ps t ht).append (.symbol ps _ s)
  | group _ h hus ih ih' => exact ih.group ih' hus h.getLast?_ne_opening
  | negation _ ih => exact ih.negation
  | binary _ he _ ihl ihr => exact ihl.binary he ihr
  | weaken _ ih => exact ih.weaken

end DerivesLoosely

/-! ## Building a tree -/

namespace Machine

theorem finish_eq (m : Machine α) :
    m.finish reduce = (m.execute (m.pending.map .reduce)).bind fun m' =>
      (m'.await [] m.previous).finish reduce := by
  rw [finish, reduceAll_eq]
  cases m.execute (m.pending.map .reduce) <;> rfl

/-- The result is the expression of the only branch. -/
theorem finish_eq_ok_iff {m m' : Machine α} {e : Expr α} (h : m.pending = []) :
    m.finish reduce = .ok (m', e) ↔ m' = m ∧ m.branches.map Branch.expr = [e] := by
  have hm : { m with pending := [] } = m := by rw [← h]
  rw [finish, h, reduceAll, hm]
  match hb : m.branches with
  | [] => simp [halt, hb]
  | [b] => simp [hb, eq_comm]
  | b :: b' :: bs => simp [halt, hb]

variable {ts : List (Token α)} {code : List (Instruction α)} {e : Expr α}

/-- Building a tree is carrying the instructions out, and then asking for the only branch. -/
theorem build_eq (h : DerivesLoosely 1 ts code) (hts : ts ≠ []) :
    build ts = (start.execute code).bind fun m =>
      (m.await [] ts.getLast?).finish reduce := by
  obtain ⟨emitted, kept, rfl, -, hr⟩ := h.runsLazily
  have hs := hr [] none rfl (by simp) start
  rw [build, buildBy, List.isEmpty_eq_false_iff.2 hts, if_neg Bool.false_ne_true, execute_append]
  rw [List.append_nil, Option.or_none] at hs
  rw [show start.run reduce ts = _ from hs]
  cases start.execute emitted with
  | error halt => rfl
  | ok m =>
    show (m.await kept ts.getLast?).finish reduce = _
    rw [finish_eq, execute_await, await_pending, await_previous]
    show _ = (m.execute (kept.map .reduce)).bind _
    cases m.execute (kept.map .reduce) <;> rfl

theorem build_eq_ok (h : DerivesLoosely 1 ts code) (hts : ts ≠ [])
    (ha : Instruction.assemble [] code = some [e]) (hd : e.depth ≤ depthLimit) :
    ∃ m, build ts = .ok (m, e) := by
  obtain ⟨m, hm, hb⟩ := execute_eq_ok (m := start) rfl ha (List.forall_mem_singleton.2 hd)
  rw [build_eq h hts, hm]
  refine ⟨_, (finish_eq_ok_iff (m := m.await [] ts.getLast?) rfl).2 ⟨rfl, ?_⟩⟩
  rw [await_branches, hb]
  rfl

theorem build_eq_tooDeep (h : DerivesLoosely 1 ts code) (hts : ts ≠ [])
    (ha : Instruction.assemble [] code = some [e]) (hd : depthLimit < e.depth) :
    ∃ rs, build ts = .error ⟨.tooDeep depthLimit, rs⟩ := by
  have hn : ¬ ∀ e' ∈ [e], e'.depth ≤ depthLimit := by
    rw [List.forall_mem_singleton]
    omega
  obtain ⟨rs, hm⟩ := execute_eq_tooDeep (m := start) rfl (by simp) ha hn
  rw [build_eq h hts, hm]
  exact ⟨rs, rfl⟩

/-- A tree that is built is what the instructions assemble. -/
theorem assemble_of_build {m : Machine α} (h : DerivesLoosely 1 ts code) (hts : ts ≠ [])
    (hb : build ts = .ok (m, e)) :
    Instruction.assemble [] code = some [e] ∧ e.depth ≤ depthLimit := by
  rw [build_eq h hts] at hb
  cases ha : Instruction.assemble [] code with
  | none =>
    obtain ⟨halt, hm⟩ := execute_eq_error (m := start) rfl (by simp) ha
    rw [hm] at hb
    cases hb
  | some es =>
    by_cases hd : ∀ e ∈ es, e.depth ≤ depthLimit
    · obtain ⟨m', hm, hb'⟩ := execute_eq_ok (m := start) rfl ha hd
      rw [hm] at hb
      have he := ((finish_eq_ok_iff (m := m'.await [] ts.getLast?) rfl).1 hb).2
      rw [await_branches, hb', List.map_map] at he
      rw [show es = [e] from (List.map_id _).symm.trans he] at hd ⊢
      exact ⟨rfl, hd e (List.mem_singleton.2 rfl)⟩
    · obtain ⟨rs, hm⟩ := execute_eq_tooDeep (m := start) rfl (by simp) ha hd
      rw [hm] at hb
      cases hb

end Machine

end InfixAlgebra
