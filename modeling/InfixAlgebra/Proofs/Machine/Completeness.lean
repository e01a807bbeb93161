import InfixAlgebra.Proofs.Machine.Simulation

/-!
# Runs follow loose derivations

The tokens that the machine has taken in are explained by what is pending: every pending entry
stands right after what it was pushed on (`Opens`), and behind the newest entry there are operands
in a row.  Each step keeps that (`Follows.take`), and at the end nothing is pending any more, so the
tokens of a text for which the machine builds a tree have a loose derivation
(`exists_derivesLoosely_of_build`).
-/

namespace InfixAlgebra

variable {α : Type u}

/-- The tokens up to the newest of some pending entries.  A binary operator is pending right after
its left operand, and what is pending below does not bind tighter. -/
inductive Opens : List (Token α) → List Pending → Prop
  | start : Opens [] []
  | opening {ts ps us code} : Opens ts ps → DerivesLoosely 4 us code →
      Opens (ts ++ (us ++ [.opening])) (.opening :: ps)
  | negation {ts ps} : Opens ts ps → Opens (ts ++ [.operator .sub]) (.negation :: ps)
  | binary {ts ps op ls l} : Opens ts ps → (∀ p ∈ ps.head?, p.level ≤ op.precedence) →
      DerivesLoosely (op.precedence + 1) ls l → EndsOperand ls →
      Opens (ts ++ (ls ++ [.operator op])) (.binary op :: ps)

/-- The tokens up to the newest pending entry, and operands in a row after them. -/
def Follows (ts : List (Token α)) (ps : List Pending) : Prop :=
  ∃ before operands code, ts = before ++ operands ∧ Opens before ps ∧
    DerivesLoosely 4 operands code

namespace Opens

variable {ts us : List (Token α)} {ps qs : List Pending}

theorem not_endsOperand (h : Opens ts ps) : ¬ EndsOperand ts := by
  cases h with
  | start => exact fun h => h.ne_nil rfl
  | opening _ _ | binary _ _ _ _ =>
    rw [← List.append_assoc, endsOperand_concat]
    exact Bool.false_ne_true
  | negation _ =>
    rw [endsOperand_concat]
    exact Bool.false_ne_true

theorem follows (h : Opens ts ps) : Follows ts ps :=
  ⟨ts, [], [], (List.append_nil ts).symm, h, .empty⟩

/-- Tokens that end an operand go beyond the newest pending entry. -/
theorem endsOperand_of_append (h : Opens ts ps) (he : EndsOperand (ts ++ us)) : EndsOperand us := by
  refine he.of_append ?_
  rintro rfl
  rw [List.append_nil] at he
  exact h.not_endsOperand he

/-- What binds tighter than the level `n` is reduced with the tokens behind it. -/
theorem unwind {n k : Nat} {code : List (Instruction α)} (h : Opens ts (qs ++ ps))
    (hu : DerivesLoosely k us code) (hn : n < k) (hq : ∀ q ∈ qs, n < q.level)
    (hk : ∀ p ∈ (qs ++ ps).head?, p.level ≤ k) :
    ∃ before rest code', ts ++ us = before ++ rest ∧ Opens before ps ∧
      DerivesLoosely (n + 1) rest code' := by
  induction qs generalizing ts us k code with
  | nil => exact ⟨ts, us, code, rfl, h, hu.mono hn⟩
  | cons q qs ih =>
    rw [List.forall_mem_cons] at hq
    have hqk : q.level ≤ k := hk q rfl
    cases h with
    | opening _ _ => exact absurd hq.1 (Nat.not_lt_zero n)
    | @negation ts _ h =>
      rw [List.append_assoc]
      exact ih h (hu.mono hqk).negation hq.1 hq.2 fun p _ => p.level_le
    | @binary ts _ op ls _ h hp hl he =>
      rw [List.append_assoc, List.append_assoc]
      exact ih h (hl.binary he (hu.mono hqk)) hq.1 hq.2 hp

/-- Whatever is pending inside a parenthesis is reduced when it is closed. -/
theorem unwind_of_not_mem {code : List (Instruction α)} (h : Opens ts (qs ++ ps))
    (hu : DerivesLoosely 4 us code) (hq : .opening ∉ qs) :
    ∃ before rest code', ts ++ us = before ++ rest ∧ Opens before ps ∧
      DerivesLoosely 1 rest code' := by
  refine h.unwind hu (by decide) (fun q hm => ?_) fun p _ => p.level_le_four
  apply Pending.level_pos
  rintro rfl
  exact hq hm

end Opens

/-! ## One step -/

theorem endsOperand_iff_any {ts : List (Token α)} :
    EndsOperand ts ↔ ts.getLast?.any Token.endsOperand = true := by
  rw [Option.any_eq_true]
  rfl

/-- Some pending entries, parted where an incoming operator stops reducing. -/
theorem Pending.exists_append (op : Operator) (ps : List Pending) :
    ∃ qs rs, ps = qs ++ rs ∧ (∀ q ∈ qs, op.precedence < q.level) ∧
      ∀ p ∈ rs.head?, p.level ≤ op.precedence := by
  induction ps with
  | nil => exact ⟨[], [], rfl, by simp, by simp⟩
  | cons p ps ih =>
    by_cases hp : op.precedence < p.level
    · obtain ⟨qs, rs, rfl, hq, hr⟩ := ih
      exact ⟨p :: qs, rs, rfl, List.forall_mem_cons.2 ⟨hp, hq⟩, hr⟩
    · refine ⟨[], p :: ps, rfl, by simp, fun q hq => ?_⟩
      rw [← Option.some.inj hq]
      exact Nat.not_lt.1 hp

theorem Machine.mem_of_reduceToOpening {f : Reducer α} {m m' : Machine α} {ps : List Pending}
    (h : m.reduceToOpening f ps = .ok m') : .opening ∈ ps := by
  induction ps generalizing m with
  | nil => cases h
  | cons p ps ih =>
    by_cases hp : p = .opening
    · exact hp ▸ List.mem_cons_self
    · rw [reduceToOpening_cons f m hp] at h
      obtain ⟨m₁, -, h⟩ := Except.bind_eq_ok_iff.1 h
      exact List.mem_cons_of_mem p (ih h)

theorem Machine.not_mem_of_reduceAll {f : Reducer α} {m m' : Machine α} {ps : List Pending}
    (h : m.reduceAll f ps = .ok m') : .opening ∉ ps := by
  induction ps generalizing m with
  | nil => exact List.not_mem_nil
  | cons p ps ih =>
    by_cases hp : p = .opening
    · rw [hp] at h
      cases h
    · rw [reduceAll_cons f m hp] at h
      obtain ⟨m₁, -, h⟩ := Except.bind_eq_ok_iff.1 h
      exact fun hm => (List.mem_cons.1 hm).elim (fun he => hp he.symm) (ih h)

namespace Follows

open Machine

variable {ts : List (Token α)} {ps qs : List Pending} {m m' : Machine α}

theorem number (h : Follows ts ps) (x : α) : Follows (ts ++ [.number x]) ps := by
  obtain ⟨before, operands, code, rfl, ho, hd⟩ := h
  exact ⟨before, _, _, List.append_assoc .., ho, hd.number x⟩

theorem symbol (h : Follows ts ps) (s : Symbol) : Follows (ts ++ [.symbol s]) ps := by
  obtain ⟨before, operands, code, rfl, ho, hd⟩ := h
  exact ⟨before, _, _, List.append_assoc .., ho, hd.symbol s⟩

theorem opening (h : Follows ts ps) : Follows (ts ++ [.opening]) (.opening :: ps) := by
  obtain ⟨before, operands, code, rfl, ho, hd⟩ := h
  rw [List.append_assoc]
  exact (ho.opening hd).follows

theorem negation (h : Follows ts ps) (ht : ¬ EndsOperand ts) :
    Follows (ts ++ [.operator .sub]) (.negation :: ps) := by
  obtain ⟨before, operands, code, rfl, ho, hd⟩ := h
  obtain rfl : operands = [] :=
    hd.endsOperand.resolve_right fun he => ht (he.append before)
  rw [List.append_nil]
  exact ho.negation.follows

theorem binary {op : Operator} (h : Follows ts (qs ++ ps)) (ht : EndsOperand ts)
    (hq : ∀ q ∈ qs, op.precedence < q.level) (hp : ∀ p ∈ ps.head?, p.level ≤ op.precedence) :
    Follows (ts ++ [.operator op]) (.binary op :: ps) := by
  obtain ⟨before, operands, code, rfl, ho, hd⟩ := h
  obtain ⟨before', rest, code', he, ho', hd'⟩ :=
    ho.unwind hd (Nat.lt_succ_of_le op.precedence_le) hq fun p _ => p.level_le_four
  rw [he] at ht ⊢
  rw [List.append_assoc]
  exact (ho'.binary hp hd' (ho'.endsOperand_of_append ht)).follows

theorem closing (h : Follows ts (qs ++ .opening :: ps)) (ht : ts.getLast? ≠ some .opening)
    (hq : .opening ∉ qs) : Follows (ts ++ [.closing]) ps := by
  obtain ⟨before, operands, code, rfl, ho, hd⟩ := h
  obtain ⟨before', rest, code', he, ho', hd'⟩ := ho.unwind_of_not_mem hd hq
  rw [he] at ht ⊢
  cases ho' with
  | @opening ts _ us _ ho hu =>
    have hr : rest ≠ [] := by
      rintro rfl
      rw [List.append_nil, ← List.append_assoc, List.getLast?_concat] at ht
      exact ht rfl
    refine ⟨ts, us ++ .opening :: (rest ++ [.closing]), _, ?_, ho, hu.group hd' hr⟩
    simp

/-- Taking an operator in goes on with the explanation. -/
theorem takeOperator {op : Operator} (h : Follows ts m.pending) (hp : m.previous = ts.getLast?)
    (hm : m.takeOperator reduce op = .ok m') : Follows (ts ++ [.operator op]) m'.pending := by
  rw [takeOperator_eq, leftIsEmpty_eq, hp] at hm
  split_ifs at hm with hl hs
  · subst hs
    obtain rfl := Except.ok.inj hm
    refine h.negation fun he => ?_
    rw [endsOperand_iff_any.1 he] at hl
    cases hl
  · cases hm
  · have he : EndsOperand ts := by
      rw [endsOperand_iff_any]
      simpa using hl
    obtain ⟨qs, rs, hps, hq, hr⟩ := Pending.exists_append op m.pending
    rw [hps] at h
    rw [hps, reducePreceding_append hq hr] at hm
    obtain ⟨m₁, hm₁, rfl⟩ := Except.map_eq_ok_iff.1 hm
    obtain ⟨m₂, -, rfl⟩ := Except.map_eq_ok_iff.1 hm₁
    exact h.binary he hq hr

/-- Taking a token in goes on with the explanation. -/
theorem take {t : Token α} (h : Follows ts m.pending) (hp : m.previous = ts.getLast?)
    (hm : m.take reduce t = .ok m') : Follows (ts ++ [t]) m'.pending := by
  cases t with
  | number x =>
    obtain rfl := Except.ok.inj hm
    exact h.number x
  | symbol s =>
    obtain rfl := Except.ok.inj hm
    exact h.symbol s
  | operator op => exact h.takeOperator hp hm
  | opening =>
    obtain rfl := Except.ok.inj hm
    exact h.opening
  | closing =>
    unfold Machine.take at hm
    split_ifs at hm with hj
    · cases hm
    · have ht : ts.getLast? ≠ some .opening := fun he => by
        rw [justOpened, hp, he] at hj
        exact hj rfl
      obtain ⟨qs, rs, hps, hq⟩ := List.eq_append_cons_of_mem (mem_of_reduceToOpening hm)
      rw [hps] at h
      rw [hps, reduceToOpening_append hq] at hm
      obtain ⟨m₁, -, rfl⟩ := Except.map_eq_ok_iff.1 hm
      exact h.closing ht hq

/-- The explanation goes on through a run. -/
theorem run {us : List (Token α)} (h : Follows ts m.pending) (hp : m.previous = ts.getLast?)
    (hm : m.run reduce us = .ok m') : Follows (ts ++ us) m'.pending := by
  induction us generalizing ts m with
  | nil =>
    obtain rfl := Except.ok.inj hm
    rwa [List.append_nil]
  | cons u us ih =>
    rw [run_cons] at hm
    obtain ⟨m₁, ht, hm⟩ := Except.bind_eq_ok_iff.1 hm
    have hf : Follows (ts ++ [u]) m₁.pending := h.take hp ht
    rw [← List.singleton_append, ← List.append_assoc]
    exact ih (m := { m₁ with previous := some u }) hf List.getLast?_concat.symm hm

end Follows

/-! ## Whole runs -/

namespace Machine

variable {ts : List (Token α)}

/-- A text for which the machine builds a tree has a loose derivation. -/
theorem exists_derivesLoosely_of_build {x : Machine α × Expr α} (h : build ts = .ok x) :
    ts ≠ [] ∧ ∃ code, DerivesLoosely 1 ts code := by
  rw [build_eq_bind] at h
  split_ifs at h with hts
  · cases h
  refine ⟨fun he => hts (he ▸ rfl), ?_⟩
  obtain ⟨m, hm, hf⟩ := Except.bind_eq_ok_iff.1 h
  rw [finish_eq_bind] at hf
  obtain ⟨m', ha, -⟩ := Except.bind_eq_ok_iff.1 hf
  have hno := not_mem_of_reduceAll ha
  obtain ⟨before, operands, code, he, ho, hd⟩ := Opens.start.follows.run (m := start) rfl hm
  rw [← List.append_nil m.pending] at ho
  obtain ⟨before', rest, code', he', ho', hd'⟩ := ho.unwind_of_not_mem hd hno
  cases ho'
  rw [List.nil_append] at he he'
  exact ⟨code', he.trans he' ▸ hd'⟩

/-- A tree that is built is assembled by the instructions of a loose derivation. -/
theorem exists_assemble_of_build {m : Machine α} {e : Expr α} (h : build ts = .ok (m, e)) :
    ts ≠ [] ∧ ∃ code, DerivesLoosely 1 ts code ∧ Instruction.assemble [] code = some [e] ∧
      e.depth ≤ depthLimit := by
  obtain ⟨hts, code, hd⟩ := exists_derivesLoosely_of_build h
  exact ⟨hts, code, hd, assemble_of_build hd hts h⟩

end Machine

end InfixAlgebra
