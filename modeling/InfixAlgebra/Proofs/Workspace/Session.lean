import InfixAlgebra.Proofs.Parse.Built
import InfixAlgebra.Workspace

/-!
# Sessions

Whatever the commands of a session are, and whether they fail or not, the expressions in its
registers and in its answers are `Built` (`AllBuilt.session`).  So all their nodes have operands,
only a minus has a single one, all names are valid, and each of these expressions is built again
from what stands at its root and its operands (`nodes_of_session`).
-/

namespace InfixAlgebra

open InfixAlgebra.Expr

theorem Except.mapError_eq_ok_iff {ε ε' : Type u} {β : Type v} {x : Except ε β} {f : ε → ε'}
    {b : β} : x.mapError f = .ok b ↔ x = .ok b := by
  cases x <;> simp [Except.mapError]

theorem Failure.ofFault_eq_ok_iff {β : Type} {x : Except Fault β} {b : β} :
    Failure.ofFault x = .ok b ↔ x = .ok b :=
  Except.mapError_eq_ok_iff

/-- The symbol of a root that is read has a valid name. -/
theorem HeadText.isName_of_read {α : Type} {t : HeadText α} {s : Symbol}
    (h : t.read = .ok (.symbol s)) : Symbol.IsName s.name := by
  cases t with
  | number x => cases h
  | symbol name =>
    obtain ⟨s', hs, he⟩ := Except.map_eq_ok_iff.1 h
    obtain rfl := Head.symbol.inj he
    obtain ⟨hn, rfl⟩ := Symbol.ofName_eq_ok_iff.1 hs
    exact hn
  | operator text =>
    obtain ⟨op, -, he⟩ := Except.map_eq_ok_iff.1 h
    cases he

/-- The expressions that an answer shows. -/
def Answer.exprs {α : Type} : Answer α → List (Expr α)
  | .state e => [e]
  | .removed operand rest => [operand, rest]
  | .unchanged e _ => [e]
  | .evaluated (.unresolved e) => [e]
  | .inspected e => [e]
  | .reread e _ => [e]
  | _ => []

namespace Workspace

variable {α : Type} [Numeric α]

/-- All registers hold expressions that can be built. -/
def AllBuilt (w : Workspace α) : Prop := ∀ r ∈ w.registers, Built r.2

theorem allBuilt_empty : (empty : Workspace α).AllBuilt := nofun

namespace AllBuilt

variable {w w' : Workspace α} {e : Expr α} {es : List (Expr α)} {name : String}

theorem find (h : w.AllBuilt) (he : w.find name = .ok e) : Built e := by
  unfold Workspace.find find? at he
  cases hl : w.registers.lookup name with
  | none =>
    rw [hl] at he
    cases he
  | some e' =>
    rw [hl] at he
    obtain rfl := Except.ok.inj he
    obtain ⟨before, after, hr, -⟩ := List.lookup_eq_some_iff.1 hl
    exact h (name, e') (hr ▸ List.mem_append_right _ List.mem_cons_self)

theorem findAll {names : List String} (h : w.AllBuilt) (hes : w.findAll names = .ok es) :
    ∀ e ∈ es, Built e := by
  unfold Workspace.findAll at hes
  induction names generalizing es with
  | nil =>
    obtain rfl := Except.ok.inj hes
    exact nofun
  | cons name names ih =>
    rw [List.mapM_cons] at hes
    obtain ⟨e, he, hes⟩ := Except.bind_eq_ok_iff.1 hes
    obtain ⟨ds, hd, hes⟩ := Except.bind_eq_ok_iff.1 hes
    obtain rfl := Except.ok.inj hes
    exact List.forall_mem_cons.2 ⟨h.find he, ih hd⟩

theorem findAll? {names : Option (List String)} {es : Option (List (Expr α))} (h : w.AllBuilt)
    (hes : w.findAll? names = .ok es) : ∀ ds ∈ es, ∀ d ∈ ds, Built d := by
  cases names with
  | none =>
    obtain rfl := Except.ok.inj hes
    exact nofun
  | some names =>
    obtain ⟨ds, hd, rfl⟩ := Except.map_eq_ok_iff.1 hes
    intro ds' hd'
    obtain rfl := Option.some.inj hd'
    exact h.findAll hd

theorem store (h : w.AllBuilt) (name : String) (he : Built e) : (w.store name e).AllBuilt := by
  intro r hr
  rcases List.mem_cons.1 hr with rfl | hr
  · exact he
  · exact h r (List.mem_filter.1 hr).1

/-- What comes from a source is built. -/
theorem build {source : Source α} (h : w.AllBuilt) (hb : w.build source = .ok e) : Built e := by
  cases source with
  | number x =>
    obtain rfl := Except.ok.inj hb
    exact .number x
  | symbol name => exact .ofName (Failure.ofFault_eq_ok_iff.1 hb)
  | text text => exact .parse (Failure.ofFault_eq_ok_iff.1 hb)
  | datum datum => exact .read (Except.mapError_eq_ok_iff.1 hb)
  | head head operands =>
    obtain ⟨es, hes, hb⟩ := Except.bind_eq_ok_iff.1 hb
    obtain ⟨root, hr, hb⟩ := Except.bind_eq_ok_iff.1 (Failure.ofFault_eq_ok_iff.1 hb)
    refine .ofHead (fun s hs => ?_) (h.findAll? hes) hb
    exact HeadText.isName_of_read (hs ▸ hr)
  | tag tag operands =>
    obtain ⟨es, hes, hb⟩ := Except.bind_eq_ok_iff.1 hb
    exact .ofTag (h.findAll? hes) (Failure.ofFault_eq_ok_iff.1 hb)
  | operands operator operands =>
    obtain ⟨es, hes, hb⟩ := Except.bind_eq_ok_iff.1 hb
    obtain ⟨op, -, hb⟩ := Except.bind_eq_ok_iff.1 (Failure.ofFault_eq_ok_iff.1 hb)
    exact .ofOperands (h.findAll hes) hb
  | negation operand =>
    obtain ⟨d, hd, hb⟩ := Except.bind_eq_ok_iff.1 hb
    obtain rfl := Except.ok.inj hb
    exact .negation (h.find hd)
  | binary operator left right =>
    obtain ⟨l, hl, hb⟩ := Except.bind_eq_ok_iff.1 hb
    obtain ⟨r, hr, hb⟩ := Except.bind_eq_ok_iff.1 hb
    obtain ⟨op, -, hb⟩ := Except.bind_eq_ok_iff.1 (Failure.ofFault_eq_ok_iff.1 hb)
    obtain rfl := Except.ok.inj hb
    exact .binary (h.find hl) (h.find hr)
  | flatten target =>
    obtain ⟨d, hd, hb⟩ := Except.bind_eq_ok_iff.1 hb
    obtain rfl := Except.ok.inj hb
    exact .flatten (h.find hd)
  | copy target => exact h.find hb

variable [Arithmetic α] [BEq α] {command : Command α} {answer : Answer α}

/-- A command that is carried out leaves and shows only what can be built. -/
theorem perform (h : w.AllBuilt) (hp : w.perform command = .ok (w', answer)) :
    w'.AllBuilt ∧ ∀ e ∈ answer.exprs, Built e := by
  cases command with
  | store source register =>
    obtain ⟨e, he, hp⟩ := Except.bind_eq_ok_iff.1 hp
    obtain ⟨rfl, rfl⟩ := Prod.mk.inj (Except.ok.inj hp)
    have hb := h.build he
    exact ⟨h.store register hb, List.forall_mem_singleton.2 hb⟩
  | operand index target register =>
    obtain ⟨e, he, hp⟩ := Except.bind_eq_ok_iff.1 hp
    cases hd : e.operands[index]? with
    | none =>
      rw [hd] at hp
      obtain ⟨rfl, rfl⟩ := Prod.mk.inj (Except.ok.inj hp)
      exact ⟨h, nofun⟩
    | some d =>
      rw [hd] at hp
      obtain ⟨rfl, rfl⟩ := Prod.mk.inj (Except.ok.inj hp)
      have hb : Built d := .operand (h.find he) (List.mem_of_getElem? hd)
      exact ⟨h.store register hb, List.forall_mem_singleton.2 hb⟩
  | append operands target =>
    obtain ⟨more, hm, hp⟩ := Except.bind_eq_ok_iff.1 hp
    obtain ⟨e, he, hp⟩ := Except.bind_eq_ok_iff.1 hp
    have hb : Built (e.append more).2 := .append (h.find he) (h.findAll hm)
    -- The register holds what the edit leaves, whatever comes of it.
    generalize e.append more = r at hp hb
    obtain ⟨outcome, e'⟩ := r
    cases outcome <;> obtain ⟨rfl, rfl⟩ := Prod.mk.inj (Except.ok.inj hp)
    all_goals exact ⟨h.store target hb, List.forall_mem_singleton.2 hb⟩
  | remove index target register =>
    obtain ⟨e, he, hp⟩ := Except.bind_eq_ok_iff.1 hp
    have hb : Built (e.remove index).2 := .remains index (h.find he)
    have hd : ∀ d, (e.remove index).1 = .ok d → Built d := fun d hd => .removed (h.find he) hd
    generalize e.remove index = r at hp hb hd
    obtain ⟨outcome, e'⟩ := r
    cases outcome with
    | ok d =>
      obtain ⟨rfl, rfl⟩ := Prod.mk.inj (Except.ok.inj hp)
      have ho := hd d rfl
      refine ⟨?_, List.forall_mem_cons.2 ⟨ho, List.forall_mem_singleton.2 hb⟩⟩
      cases register with
      | none => exact h.store target hb
      | some register => exact (h.store target hb).store register ho
    | error fault =>
      obtain ⟨rfl, rfl⟩ := Prod.mk.inj (Except.ok.inj hp)
      exact ⟨h.store target hb, List.forall_mem_singleton.2 hb⟩
  | equal left right =>
    obtain ⟨l, -, hp⟩ := Except.bind_eq_ok_iff.1 hp
    obtain ⟨r, -, hp⟩ := Except.bind_eq_ok_iff.1 hp
    obtain ⟨rfl, rfl⟩ := Prod.mk.inj (Except.ok.inj hp)
    exact ⟨h, nofun⟩
  | evaluate target var value =>
    obtain ⟨e, he, hp⟩ := Except.bind_eq_ok_iff.1 hp
    obtain ⟨name, -, hp⟩ := Except.bind_eq_ok_iff.1 hp
    obtain ⟨rfl, rfl⟩ := Prod.mk.inj (Except.ok.inj hp)
    refine ⟨h, ?_⟩
    unfold Expr.evaluate
    cases (e.resolve name value).value? with
    | some x => exact nofun
    | none => exact List.forall_mem_singleton.2 (h.find he)
  | inspect target =>
    obtain ⟨e, he, hp⟩ := Except.bind_eq_ok_iff.1 hp
    obtain ⟨rfl, rfl⟩ := Prod.mk.inj (Except.ok.inj hp)
    exact ⟨h, List.forall_mem_singleton.2 (h.find he)⟩
  | roundTrip target =>
    obtain ⟨e, he, hp⟩ := Except.bind_eq_ok_iff.1 hp
    obtain ⟨e', hr, hp⟩ := Except.bind_eq_ok_iff.1 hp
    obtain ⟨rfl, rfl⟩ := Prod.mk.inj (Except.ok.inj hp)
    exact ⟨h, List.forall_mem_singleton.2 (.parse (Failure.ofFault_eq_ok_iff.1 hr))⟩
  | serialize target =>
    obtain ⟨e, he, hp⟩ := Except.bind_eq_ok_iff.1 hp
    obtain ⟨rfl, rfl⟩ := Prod.mk.inj (Except.ok.inj hp)
    exact ⟨h, nofun⟩

/-- A command leaves and shows only what can be built, also if it fails. -/
theorem execute (h : w.AllBuilt) (command : Command α) :
    (w.execute command).1.AllBuilt ∧ ∀ e ∈ (w.execute command).2.exprs, Built e := by
  unfold Workspace.execute
  cases hp : w.perform command with
  | ok result => exact h.perform hp
  | error failure => exact ⟨h, nofun⟩

/-- All that a session holds and shows can be built. -/
theorem session (h : w.AllBuilt) (commands : List (Command α)) :
    (w.session commands).1.AllBuilt ∧
      ∀ answer ∈ (w.session commands).2, ∀ e ∈ answer.exprs, Built e := by
  induction commands generalizing w with
  | nil => exact ⟨h, nofun⟩
  | cons command commands ih =>
    have hc := h.execute command
    have hs := ih hc.1
    exact ⟨hs.1, List.forall_mem_cons.2 ⟨hc.2, hs.2⟩⟩

end AllBuilt

/-! ## What a session holds -/

variable [Arithmetic α] [BEq α]

/-- Whatever the commands, nodes in registers and answers have operands, and a single one only for
minus; names are valid; and roots and operands build the expressions again. -/
theorem nodes_of_session (commands : List (Command α)) {e : Expr α}
    (h : (∃ name, (name, e) ∈ (empty.session commands).1.registers) ∨
      ∃ answer ∈ (empty.session commands).2, e ∈ answer.exprs) :
    (∀ op es, (op, es) ∈ e.nodes → 0 < es.length ∧ (es.length = 1 → op = .sub)) ∧
    (∀ s, .symbol s ∈ e.terminals → Symbol.IsName s.name) ∧
    Expr.ofHead e.head (if e.isTerminal then none else some e.operands) = .ok e := by
  have hs := allBuilt_empty.session commands
  have hw : WellFormed e := by
    rcases h with ⟨name, hr⟩ | ⟨answer, ha, he⟩
    · exact (hs.1 _ hr).wellFormed
    · exact (hs.2 answer ha e he).wellFormed
  refine ⟨fun op es hn => ?_, hw.isName, hw.ofHead_head⟩
  have ha := hw.admits op es hn
  exact ⟨ha.pos, fun h1 => (h1 ▸ ha).eq_sub⟩

theorem nodes_of_editing_session :
    ∃ e : Expr Float,
      ("c", e) ∈ (empty.session [.store (.symbol "x") "a", .store (.negation "a") "b",
        .store (.binary "-" "a" "b") "c", .append ["b", "a"] "c", .remove 0 "c" none,
        .remove 7 "c" none, .operand 1 "c" "a"]).1.registers ∧
      Expr.ofHead e.head (if e.isTerminal then none else some e.operands) = .ok e := by
  refine ⟨.node .sub [.negation (.symbol ⟨"x"⟩), .negation (.symbol ⟨"x"⟩), .symbol ⟨"x"⟩], ?held,
    (nodes_of_session _ (.inl ⟨"c", ?held⟩)).2.2⟩
  exact List.mem_cons_of_mem _ List.mem_cons_self

end Workspace

end InfixAlgebra
