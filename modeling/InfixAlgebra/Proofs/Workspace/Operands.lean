import InfixAlgebra.Workspace
import Mathlib.Data.List.Basic

/-!
# Editing the operands in a register

An edit of operands fails for a terminal, for an operand that is not there, or if fewer than two
operands would remain; then the expression is as before (`snd_remove_of_error`,
`snd_append_of_error`), and so are all registers.  What was appended to a node with at least two
operands can be removed again, one operand after the other: never do too few operands remain, and
at last all registers hold what they held before (`session_append_removals`).
-/

namespace InfixAlgebra

/-! ## Edits of an expression -/

namespace Expr

variable {α : Type u} [Numeric α] {e d e' : Expr α} {fault : Fault} {index : Nat}
  {more : List (Expr α)}

theorem exists_remove_eq_error_iff : (∃ fault, (e.remove index).1 = .error fault) ↔
    e.isTerminal = true ∨ e.operands.length ≤ index ∨ e.operands.length ≤ 2 := by
  obtain ⟨hc, fault, hr⟩ | ⟨op, es, d, rfl, hd, hl, hr⟩ := remove_cases e index
  · exact iff_of_true ⟨fault, congrArg Prod.fst hr⟩ hc
  · have hi := (List.getElem?_eq_some_iff.1 hd).1
    rw [hr]
    refine iff_of_false nofun ?_
    simp only [isTerminal, operands, Bool.false_eq_true, false_or]
    omega

theorem exists_append_eq_error_iff :
    (∃ fault, (e.append more).1 = .error fault) ↔ e.isTerminal = true := by
  obtain ⟨ht, fault, ha⟩ | ⟨op, es, rfl, ha⟩ := append_cases e more
  · exact iff_of_true ⟨fault, congrArg Prod.fst ha⟩ ht
  · rw [ha]
    exact iff_of_false nofun Bool.false_ne_true

/-- What cannot lose an operand stays as it is. -/
theorem snd_remove_of_error (h : (e.remove index).1 = .error fault) : (e.remove index).2 = e := by
  obtain ⟨-, fault', hr⟩ | ⟨op, es, d, rfl, -, -, hr⟩ := remove_cases e index
  · exact congrArg Prod.snd hr
  · rw [hr] at h
    cases h

/-- What cannot be given operands stays as it is. -/
theorem snd_append_of_error (h : (e.append more).1 = .error fault) : (e.append more).2 = e := by
  obtain ⟨-, fault', ha⟩ | ⟨op, es, rfl, ha⟩ := append_cases e more
  · exact congrArg Prod.snd ha
  · rw [ha] at h
    cases h

/-- What is removed is the operand at the index, and at least two others are left. -/
theorem operands_of_remove (h : e.remove index = (.ok d, e')) :
    e.operands[index]? = some d ∧ ∃ op, e.operator? = some op ∧
      e' = .node op (e.operands.eraseIdx index) ∧ 2 ≤ e'.operands.length := by
  obtain ⟨-, fault, hr⟩ | ⟨op, es, d', rfl, hd, hl, hr⟩ := remove_cases e index
  · rw [hr] at h
    cases h
  · rw [hr] at h
    obtain ⟨ho, rfl⟩ := Prod.mk.inj h
    obtain rfl := Except.ok.inj ho
    have hn := List.le_length_eraseIdx es index
    refine ⟨hd, op, rfl, rfl, ?_⟩
    show 2 ≤ (es.eraseIdx index).length
    omega

/-- What comes of removing an operand at an index so many times, and the expression after that. -/
def removeTimes (index : Nat) : Nat → Expr α → List (Except Fault (Expr α)) × Expr α
  | 0, e => ([], e)
  | k + 1, e =>
    let (outcome, e') := e.remove index
    let (outcomes, e'') := removeTimes index k e'
    (outcome :: outcomes, e'')

variable {op : Operator} {es : List (Expr α)}

/-- The first operand behind `es` can be removed. -/
theorem remove_append_cons (hes : 2 ≤ es.length) (y : Expr α) (ys : List (Expr α)) :
    (node op (es ++ y :: ys)).remove es.length = (.ok y, .node op (es ++ ys)) := by
  have he : (es ++ y :: ys).eraseIdx es.length = es ++ ys := by
    rw [List.eraseIdx_append_of_length_le (Nat.le_refl _), Nat.sub_self, List.eraseIdx_cons_zero]
  have hd : (es ++ y :: ys)[es.length]? = some y := by simp
  have hl : 2 < (es ++ y :: ys).length := by
    rw [List.length_append, List.length_cons]
    omega
  rw [remove_of_two_lt_length hd hl, he]

/-- The operands behind `es` can be removed in their order. -/
theorem removeTimes_append (hes : 2 ≤ es.length) (ys : List (Expr α)) :
    removeTimes es.length ys.length (node op (es ++ ys)) = (ys.map .ok, .node op es) := by
  induction ys with
  | nil =>
    rw [List.append_nil]
    rfl
  | cons y ys ih =>
    rw [List.length_cons, removeTimes, remove_append_cons hes]
    simp only [ih, List.map_cons]

end Expr

/-! ## Registers -/

namespace Workspace

open InfixAlgebra.Expr

variable {α : Type} {w : Workspace α} {e e' d : Expr α} {target name : String}

theorem find_eq_ok_iff : w.find name = .ok e ↔ w.find? name = some e := by
  unfold find
  cases w.find? name <;> simp

theorem find?_store_self (w : Workspace α) (name : String) (e : Expr α) :
    (w.store name e).find? name = some e :=
  List.lookup_cons_self

theorem find?_store_of_ne (w : Workspace α) (e : Expr α) (h : name ≠ target) :
    (w.store target e).find? name = w.find? name := by
  have hn (d : Expr α) (rs : List (String × Expr α)) :
      ((target, d) :: rs).lookup name = rs.lookup name := by
    rw [List.lookup_cons, beq_eq_false_iff_ne.2 h]
  show ((target, e) :: _).lookup name = _
  rw [hn, find?]
  induction w.registers with
  | nil => rfl
  | cons r rs ih =>
    obtain ⟨key, d⟩ := r
    by_cases hk : key = target
    · subst hk
      rw [List.filter_cons_of_neg (by simp), ih, hn]
    · rw [List.filter_cons_of_pos (by simpa using hk), List.lookup_cons, List.lookup_cons, ih]

/-- What is put where it stands already changes no register. -/
theorem find?_store_of_find? (he : w.find? target = some e) (name : String) :
    (w.store target e).find? name = w.find? name := by
  by_cases hn : name = target
  · rw [hn, find?_store_self, he]
  · exact find?_store_of_ne w e hn

/-! ## One edit -/

variable [Arithmetic α] [Numeric α] [BEq α] {fault : Fault} {index : Nat} {names : List String}
  {more : List (Expr α)}

theorem execute_append (hm : w.findAll names = .ok more) (he : w.find? target = some e)
    (ha : e.append more = (.ok (), e')) :
    w.execute (.append names target) = (w.store target e', .state e') := by
  simp [execute, perform, bind, Except.bind, hm, find_eq_ok_iff.2 he, ha, pure, Except.pure]

theorem execute_append_of_error (hm : w.findAll names = .ok more) (he : w.find? target = some e)
    (ha : e.append more = (.error fault, e')) :
    w.execute (.append names target) = (w.store target e', .unchanged e' fault) := by
  simp [execute, perform, bind, Except.bind, hm, find_eq_ok_iff.2 he, ha, pure, Except.pure]

theorem execute_remove (he : w.find? target = some e) (hr : e.remove index = (.ok d, e')) :
    w.execute (.remove index target none) = (w.store target e', .removed d e') := by
  simp [execute, perform, bind, Except.bind, find_eq_ok_iff.2 he, hr, pure, Except.pure]

theorem execute_remove_of_error (he : w.find? target = some e)
    (hr : e.remove index = (.error fault, e')) (register : Option String) :
    w.execute (.remove index target register) = (w.store target e', .unchanged e' fault) := by
  simp [execute, perform, bind, Except.bind, find_eq_ok_iff.2 he, hr, pure, Except.pure]

/-- An operand that cannot be removed changes no register. -/
theorem find?_execute_remove_of_error (he : w.find? target = some e)
    (hr : (e.remove index).1 = .error fault) (register : Option String) :
    let r := w.execute (.remove index target register)
    r.2 = .unchanged e fault ∧ ∀ name, r.1.find? name = w.find? name := by
  rw [execute_remove_of_error he (Prod.ext hr (snd_remove_of_error hr)) register]
  exact ⟨rfl, find?_store_of_find? he⟩

/-- Operands that cannot be appended change no register. -/
theorem find?_execute_append_of_error (hm : w.findAll names = .ok more)
    (he : w.find? target = some e) (ha : (e.append more).1 = .error fault) :
    let r := w.execute (.append names target)
    r.2 = .unchanged e fault ∧ ∀ name, r.1.find? name = w.find? name := by
  rw [execute_append_of_error hm he (Prod.ext ha (snd_append_of_error ha))]
  exact ⟨rfl, find?_store_of_find? he⟩

/-! ## Many edits -/

/-- The answers when the operands behind `es` are removed from a node, one after the other. -/
def removals (op : Operator) (es : List (Expr α)) : List (Expr α) → List (Answer α)
  | [] => []
  | y :: ys => .removed y (.node op (es ++ ys)) :: removals op es ys

variable {op : Operator} {es ys : List (Expr α)}

/-- The operands behind `es` are removed in their order, and nothing else changes. -/
theorem session_removals (he : w.find? target = some (.node op (es ++ ys))) (hes : 2 ≤ es.length) :
    let r := w.session (List.replicate ys.length (.remove es.length target none))
    r.2 = removals op es ys ∧ r.1.find? target = some (.node op es) ∧
      ∀ name, name ≠ target → r.1.find? name = w.find? name := by
  induction ys generalizing w with
  | nil =>
    rw [List.append_nil] at he
    exact ⟨rfl, he, fun _ _ => rfl⟩
  | cons y ys ih =>
    obtain ⟨ha, ht, hn⟩ := ih (find?_store_self w target (.node op (es ++ ys)))
    rw [List.length_cons, List.replicate_succ, session,
      execute_remove he (remove_append_cons hes y ys)]
    refine ⟨congrArg _ ha, ht, fun name hne => ?_⟩
    rw [← find?_store_of_ne w (.node op (es ++ ys)) hne]
    exact hn name hne

/-- Operands that were appended are removed in their order, and then no register has changed. -/
theorem session_append_removals (hm : w.findAll names = .ok ys)
    (he : w.find? target = some (.node op es)) (hes : 2 ≤ es.length) :
    let r := w.session
      (.append names target :: List.replicate ys.length (.remove es.length target none))
    r.2 = .state (.node op (es ++ ys)) :: removals op es ys ∧
      ∀ name, r.1.find? name = w.find? name := by
  obtain ⟨ha, ht, hn⟩ := session_removals (find?_store_self w target (.node op (es ++ ys))) hes
  rw [session, execute_append hm he rfl]
  refine ⟨congrArg _ ha, fun name => ?_⟩
  by_cases hne : name = target
  · rw [hne, he]
    exact ht
  · rw [← find?_store_of_ne w (.node op (es ++ ys)) hne]
    exact hn name hne

/-! ## What edits do -/

/-- Edits fail only as said, and then change nothing; a removal takes one operand away and nothing
else; and removals undo an appending. -/
theorem edit_operands (e : Expr α) :
    (∀ index, (∃ fault, (e.remove index).1 = .error fault) ↔
      e.isTerminal = true ∨ e.operands.length ≤ index ∨ e.operands.length ≤ 2) ∧
    (∀ index fault, (e.remove index).1 = .error fault → (e.remove index).2 = e) ∧
    (∀ more, (∃ fault, (e.append more).1 = .error fault) ↔ e.isTerminal = true) ∧
    (∀ more fault, (e.append more).1 = .error fault → (e.append more).2 = e) ∧
    (∀ index d e', e.remove index = (.ok d, e') → e.operands[index]? = some d ∧
      ∃ op, e.operator? = some op ∧ e' = .node op (e.operands.eraseIdx index) ∧
        2 ≤ e'.operands.length) ∧
    (∀ op es, e = .node op es → 2 ≤ es.length → ∀ ys, ∃ e', e.append ys = (.ok (), e') ∧
      removeTimes es.length ys.length e' = (ys.map .ok, e)) ∧
    ∀ (w : Workspace α) target, w.find? target = some e →
      (∀ index register fault, (e.remove index).1 = .error fault →
        let r := w.execute (.remove index target register)
        r.2 = .unchanged e fault ∧ ∀ name, r.1.find? name = w.find? name) ∧
      ∀ names more, w.findAll names = .ok more →
        (∀ fault, (e.append more).1 = .error fault →
          let r := w.execute (.append names target)
          r.2 = .unchanged e fault ∧ ∀ name, r.1.find? name = w.find? name) ∧
        ∀ op es, e = .node op es → 2 ≤ es.length →
          let r := w.session
            (.append names target :: List.replicate more.length (.remove es.length target none))
          r.2 = .state (.node op (es ++ more)) :: removals op es more ∧
            ∀ name, r.1.find? name = w.find? name := by
  refine ⟨fun _ => exists_remove_eq_error_iff, fun _ _ => snd_remove_of_error,
    fun _ => exists_append_eq_error_iff, fun _ _ => snd_append_of_error,
    fun _ _ _ => operands_of_remove, ?_, fun w target he => ⟨?_, fun names more hm =>
      ⟨fun fault ha => find?_execute_append_of_error hm he ha, ?_⟩⟩⟩
  · rintro op es rfl hes ys
    exact ⟨_, rfl, removeTimes_append hes ys⟩
  · exact fun index register fault hr => find?_execute_remove_of_error he hr register
  · rintro op es rfl hes
    exact session_append_removals hm he hes

/-- A difference of two symbols gets two more operands and loses them again, but neither of the two
it had; and a symbol takes no operands. -/
theorem edit_operands_of_difference :
    let x : Expr Float := .symbol ⟨"x"⟩
    let y : Expr Float := .symbol ⟨"y"⟩
    let w : Workspace Float := (empty.store "a" (.node .sub [x, y])).store "b" y
    let r := w.execute (.remove 0 "a" none)
    let r' := w.execute (.append ["a"] "b")
    (w.session [.append ["b", "b"] "a", .remove 2 "a" none, .remove 2 "a" none]).2 =
      [.state (.node .sub [x, y, y, y]), .removed y (.node .sub [x, y, y]),
        .removed y (.node .sub [x, y])] ∧
    ((node .sub [x, y]).remove 0).2 = node .sub [x, y] ∧
    (r.2 = .unchanged (.node .sub [x, y]) (.tooFewOperands .sub 2) ∧
      ∀ name, r.1.find? name = w.find? name) ∧
    (y.append [x]).2 = y ∧
    r'.2 = .unchanged y (.appendToTerminal y.text) ∧ ∀ name, r'.1.find? name = w.find? name := by
  intro x y w r r'
  obtain ⟨-, ha, -, -, -, -, hwa⟩ := edit_operands (node .sub [x, y])
  obtain ⟨-, -, -, hb, -, -, hwb⟩ := edit_operands y
  have hwa := hwa w "a" rfl
  have hwb := hwb w "b" rfl
  exact ⟨((hwa.2 ["b", "b"] [y, y] rfl).2 .sub [x, y] rfl (by decide)).1, ha 0 _ rfl,
    hwa.1 0 none _ rfl, hb [x] _ rfl, (hwb.2 ["a"] [.node .sub [x, y]] rfl).1 _ rfl⟩

end Workspace

end InfixAlgebra
