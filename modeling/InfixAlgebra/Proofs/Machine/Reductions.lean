import InfixAlgebra.Proofs.Machine.Completeness

/-!
# The order of reductions

The machine reduces in three loops: for an incoming operator, for a closing parenthesis and at the
end.  Whichever of them makes a tree, its operands are the newest branches.  So what an instruction
adds to the record it also adds to the nodes of the branches, read from the oldest branch to the
newest and each node after the nodes within it (`Machine.Makes`).  Hence when a tree has been built,
the record is its post-order, with one tree for each operator among the tokens
(`Machine.reductions_of_build`).
-/

namespace InfixAlgebra

variable {α : Type u}

/-! ## Post-order -/

namespace Expr

mutual

/-- The nodes of an expression, as expressions, each after the nodes within it. -/
def postorder : Expr α → List (Expr α)
  | .number _ => []
  | .symbol _ => []
  | .node op es => postorderAll es ++ [.node op es]

/-- The nodes of some operands from left to right, each after the nodes within it. -/
def postorderAll : List (Expr α) → List (Expr α)
  | [] => []
  | e :: es => e.postorder ++ postorderAll es

end

theorem postorderAll_eq_flatMap (es : List (Expr α)) : postorderAll es = es.flatMap postorder := by
  induction es with
  | nil => rfl
  | cons e es ih => simp [postorderAll, ih]

theorem postorder_node (op : Operator) (es : List (Expr α)) :
    (node op es).postorder = es.flatMap postorder ++ [node op es] := by
  rw [postorder, postorderAll_eq_flatMap]

theorem postorder_of_isTerminal {e : Expr α} (h : e.isTerminal = true) : e.postorder = [] := by
  cases e with
  | number x => rfl
  | symbol s => rfl
  | node op es => cases h

theorem postorder_negation (e : Expr α) : (negation e).postorder = e.postorder ++ [negation e] := by
  rw [negation, postorder_node, List.flatMap_singleton]

theorem postorder_binary (op : Operator) (l r : Expr α) :
    (binary op l r).postorder = l.postorder ++ r.postorder ++ [binary op l r] := by
  rw [binary, postorder_node, List.flatMap_cons, List.flatMap_singleton]

end Expr

/-! ## The machine -/

/-- The nodes of branches, of which the newest is the first, from the oldest to the newest. -/
def Branch.history (bs : List (Branch α)) : List (Expr α) :=
  bs.reverse.flatMap fun b => b.expr.postorder

theorem Branch.history_cons (b : Branch α) (bs : List (Branch α)) :
    history (b :: bs) = history bs ++ b.expr.postorder := by
  rw [history, List.reverse_cons, List.flatMap_append, List.flatMap_singleton]
  rfl

/-- The instruction makes a node. -/
def Instruction.isReduce : Instruction α → Bool
  | .shift .. => false
  | .reduce _ => true

/-- There is one reduction for each operator. -/
theorem DerivesLoosely.countP_isReduce {k : Nat} {ts : List (Token α)}
    {code : List (Instruction α)} (h : DerivesLoosely k ts code) :
    code.countP Instruction.isReduce = ts.countP Token.isOperator := by
  induction h with
  | empty => rfl
  | number x _ ih | symbol s _ ih =>
    rw [List.countP_append, List.countP_append, ih]
    rfl
  | group _ _ _ ih ih' => simp [ih, ih', Token.isOperator]
  | negation _ ih => simp [ih, Token.isOperator, Instruction.isReduce, List.countP_cons]
  | binary _ _ _ ihl ihr =>
    simp [ihl, ihr, Token.isOperator, Instruction.isReduce, List.countP_cons]
  | weaken _ ih => exact ih

namespace Machine

open Branch InfixAlgebra.Expr

variable {m m' m'' : Machine α} {made made' : List (Expr α)}

/-- From `m` to `m'` the trees `made` are put on record, and they are the new nodes of the branches,
in the same order. -/
structure Makes (m m' : Machine α) (made : List (Expr α)) : Prop where
  reductions : m'.reductions.reverse = m.reductions.reverse ++ made
  branches : history m'.branches = history m.branches ++ made

namespace Makes

theorem refl (m : Machine α) : m.Makes m [] where
  reductions := (List.append_nil _).symm
  branches := (List.append_nil _).symm

theorem trans (h : m.Makes m' made) (h' : m'.Makes m'' made') : m.Makes m'' (made ++ made') where
  reductions := by rw [h'.reductions, h.reductions, List.append_assoc]
  branches := by rw [h'.branches, h.branches, List.append_assoc]

theorem shift (m : Machine α) {e : Expr α} (he : e.isTerminal = true) :
    m.Makes (m.shift e) [] where
  reductions := (List.append_nil _).symm
  branches := by rw [Machine.shift, history_cons, postorder_of_isTerminal he]

/-- A tree is made of the newest branches if its other nodes are theirs. -/
theorem grow {tree : Expr α} {depth : Nat} {bs : List (Branch α)}
    (hm : m.grow tree depth bs = .ok m')
    (hb : history bs ++ tree.postorder = history m.branches ++ [tree]) : m.Makes m' [tree] := by
  unfold Machine.grow at hm
  split_ifs at hm
  · obtain rfl := Except.ok.inj hm
    refine ⟨List.reverse_cons, ?_⟩
    rw [history_cons, hb]
  · cases hm

end Makes

/-- An instruction makes a tree if it is a reduction, and otherwise none. -/
theorem exists_makes_of_perform {i : Instruction α} (hm : m.perform i = .ok m') :
    ∃ made, m.Makes m' made ∧ made.length = i.isReduce.toNat := by
  match i with
  | .shift e he =>
    obtain rfl := Except.ok.inj hm
    exact ⟨[], .shift m he, rfl⟩
  | .reduce .opening => cases hm
  | .reduce .negation =>
    unfold perform reduce at hm
    match hb : m.branches with
    | [] =>
      rw [hb] at hm
      cases hm
    | operand :: bs =>
      rw [hb] at hm
      refine ⟨[_], .grow hm ?_, rfl⟩
      rw [hb, history_cons, postorder_negation, List.append_assoc]
  | .reduce (.binary op) =>
    unfold perform reduce at hm
    match hb : m.branches with
    | [] | [_] =>
      rw [hb] at hm
      cases hm
    | right :: left :: bs =>
      rw [hb] at hm
      refine ⟨[_], .grow hm ?_, rfl⟩
      rw [hb, history_cons, history_cons, postorder_binary]
      simp only [List.append_assoc]

/-- Instructions make as many trees as there are reductions among them. -/
theorem exists_makes_of_execute {code : List (Instruction α)} (hm : m.execute code = .ok m') :
    ∃ made, m.Makes m' made ∧ made.length = code.countP Instruction.isReduce := by
  induction code generalizing m with
  | nil =>
    obtain rfl := Except.ok.inj hm
    exact ⟨[], .refl m, rfl⟩
  | cons i code ih =>
    obtain ⟨m₁, hp, hm⟩ := Except.bind_eq_ok_iff.1 hm
    obtain ⟨made, h, hl⟩ := exists_makes_of_perform hp
    obtain ⟨made', h', hl'⟩ := ih hm
    refine ⟨made ++ made', h.trans h', ?_⟩
    rw [List.length_append, hl, hl', List.countP_cons, Nat.add_comm]
    cases i.isReduce <;> rfl

/-- When a tree has been built, the trees on record are its nodes in post-order, and there is one
for each operator among the tokens. -/
theorem reductions_of_build {ts : List (Token α)} {e : Expr α} (h : build ts = .ok (m, e)) :
    m.reductions.reverse = e.postorder ∧ e.postorder.length = ts.countP Token.isOperator := by
  obtain ⟨hts, code, hd⟩ := exists_derivesLoosely_of_build h
  rw [build_eq hd hts] at h
  obtain ⟨m₁, hm, hf⟩ := Except.bind_eq_ok_iff.1 h
  obtain ⟨rfl, hb⟩ := (finish_eq_ok_iff rfl).1 hf
  obtain ⟨made, hmade, hl⟩ := exists_makes_of_execute hm
  have hr : m₁.reductions.reverse = made := hmade.reductions
  have hh : history m₁.branches = made := hmade.branches
  obtain ⟨b, hb', rfl⟩ := List.map_eq_singleton_iff.1 hb
  rw [await_branches] at hb'
  rw [hb', history_cons] at hh
  have he : b.expr.postorder = made := hh
  rw [he]
  exact ⟨hr, hl.trans hd.countP_isReduce⟩

end Machine

end InfixAlgebra
