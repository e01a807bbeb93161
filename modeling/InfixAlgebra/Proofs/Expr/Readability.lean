import InfixAlgebra.Proofs.Expr.Nesting

/-!
# Unique readability

Tokens are written by at most one expression (`tokens_injective`), however wide its nodes are.  An
operand is known by the tokens that it begins with: whatever follows, its tokens tell where it ends
and what it is (`Bounded`, `bounded`).  A node is then read operand by operand.
-/

namespace InfixAlgebra.Expr

variable {α : Type u} {op op' : Operator} {e d : Expr α} {es ds : List (Expr α)}
  {ts us : List (Token α)}

/-- The tokens of an operand. -/
abbrev operandTokens (e : Expr α) : List (Token α) := encloseTokens e e.tokens

theorem tokens_node_eq_joinTokens (op : Operator) (es : List (Expr α)) :
    (node op es).tokens = joinTokens op (es.map operandTokens) :=
  tokens_node op es

/-- All nodes have operands. -/
abbrev HasOperands (e : Expr α) : Prop := HasArity (fun _ n => 0 < n) e

/-- No operator comes next. -/
def NoOperatorNext (ts : List (Token α)) : Prop := ∀ t ∈ ts.head?, t.isOperator = false

theorem noOperatorNext_cons {t : Token α} (h : t.isOperator = false) (ts : List (Token α)) :
    NoOperatorNext (t :: ts) := by
  simpa [NoOperatorNext] using h

theorem not_noOperatorNext (op : Operator) (ts : List (Token α)) :
    ¬ NoOperatorNext (.operator op :: ts) := by
  simp [NoOperatorNext, Token.isOperator]

/-- An operand begins with a number, a symbol or a parenthesis. -/
theorem noOperatorNext_operandTokens_append (e : Expr α) (ts : List (Token α)) :
    NoOperatorNext (operandTokens e ++ ts) := by
  cases e <;> exact noOperatorNext_cons rfl _

theorem length_operandTokens_pos (e : Expr α) : 0 < (operandTokens e).length := by
  cases e <;> exact Nat.succ_pos _

/-! ## Operands in a row -/

/-- Where its tokens stand at the beginning, an expression is the operand that is read, and what
follows them is left over. -/
def Bounded (e : Expr α) : Prop :=
  ∀ d ts us, HasOperands d → operandTokens e ++ ts = operandTokens d ++ us → e = d ∧ ts = us

/-- Operands linked by an operator are known one by one, and so is the operator if there is one. -/
theorem linkTokens_append_inj (he : Bounded e) (hes : ∀ e ∈ es, Bounded e)
    (hd : HasOperands d) (hds : ∀ d ∈ ds, HasOperands d) (hts : NoOperatorNext ts)
    (hus : NoOperatorNext us)
    (h : linkTokens op (operandTokens e) (es.map operandTokens) ++ ts =
      linkTokens op' (operandTokens d) (ds.map operandTokens) ++ us) :
    e :: es = d :: ds ∧ (es ≠ [] → op = op') ∧ ts = us := by
  induction es generalizing e d ds with
  | nil =>
    cases ds with
    | nil =>
      obtain ⟨rfl, rfl⟩ := he d ts us hd h
      simp
    | cons d' ds =>
      simp only [List.map_cons, linkTokens, List.append_assoc, List.cons_append] at h
      obtain ⟨-, rfl⟩ := he d _ _ hd h
      exact absurd hts (not_noOperatorNext op' _)
  | cons e' es ih =>
    rw [List.forall_mem_cons] at hes
    cases ds with
    | nil =>
      simp only [List.map_cons, linkTokens, List.append_assoc, List.cons_append] at h
      obtain ⟨-, rfl⟩ := he d _ _ hd h
      exact absurd hus (not_noOperatorNext op _)
    | cons d' ds =>
      rw [List.forall_mem_cons] at hds
      simp only [List.map_cons, linkTokens, List.append_assoc, List.cons_append] at h
      obtain ⟨rfl, hr⟩ := he d _ _ hd h
      obtain ⟨ho, hl⟩ := List.cons.inj hr
      obtain ⟨hc, -, rfl⟩ := ih hes.1 hes.2 hds.1 hds.2 hl
      exact ⟨by rw [hc], fun _ => Token.operator.inj ho, rfl⟩

theorem noOperatorNext_linkTokens_append (op : Operator) (e : Expr α) (tss : List (List (Token α)))
    (us : List (Token α)) : NoOperatorNext (linkTokens op (operandTokens e) tss ++ us) := by
  cases tss with
  | nil => exact noOperatorNext_operandTokens_append e us
  | cons ts tss =>
    rw [linkTokens, List.append_assoc]
    exact noOperatorNext_operandTokens_append e _

/-- The tokens of a node tell its operator and its operands. -/
theorem joinTokens_append_inj (hes : ∀ e ∈ es, Bounded e) (hds : ∀ d ∈ ds, HasOperands d)
    (hl : 0 < es.length) (hl' : 0 < ds.length) (hts : NoOperatorNext ts) (hus : NoOperatorNext us)
    (h : joinTokens op (es.map operandTokens) ++ ts =
      joinTokens op' (ds.map operandTokens) ++ us) :
    op = op' ∧ es = ds ∧ ts = us := by
  match es, ds with
  | [e], [d] =>
    rw [List.forall_mem_singleton] at hes hds
    obtain ⟨ho, h⟩ := List.cons.inj h
    obtain ⟨rfl, rfl⟩ := hes d ts us hds h
    exact ⟨Token.operator.inj ho, rfl, rfl⟩
  | [e], d :: d' :: ds =>
    -- A single operand has the operator before it, and other operands have it behind them.
    have hn : NoOperatorNext (joinTokens op [operandTokens e] ++ ts) :=
      h ▸ noOperatorNext_linkTokens_append op' d ((d' :: ds).map operandTokens) us
    exact absurd hn (not_noOperatorNext op _)
  | e :: e' :: es, [d] =>
    have hn : NoOperatorNext (joinTokens op' [operandTokens d] ++ us) :=
      h ▸ noOperatorNext_linkTokens_append op e ((e' :: es).map operandTokens) ts
    exact absurd hn (not_noOperatorNext op' _)
  | e :: e' :: es, d :: d' :: ds =>
    rw [List.forall_mem_cons] at hes hds
    obtain ⟨hc, ho, rfl⟩ := linkTokens_append_inj hes.1 hes.2 hds.1 hds.2 hts hus h
    exact ⟨ho (List.cons_ne_nil _ _), hc, rfl⟩

/-! ## Expressions -/

/-- Every expression whose nodes have operands is known by its tokens. -/
theorem bounded (h : HasOperands e) : Bounded e := by
  induction e with
  | number x =>
    intro d ts us _ he
    cases d with
    | number y =>
      obtain ⟨hx, rfl⟩ := List.cons.inj he
      exact ⟨by rw [Token.number.inj hx], rfl⟩
    | symbol s => cases (List.cons.inj he).1
    | node op ds => cases (List.cons.inj he).1
  | symbol s =>
    intro d ts us _ he
    cases d with
    | number y => cases (List.cons.inj he).1
    | symbol s' =>
      obtain ⟨hs, rfl⟩ := List.cons.inj he
      exact ⟨by rw [Token.symbol.inj hs], rfl⟩
    | node op ds => cases (List.cons.inj he).1
  | node op es ih =>
    intro d ts us hd he
    cases d with
    | number y => cases (List.cons.inj he).1
    | symbol s => cases (List.cons.inj he).1
    | node op' ds =>
      rw [HasOperands, hasArity_node] at h hd
      have hj : joinTokens op (es.map operandTokens) ++ .closing :: ts =
          joinTokens op' (ds.map operandTokens) ++ .closing :: us := by
        rw [← tokens_node_eq_joinTokens, ← tokens_node_eq_joinTokens]
        simpa [operandTokens, encloseTokens] using he
      obtain ⟨rfl, rfl, hc⟩ := joinTokens_append_inj (fun e he => ih e he (h.2 e he)) hd.2 h.1 hd.1
        (noOperatorNext_cons rfl ts) (noOperatorNext_cons rfl us) hj
      exact ⟨rfl, (List.cons.inj hc).2⟩

theorem length_joinTokens (op : Operator) (hl : 0 < es.length) :
    1 < (joinTokens op (es.map operandTokens)).length := by
  match es with
  | [e] =>
    have he := length_operandTokens_pos e
    show 1 < (operandTokens e).length + 1
    omega
  | e :: e' :: es =>
    have he := length_operandTokens_pos e
    show 1 < (operandTokens e ++ _ :: _).length
    rw [List.length_append, List.length_cons]
    omega

/-- A terminal is one token, and a node is more than one. -/
theorem isTerminal_iff_length_tokens (h : HasOperands e) :
    e.isTerminal = true ↔ e.tokens.length = 1 := by
  cases e with
  | number x => exact iff_of_true rfl rfl
  | symbol s => exact iff_of_true rfl rfl
  | node op es =>
    have hl := length_joinTokens op (hasArity_node.1 h).1
    rw [tokens_node_eq_joinTokens]
    refine iff_of_false Bool.false_ne_true ?_
    omega

/-- Tokens are written by at most one expression. -/
theorem tokens_injective (he : HasOperands e) (hd : HasOperands d) (h : e.tokens = d.tokens) :
    e = d := by
  have ht : e.isTerminal = d.isTerminal := by
    rw [Bool.eq_iff_iff, isTerminal_iff_length_tokens he, isTerminal_iff_length_tokens hd, h]
  have ho : operandTokens e ++ [] = operandTokens d ++ [] := by
    rw [operandTokens, operandTokens, h]
    cases e <;> cases d <;> first | rfl | cases ht
  exact (bounded he d [] [] hd ho).1

end InfixAlgebra.Expr
