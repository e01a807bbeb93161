import InfixAlgebra.Expr.Printer
import InfixAlgebra.Proofs.Expr.Nodes
import InfixAlgebra.Proofs.Token.Lexical

/-!
# Written expressions

The text of an expression consists of tokens, `tokens`.  They derive from the grammar, and denote
the tree `nested` in which every node with more than two operands is a chain of binary nodes, nested
to the right (`derives_tokens`).

A chain has more levels than the node that it is written for: `readDepth` counts them, operand by
operand (`depth_nested`).  Flattening undoes the chains, if ordered nodes have at most two operands
(`flatten_nested`).
-/

namespace InfixAlgebra.Expr

variable {α : Type u}

/-! ## Tokens -/

/-- Tokens of operands with an operator between them. -/
def linkTokens (op : Operator) : List (Token α) → List (List (Token α)) → List (Token α)
  | ts, [] => ts
  | ts, us :: uss => ts ++ .operator op :: linkTokens op us uss

/-- The tokens of a node from those of its operands: the operator stands between them, or before a
single one. -/
def joinTokens (op : Operator) : List (List (Token α)) → List (Token α)
  | [] => []
  | [ts] => .operator op :: ts
  | ts :: tss => linkTokens op ts tss

/-- The tokens of an operand, put in parentheses if it is a node. -/
def encloseTokens : Expr α → List (Token α) → List (Token α)
  | .node .., ts => .opening :: (ts ++ [.closing])
  | _, ts => ts

mutual

/-- The tokens of a written expression. -/
def tokens : Expr α → List (Token α)
  | .number x => [.number x]
  | .symbol s => [.symbol s]
  | .node op es => joinTokens op (tokensAll es)

/-- The tokens of operands, each in parentheses if it is a node. -/
def tokensAll : List (Expr α) → List (List (Token α))
  | [] => []
  | e :: es => encloseTokens e e.tokens :: tokensAll es

end

theorem tokensAll_eq_map (es : List (Expr α)) :
    tokensAll es = es.map fun e => encloseTokens e e.tokens := by
  induction es with
  | nil => rfl
  | cons e es ih => simp [tokensAll, ih]

theorem tokens_node (op : Operator) (es : List (Expr α)) :
    (node op es).tokens = joinTokens op (es.map fun e => encloseTokens e e.tokens) := by
  rw [tokens, tokensAll_eq_map]

/-! ## Chains -/

/-- Operands combined by an operator, nested to the right. -/
def chain (op : Operator) : Expr α → List (Expr α) → Expr α
  | e, [] => e
  | e, d :: ds => .binary op e (chain op d ds)

/-- The tree that a node with these operands is written for. -/
def nest (op : Operator) : List (Expr α) → Expr α
  | [] => .node op []
  | [e] => .node op [e]
  | e :: es => chain op e es

mutual

/-- The tree of negations and binary nodes that a written expression denotes. -/
def nested : Expr α → Expr α
  | .number x => .number x
  | .symbol s => .symbol s
  | .node op es => nest op (nestedAll es)

/-- The trees of operands. -/
def nestedAll : List (Expr α) → List (Expr α)
  | [] => []
  | e :: es => e.nested :: nestedAll es

end

theorem nestedAll_eq_map (es : List (Expr α)) : nestedAll es = es.map nested := by
  induction es with
  | nil => rfl
  | cons e es ih => simp [nestedAll, ih]

theorem nested_node (op : Operator) (es : List (Expr α)) :
    (node op es).nested = nest op (es.map nested) := by
  rw [nested, nestedAll_eq_map]

/-! ## Levels of chains -/

/-- The levels of a chain: each operand is one level below the one before it, except the last, which
is on the level of the one before. -/
def chainLevels (ns : List Nat) : Nat :=
  (ns.mapIdx fun i n => n + min (i + 1) (ns.length - 1)).foldr max 0

/-- The levels of a node when it is read; a single operand is one level down. -/
def levels : List Nat → Nat
  | [n] => n + 1
  | ns => chainLevels ns

mutual

/-- The levels that an expression has when its text is read. -/
def readDepth : Expr α → Nat
  | .number _ => 1
  | .symbol _ => 1
  | .node _ es => levels (readDepths es)

/-- The levels of operands when they are read. -/
def readDepths : List (Expr α) → List Nat
  | [] => []
  | e :: es => e.readDepth :: readDepths es

end

theorem readDepths_eq_map (es : List (Expr α)) : readDepths es = es.map readDepth := by
  induction es with
  | nil => rfl
  | cons e es ih => simp [readDepths, ih]

theorem readDepth_node (op : Operator) (es : List (Expr α)) :
    (node op es).readDepth = levels (es.map readDepth) := by
  rw [readDepth, readDepths_eq_map]

theorem foldr_max_map_succ {ns : List Nat} (h : ns ≠ []) :
    (ns.map fun n => n + 1).foldr max 0 = ns.foldr max 0 + 1 := by
  induction ns with
  | nil => exact absurd rfl h
  | cons n ns ih =>
    rw [List.map_cons, List.foldr_cons, List.foldr_cons]
    by_cases hn : ns = []
    · rw [hn]
      simp
    · rw [ih hn]
      omega

theorem chainLevels_singleton (n : Nat) : chainLevels [n] = n := by
  simp [chainLevels]

theorem chainLevels_cons (n : Nat) {ns : List Nat} (h : ns ≠ []) :
    chainLevels (n :: ns) = max n (chainLevels ns) + 1 := by
  have hl := List.length_pos_of_ne_nil h
  have hs : ns.mapIdx (fun i n => n + min (i + 1 + 1) ns.length) =
      (ns.mapIdx fun i n => n + min (i + 1) (ns.length - 1)).map fun n => n + 1 := by
    refine List.ext_getElem (by simp) fun i _ _ => ?_
    rw [List.getElem_mapIdx, List.getElem_map, List.getElem_mapIdx]
    omega
  rw [chainLevels, List.mapIdx_cons, List.foldr_cons, List.length_cons, Nat.add_sub_cancel, hs,
    foldr_max_map_succ (by simpa using h), chainLevels]
  omega

theorem depth_chain (op : Operator) (e : Expr α) (es : List (Expr α)) :
    (chain op e es).depth = chainLevels ((e :: es).map depth) := by
  induction es generalizing e with
  | nil => exact (chainLevels_singleton _).symm
  | cons d ds ih =>
    rw [chain, depth_binary, ih]
    exact (chainLevels_cons _ (List.cons_ne_nil _ _)).symm

theorem depth_nest (op : Operator) {es : List (Expr α)} (h : es ≠ []) :
    (nest op es).depth = levels (es.map depth) := by
  match es with
  | [e] => simp [nest, levels, depth, depthAll]
  | e :: d :: ds => exact depth_chain op e (d :: ds)

/-- The text of an expression is read with `readDepth` levels. -/
theorem depth_nested {e : Expr α} (h : HasArity (fun _ n => 0 < n) e) :
    e.nested.depth = e.readDepth := by
  induction e with
  | number x => rfl
  | symbol s => rfl
  | node op es ih =>
    rw [hasArity_node] at h
    have hm : (es.map nested).map depth = es.map readDepth := by
      rw [List.map_map]
      exact List.map_congr_left fun e he => ih e he (h.2 e he)
    rw [nested_node, readDepth_node, depth_nest, hm]
    rw [ne_eq, List.map_eq_nil_iff]
    exact List.ne_nil_of_length_pos h.1

/-! ## The grammar of written expressions -/

theorem derives_encloseTokens {e : Expr α} (h : Derives .sum e.tokens e.nested) :
    Derives .atom (encloseTokens e e.tokens) e.nested := by
  cases e with
  | number x => exact .number x
  | symbol s => exact .symbol s
  | node op es => exact h.parens

theorem derives_linkTokens {op : Operator} {e : Expr α} {es : List (Expr α)}
    (he : Derives .atom (encloseTokens e e.tokens) e.nested)
    (hes : ∀ d ∈ es, Derives .atom (encloseTokens d d.tokens) d.nested) :
    Derives (.ofLevel op.precedence)
      (linkTokens op (encloseTokens e e.tokens) (es.map fun e => encloseTokens e e.tokens))
      (chain op e.nested (es.map nested)) := by
  induction es generalizing e with
  | nil => exact he.ofLevel
  | cons d ds ih =>
    rw [List.forall_mem_cons] at hes
    exact he.ofLevel.binary (ih hes.1 hes.2)

/-- The tokens of a written expression derive from the grammar. -/
theorem derives_tokens {e : Expr α} (h : HasArity Operator.Admits e) :
    Derives .sum e.tokens e.nested := by
  induction e with
  | number x => exact (Derives.number x).ofLevel (k := 1)
  | symbol s => exact (Derives.symbol s).ofLevel (k := 1)
  | node op es ih =>
    rw [hasArity_node] at h
    have hd : ∀ e ∈ es, Derives .atom (encloseTokens e e.tokens) e.nested :=
      fun e he => derives_encloseTokens (ih e he (h.2 e he))
    rw [tokens_node, nested_node]
    match es, h.1 with
    | [], h => exact absurd (Operator.Admits.pos h) (Nat.lt_irrefl 0)
    | [e], h =>
      obtain rfl := Operator.Admits.eq_sub h
      have hu : Derives .unary (encloseTokens e e.tokens) e.nested :=
        (hd e (List.mem_singleton.2 rfl)).unaryOfAtom
      exact .sumOfProduct (.productOfUnary hu.negation)
    | e :: d :: ds, _ =>
      rw [List.forall_mem_cons] at hd
      exact (derives_linkTokens hd.1 hd.2).ofLevel_of_le op.precedence_pos

/-! ## Flattening chains -/

/-- A chain of an unordered operator is merged into one node. -/
theorem spliced_flatten_chain {op : Operator} (ho : op.isOrdered = false) (e : Expr α)
    (es : List (Expr α)) :
    spliced op (chain op e es).flatten = (e :: es).flatMap fun d => spliced op d.flatten := by
  induction es generalizing e with
  | nil => exact (List.append_nil _).symm
  | cons d ds ih =>
    rw [chain, binary, flatten_node, spliced_node ho, List.flatMap_cons, List.flatMap_singleton, ih]
    rfl

theorem flatten_chain {op : Operator} (ho : op.isOrdered = false) (e d : Expr α)
    (es : List (Expr α)) :
    (chain op e (d :: es)).flatten = (node op (e :: d :: es)).flatten := by
  rw [chain, binary, flatten_node, List.flatMap_cons, List.flatMap_singleton,
    spliced_flatten_chain ho, flatten_node]
  rfl

theorem flatten_nest {op : Operator} {es : List (Expr α)} (h : op.Reads es.length) :
    (nest op es).flatten = (node op es).flatten := by
  match es with
  | [] => rfl
  | [e] => rfl
  | e :: d :: ds =>
    cases ho : op.isOrdered with
    | true =>
      match ds, h.le_two ho with
      | [], _ => rfl
    | false => exact flatten_chain ho e d ds

/-- Flattening what is read is flattening the written expression, if it has the numbers of operands
that are read. -/
theorem flatten_nested {e : Expr α} (h : HasArity Operator.Reads e) :
    e.nested.flatten = e.flatten := by
  induction e with
  | number x => rfl
  | symbol s => rfl
  | node op es ih =>
    rw [hasArity_node] at h
    have hl : op.Reads (es.map nested).length := by
      rw [List.length_map]
      exact h.1
    rw [nested_node, flatten_nest hl, flatten_node, flatten_node, List.flatMap_map]
    congr 1
    refine List.flatMap_congr fun d hd => ?_
    rw [ih d hd (h.2 d hd)]

/-! ## Texts -/

section Text

variable [Numeric α]

theorem flatMap_chars_linkTokens (op : Operator) (ts : List (Token α))
    (tss : List (List (Token α))) :
    (linkTokens op ts tss).flatMap Token.chars =
      [op.char].intercalate ((ts :: tss).map fun ts => ts.flatMap Token.chars) := by
  induction tss generalizing ts with
  | nil => simp [linkTokens]
  | cons us uss ih =>
    rw [linkTokens, List.flatMap_append, List.flatMap_cons, ih]
    simp [List.intercalate, Token.chars]

theorem flatMap_chars_joinTokens (op : Operator) (tss : List (List (Token α))) :
    (joinTokens op tss).flatMap Token.chars =
      join op (tss.map fun ts => ts.flatMap Token.chars) := by
  match tss with
  | [] => rfl
  | [ts] => rfl
  | ts :: us :: uss => exact flatMap_chars_linkTokens op ts (us :: uss)

/-- The text of an expression is that of its tokens. -/
theorem flatMap_chars_tokens (e : Expr α) : e.tokens.flatMap Token.chars = e.chars := by
  induction e with
  | number x => exact List.append_nil _
  | symbol s => exact List.append_nil _
  | node op es ih =>
    rw [tokens_node, chars_node, flatMap_chars_joinTokens, List.map_map]
    congr 1
    refine List.map_congr_left fun e he => ?_
    rw [Function.comp_apply, ← ih e he]
    cases e with
    | number x => rfl
    | symbol s => rfl
    | node op' es' => simp [encloseTokens, enclose, Token.chars]

variable [SignBit α]

theorem isReadable_of_mem_linkTokens {op : Operator} {ts : List (Token α)}
    {tss : List (List (Token α))} (h : ∀ us ∈ ts :: tss, ∀ t ∈ us, t.IsReadable) :
    ∀ t ∈ linkTokens op ts tss, t.IsReadable := by
  induction tss generalizing ts with
  | nil => exact h ts (List.mem_singleton.2 rfl)
  | cons us uss ih =>
    rw [List.forall_mem_cons] at h
    rw [linkTokens, List.forall_mem_append, List.forall_mem_cons]
    exact ⟨h.1, trivial, ih h.2⟩

theorem isReadable_of_mem_joinTokens {op : Operator} {tss : List (List (Token α))}
    (h : ∀ us ∈ tss, ∀ t ∈ us, t.IsReadable) : ∀ t ∈ joinTokens op tss, t.IsReadable := by
  match tss with
  | [] => exact fun t ht => nomatch ht
  | [ts] => exact List.forall_mem_cons.2 ⟨trivial, h ts (List.mem_singleton.2 rfl)⟩
  | ts :: us :: uss => exact isReadable_of_mem_linkTokens h

/-- Written expressions consist of tokens that can be read. -/
theorem isReadable_of_mem_tokens {e : Expr α} (hx : ∀ x, .number x ∈ e.terminals → IsPlain x)
    (hs : ∀ s, .symbol s ∈ e.terminals → Symbol.IsName s.name) :
    ∀ t ∈ e.tokens, t.IsReadable := by
  induction e with
  | number x => exact List.forall_mem_singleton.2 (hx x (List.mem_singleton.2 rfl))
  | symbol s => exact List.forall_mem_singleton.2 (hs s (List.mem_singleton.2 rfl))
  | node op es ih =>
    rw [terminals_node] at hx hs
    rw [tokens_node]
    refine isReadable_of_mem_joinTokens ?_
    rw [List.forall_mem_map]
    intro e he
    have ht : ∀ t ∈ e.tokens, t.IsReadable :=
      ih e he (fun x h => hx x (List.mem_flatMap.2 ⟨e, he, h⟩))
        fun s h => hs s (List.mem_flatMap.2 ⟨e, he, h⟩)
    cases e with
    | number x => exact ht
    | symbol s => exact ht
    | node op' es' =>
      rw [encloseTokens, List.forall_mem_cons, List.forall_mem_append, List.forall_mem_singleton]
      exact ⟨trivial, ht, trivial⟩

/-- The text of an expression is read as its tokens. -/
theorem ofText_text [BEq α] [LawfulNumeric α] {e : Expr α} (ha : HasArity Operator.Admits e)
    (hx : ∀ x, .number x ∈ e.terminals → IsPlain x)
    (hs : ∀ s, .symbol s ∈ e.terminals → Symbol.IsName s.name) :
    Token.ofText e.text = .ok e.tokens := by
  have hj := juxtapositions_eq_zero_iff.1 (derives_tokens ha).juxtapositions_eq_zero
  rw [text, ← flatMap_chars_tokens]
  exact Token.ofText_flatMap_chars (isReadable_of_mem_tokens hx hs) hj

end Text

end InfixAlgebra.Expr
