import InfixAlgebra.Proofs.Parse.Grammar
import InfixAlgebra.Proofs.Token.Concatenation

/-!
# Reading composed texts

A text in parentheses is isolated from what stands around it.  Its instructions leave alone the
branches that were there before, so whatever it is read as by itself, it is also read as in
parentheses (`parseTree_enclosed`), as an operand (`parseTree_binary`) and after a minus
(`parseTree_negation`).  This holds for everything that is read, also for texts with juxtaposed
operands.

A composed text has one level more than its parts.  So it is refused exactly if a part already has
as many levels as are allowed, before it is flattened (`parse_composed`).
-/

namespace InfixAlgebra

/-- A text in parentheses. -/
def Text.enclosed (s : String) : String := "(" ++ s ++ ")"

namespace Token

variable {α : Type u} [Numeric α] {s t : String} {ts us : List (Token α)}

theorem ofText_empty : (ofText "" : Except Fault (List (Token α))) = .ok [] := rfl

theorem ofText_enclosed (h : ofText s = .ok ts) :
    ofText (Text.enclosed s) = .ok (.opening :: (ts ++ [.closing])) := by
  have ho := ofText_append_token (u := .opening) rfl ofText_empty h
  have hc := ofText_append_token (u := .closing) rfl ho ofText_empty
  rw [String.empty_append, String.append_empty] at hc
  exact hc

theorem ofText_binary (op : Operator) (hs : ofText s = .ok ts) (ht : ofText t = .ok us) :
    ofText (s ++ op.text ++ t) = .ok (ts ++ .operator op :: us) :=
  ofText_append_token (u := .operator op) rfl hs ht

theorem ofText_negation (h : ofText s = .ok ts) :
    ofText ("-" ++ s) = .ok (.operator .sub :: ts) := by
  have hn := ofText_binary .sub ofText_empty h
  rw [String.empty_append] at hn
  exact hn

end Token

namespace Expr

variable {α : Type u}

/-! ## Trees before they are flattened -/

theorem depth_iterate_negation (n : Nat) (e : Expr α) :
    (negation^[n] e).depth = e.depth + n := by
  induction n with
  | zero => rfl
  | succ n ih => rw [Function.iterate_succ_apply', depth_negation, ih, Nat.add_assoc]

variable [Numeric α]

/-- The parse tree of a text: the tree that is built for its tokens, before it is flattened. -/
def parseTree (text : String) : Except Fault (Expr α) :=
  match Token.ofText text with
  | .error fault => .error fault
  | .ok tokens =>
    match Machine.build tokens with
    | .error halt => .error halt.fault
    | .ok (_, tree) => .ok tree

variable {text s t : String} {ts : List (Token α)} {a b e p q : Expr α}

/-- A text is read as its flattened parse tree. -/
theorem parse_eq_map_parseTree (text : String) :
    (parse text : Except Fault (Expr α)) = (parseTree text).map flatten := by
  unfold parse read parseTree
  cases (Token.ofText text : Except Fault (List (Token α))) with
  | error fault => rfl
  | ok ts => cases hb : Machine.build ts <;> simp only [hb] <;> rfl

theorem parse_eq_ok_iff_parseTree :
    parse text = .ok e ↔ ∃ p, parseTree text = .ok p ∧ p.flatten = e := by
  rw [parse_eq_map_parseTree, Except.map_eq_ok_iff]

/-- The tokens of a parse tree put it on top of whatever trees there are. -/
theorem yieldsTree_of_parseTree (h : parseTree text = .ok p) :
    ∃ ts, Token.ofText text = .ok ts ∧ ts ≠ [] ∧ YieldsTree 1 ts p ∧ p.depth ≤ depthLimit := by
  unfold parseTree at h
  cases ht : (Token.ofText text : Except Fault (List (Token α))) with
  | error fault =>
    rw [ht] at h
    cases h
  | ok ts =>
    cases hb : Machine.build ts with
    | error halt =>
      simp only [ht, hb] at h
      cases h
    | ok x =>
      simp only [ht, hb] at h
      obtain rfl := Except.ok.inj h
      obtain ⟨hts, code, hd, ha, hp⟩ := Machine.exists_assemble_of_build hb
      exact ⟨ts, rfl, hts, .of_assemble hd ha, hp⟩

/-- A tree that the tokens of a text put on top is its parse tree, up to the limit of levels. -/
theorem parseTree_of_yieldsTree (ht : Token.ofText text = .ok ts) (hts : ts ≠ [])
    (h : YieldsTree 1 ts p) :
    parseTree text = if p.depth ≤ depthLimit then .ok p else .error (.tooDeep depthLimit) := by
  obtain ⟨code, hc, ha⟩ := h
  unfold parseTree
  split_ifs with hp
  · obtain ⟨m, hb⟩ := Machine.build_eq_ok hc hts (ha []) hp
    simp only [ht, hb]
  · obtain ⟨rs, hb⟩ := Machine.build_eq_tooDeep hc hts (ha []) (Nat.lt_of_not_le hp)
    simp only [ht, hb]

/-! ## Parentheses -/

/-- What the tokens of a text in parentheses are, and that they are an operand. -/
theorem yieldsTree_enclosed (h : parseTree s = .ok p) :
    ∃ ts, Token.ofText (Text.enclosed s) = .ok ts ∧ EndsOperand ts ∧ YieldsTree 4 ts p ∧
      p.depth ≤ depthLimit := by
  obtain ⟨ts, ht, hts, hy, hp⟩ := yieldsTree_of_parseTree h
  exact ⟨_, Token.ofText_enclosed ht, EndsOperand.append (.opening :: ts) ⟨.closing, rfl, rfl⟩,
    hy.parens hts, hp⟩

/-- A text in parentheses has the parse tree of the text. -/
theorem parseTree_enclosed (h : parseTree s = .ok p) : parseTree (Text.enclosed s) = .ok p := by
  obtain ⟨ts, ht, hts, hy, hp⟩ := yieldsTree_enclosed h
  rw [parseTree_of_yieldsTree ht hts.ne_nil (hy.mono (by decide)), if_pos hp]

theorem parseTree_iterate_enclosed (h : parseTree s = .ok p) (n : Nat) :
    parseTree (Text.enclosed^[n] s) = .ok p := by
  induction n with
  | zero => exact h
  | succ n ih =>
    rw [Function.iterate_succ_apply']
    exact parseTree_enclosed ih

theorem parseTree_binary (op : Operator) (hs : parseTree s = .ok p) (ht : parseTree t = .ok q) :
    parseTree (Text.enclosed s ++ op.text ++ Text.enclosed t) =
      if p.depth = depthLimit ∨ q.depth = depthLimit then .error (.tooDeep depthLimit)
      else .ok (binary op p q) := by
  obtain ⟨ts, hts, he, hy, hp⟩ := yieldsTree_enclosed hs
  obtain ⟨us, hus, -, hz, hq⟩ := yieldsTree_enclosed ht
  -- A text in parentheses is an operand, so it may stand on either side of any operator.
  have ho := op.precedence_le
  have hb := YieldsTree.binary op (hy.mono (by omega)) he (hz.mono (by omega))
  rw [parseTree_of_yieldsTree (Token.ofText_binary op hts hus) (by simp)
    (hb.mono op.precedence_pos), depth_binary]
  split_ifs <;> first | rfl | omega

theorem parseTree_negation (h : parseTree s = .ok p) :
    parseTree ("-" ++ Text.enclosed s) =
      if p.depth = depthLimit then .error (.tooDeep depthLimit) else .ok (negation p) := by
  obtain ⟨ts, hts, -, hy, hp⟩ := yieldsTree_enclosed h
  have hn := (hy.mono (by decide)).negation
  rw [parseTree_of_yieldsTree (Token.ofText_negation hts) (by simp) (hn.mono (by decide)),
    depth_negation]
  split_ifs <;> first | rfl | omega

/-- Every minus adds a level, up to the limit. -/
theorem parseTree_iterate_negation (h : parseTree s = .ok p) {n : Nat}
    (hn : p.depth + n ≤ depthLimit) :
    parseTree ((fun s => "-" ++ Text.enclosed s)^[n] s) = .ok (negation^[n] p) := by
  induction n with
  | zero => exact h
  | succ n ih =>
    rw [Function.iterate_succ_apply', Function.iterate_succ_apply',
      parseTree_negation (ih (by omega)), depth_iterate_negation, if_neg (by omega)]

/-! ## Composed texts -/

/-- Texts that are read are read in parentheses as the same expressions, and with operators between
or before them as nodes, unless a tree has 512 levels. -/
theorem parse_composed (op : Operator) (n : Nat) (hs : parse s = .ok a) (ht : parse t = .ok b) :
    ∃ p q : Expr α, (parseTree s = .ok p ∧ p.flatten = a) ∧ (parseTree t = .ok q ∧ q.flatten = b) ∧
      parse (Text.enclosed^[n] s) = .ok a ∧
      parse (Text.enclosed s ++ op.text ++ Text.enclosed t) =
        (if p.depth = 512 ∨ q.depth = 512 then .error (.tooDeep 512)
        else .ok (binary op a b).flatten) ∧
      parse ("-" ++ Text.enclosed s) =
        (if p.depth = 512 then .error (.tooDeep 512) else .ok (negation a)) ∧
      (Fault.tooDeep 512).report =
        ⟨.reading, "malformed expression, nested deeper than 512 levels"⟩ := by
  obtain ⟨p, hp, rfl⟩ := parse_eq_ok_iff_parseTree.1 hs
  obtain ⟨q, hq, rfl⟩ := parse_eq_ok_iff_parseTree.1 ht
  refine ⟨p, q, ⟨hp, rfl⟩, ⟨hq, rfl⟩, ?_, ?_, ?_, by decide⟩
  · exact parse_eq_ok_iff_parseTree.2 ⟨p, parseTree_iterate_enclosed hp n, rfl⟩
  · have hb : (binary op p.flatten q.flatten).flatten = (binary op p q).flatten :=
      flatten_node_map_flatten op [p, q]
    rw [parse_eq_map_parseTree, parseTree_binary op hp hq, hb]
    exact apply_ite (Except.map flatten) _ _ _
  · rw [parse_eq_map_parseTree, parseTree_negation hp, ← flatten_negation]
    exact apply_ite (Except.map flatten) _ _ _

theorem parse_composed_sum :
    let sum : Expr Float := binary .add (.symbol ⟨"x"⟩) (.symbol ⟨"y"⟩)
    parse "((x y+))" = .ok sum ∧ parse "(x y+)*(z)" = .ok (binary .mul sum (.symbol ⟨"z"⟩)) ∧
      parse "-(x y+)" = .ok (negation sum) := by
  intro sum
  have hs : parseTree "x y+" = .ok sum := rfl
  have ht : parseTree "z" = .ok (.symbol ⟨"z"⟩ : Expr Float) := rfl
  obtain ⟨p, q, ⟨hp, -⟩, ⟨hq, -⟩, hparens, hbinary, hnegation, -⟩ :=
    parse_composed (a := sum) (b := .symbol ⟨"z"⟩) .mul 2 (s := "x y+") (t := "z") rfl rfl
  obtain rfl := Except.ok.inj (hs.symm.trans hp)
  obtain rfl := Except.ok.inj (ht.symm.trans hq)
  exact ⟨hparens, hbinary, hnegation⟩

/-- The limit of levels can be reached: not every text that is read may be negated. -/
theorem exists_parse_negation_tooDeep :
    ∃ (s : String) (a : Expr Float), parse s = .ok a ∧
      (parse ("-" ++ Text.enclosed s) : Except Fault (Expr Float)) = .error (.tooDeep 512) := by
  have hx : parseTree "x" = .ok (.symbol ⟨"x"⟩ : Expr Float) := rfl
  have hs := parseTree_iterate_negation (n := 511) hx (by decide)
  refine ⟨_, _, parse_eq_ok_iff_parseTree.2 ⟨_, hs, rfl⟩, ?_⟩
  rw [parse_eq_map_parseTree, parseTree_negation hs, depth_iterate_negation]
  rfl

end Expr

end InfixAlgebra
