import InfixAlgebra.Expr.Basic
import InfixAlgebra.Token
import Mathlib.Data.List.Basic

/-!
# The grammar of infix arithmetic

```text
sum     ::= product | product ('+' | '-') sum
product ::= unary | unary ('*' | '/') product
unary   ::= '-' unary | atom | atom '^' unary
atom    ::= number | symbol | '(' sum ')'
```

`Derives c ts e` says that the tokens `ts` derive from the category `c` and denote the tree `e`,
which has negations and binary nodes only; parentheses add no node.

Two operands are juxtaposed in a list of tokens if one ends where the next one begins
(`Juxtaposed`).  Such places are counted by `juxtapositions`, and the operators with nothing on
their right by `missingOperands`.
-/

namespace InfixAlgebra

variable {α : Type u}

/-- The categories of the grammar. -/
inductive Category where
  | sum
  | product
  | unary
  | atom

/-- The derivations of the grammar, with the trees that they denote. -/
inductive Derives : Category → List (Token α) → Expr α → Prop
  | sumOfProduct {ts e} : Derives .product ts e → Derives .sum ts e
  | sum {op ls l rs r} : op = .add ∨ op = .sub → Derives .product ls l → Derives .sum rs r →
      Derives .sum (ls ++ .operator op :: rs) (.node op [l, r])
  | productOfUnary {ts e} : Derives .unary ts e → Derives .product ts e
  | product {op ls l rs r} : op = .mul ∨ op = .div → Derives .unary ls l → Derives .product rs r →
      Derives .product (ls ++ .operator op :: rs) (.node op [l, r])
  | negation {ts e} : Derives .unary ts e → Derives .unary (.operator .sub :: ts) (.node .sub [e])
  | unaryOfAtom {ts e} : Derives .atom ts e → Derives .unary ts e
  | power {ls l rs r} : Derives .atom ls l → Derives .unary rs r →
      Derives .unary (ls ++ .operator .pow :: rs) (.node .pow [l, r])
  | number (x) : Derives .atom [.number x] (.number x)
  | symbol (s) : Derives .atom [.symbol s] (.symbol s)
  | parens {ts e} : Derives .sum ts e → Derives .atom (.opening :: (ts ++ [.closing])) e

namespace Token

/-- An operand ends with this token. -/
def endsOperand : Token α → Bool
  | .number _ | .symbol _ | .closing => true
  | .operator _ | .opening => false

/-- An operand begins with this token. -/
def startsOperand : Token α → Bool
  | .number _ | .symbol _ | .opening => true
  | .operator _ | .closing => false

def isOperator : Token α → Bool
  | .operator _ => true
  | _ => false

/-- The token of an operator. -/
def isOp (op : Operator) : Token α → Bool
  | .operator op' => op' = op
  | _ => false

/-- The number or symbol that a token stands for. -/
def terminal? : Token α → Option (Expr α)
  | .number x => some (.number x)
  | .symbol s => some (.symbol s)
  | _ => none

end Token

/-- The last token ends an operand. -/
def EndsOperand (ts : List (Token α)) : Prop := ∃ t ∈ ts.getLast?, t.endsOperand = true

theorem endsOperand_concat {ts : List (Token α)} {t : Token α} :
    EndsOperand (ts ++ [t]) ↔ t.endsOperand = true := by
  simp [EndsOperand]

theorem EndsOperand.exists_concat {ts : List (Token α)} (h : EndsOperand ts) :
    ∃ us t, ts = us ++ [t] ∧ t.endsOperand = true := by
  obtain ⟨t, ht, he⟩ := h
  obtain ⟨us, rfl⟩ := List.getLast?_eq_some_iff.1 ht
  exact ⟨us, t, rfl, he⟩

theorem EndsOperand.append {ts : List (Token α)} (us : List (Token α)) (h : EndsOperand ts) :
    EndsOperand (us ++ ts) := by
  obtain ⟨t, ht, he⟩ := h
  refine ⟨t, ?_, he⟩
  rw [Option.mem_def] at ht ⊢
  rw [List.getLast?_append, ht, Option.some_or]

theorem EndsOperand.of_append {ts us : List (Token α)} (h : EndsOperand (us ++ ts))
    (hts : ts ≠ []) : EndsOperand ts := by
  obtain ⟨t, ht, he⟩ := h
  rw [List.getLast?_append_of_ne_nil _ hts] at ht
  exact ⟨t, ht, he⟩

theorem EndsOperand.ne_nil {ts : List (Token α)} (h : EndsOperand ts) : ts ≠ [] := by
  rintro rfl
  obtain ⟨t, ht, -⟩ := h
  cases ht

theorem Derives.endsOperand {c : Category} {ts : List (Token α)} {e : Expr α}
    (h : Derives c ts e) : EndsOperand ts := by
  induction h with
  | sumOfProduct _ ih | productOfUnary _ ih | unaryOfAtom _ ih => exact ih
  | sum _ _ _ _ ih | product _ _ _ _ ih | power _ _ _ ih =>
    exact (ih.append [_]).append _
  | negation _ ih => exact ih.append [_]
  | number x => exact ⟨_, rfl, rfl⟩
  | symbol s => exact ⟨_, rfl, rfl⟩
  | @parens ts e _ _ => exact EndsOperand.append (.opening :: ts) ⟨.closing, rfl, rfl⟩

/-! ## Levels -/

theorem Operator.precedence_pos (op : Operator) : 1 ≤ op.precedence := by
  cases op <;> decide

theorem Operator.precedence_le (op : Operator) : op.precedence ≤ 3 := by
  cases op <;> decide

/-- The category of a level. -/
def Category.ofLevel : Nat → Category
  | 0 | 1 => .sum
  | 2 => .product
  | 3 => .unary
  | _ => .atom

theorem Derives.ofLevel_succ {k : Nat} {ts : List (Token α)} {e : Expr α}
    (h : Derives (.ofLevel (k + 1)) ts e) : Derives (.ofLevel k) ts e := by
  match k with
  | 0 => exact h
  | 1 => exact h.sumOfProduct
  | 2 => exact h.productOfUnary
  | 3 => exact h.unaryOfAtom
  | _ + 4 => exact h

theorem Derives.binary {op : Operator} {ls rs : List (Token α)} {l r : Expr α}
    (hl : Derives (.ofLevel (op.precedence + 1)) ls l)
    (hr : Derives (.ofLevel op.precedence) rs r) :
    Derives (.ofLevel op.precedence) (ls ++ .operator op :: rs) (.node op [l, r]) := by
  cases op with
  | add => exact .sum (.inl rfl) hl hr
  | sub => exact .sum (.inr rfl) hl hr
  | mul => exact .product (.inl rfl) hl hr
  | div => exact .product (.inr rfl) hl hr
  | pow => exact .power hl hr

theorem Derives.ofLevel_of_le {k n : Nat} {ts : List (Token α)} {e : Expr α}
    (h : Derives (.ofLevel k) ts e) (hn : n ≤ k) : Derives (.ofLevel n) ts e := by
  induction hn with
  | refl => exact h
  | step _ ih => exact ih h.ofLevel_succ

/-- An atom derives at every level. -/
theorem Derives.ofLevel {k : Nat} {ts : List (Token α)} {e : Expr α} (h : Derives .atom ts e) :
    Derives (.ofLevel k) ts e := by
  have h4 : Derives (.ofLevel (k + 4)) ts e := h
  exact h4.ofLevel_of_le (Nat.le_add_right k 4)

/-! ## Juxtaposed and missing operands -/

/-- Somewhere an operand begins directly after the end of another one. -/
def Juxtaposed (ts : List (Token α)) : Prop :=
  ∃ before a b after, ts = before ++ a :: b :: after ∧ a.endsOperand = true ∧
    b.startsOperand = true

/-- How many tokens are related to what follows them; `next` follows the last token. -/
def countBefore (p : Token α → Option (Token α) → Bool) (next : Option (Token α)) :
    List (Token α) → Nat
  | [] => 0
  | t :: ts => (p t (ts.head?.or next)).toNat + countBefore p next ts

/-- An operand ends and the next one begins. -/
def isJuxtaposition (t : Token α) (next : Option (Token α)) : Bool :=
  t.endsOperand && next.any Token.startsOperand

/-- Nothing follows but a closing parenthesis or the end. -/
def closes : Option (Token α) → Bool
  | none | some .closing => true
  | _ => false

/-- An operator is followed by a closing parenthesis or by the end. -/
def lacksOperand (t : Token α) (next : Option (Token α)) : Bool := t.isOperator && closes next

/-- The places at which an operand begins directly after the end of another one. -/
def juxtapositions (ts : List (Token α)) : Nat := countBefore isJuxtaposition none ts

/-- The operators directly before a closing parenthesis or the end. -/
def missingOperands (ts : List (Token α)) : Nat := countBefore lacksOperand none ts

theorem countBefore_append (p : Token α → Option (Token α) → Bool) (next : Option (Token α))
    (ts us : List (Token α)) :
    countBefore p next (ts ++ us) =
      countBefore p (us.head?.or next) ts + countBefore p next us := by
  induction ts with
  | nil => simp [countBefore]
  | cons t ts ih =>
    rw [List.cons_append, countBefore, countBefore, ih, List.head?_append, Option.or_assoc]
    omega

theorem countBefore_append_concat (p : Token α → Option (Token α) → Bool) (ts us : List (Token α))
    (t : Token α) :
    countBefore p none (ts ++ [t] ++ us) + (p t none).toNat =
      countBefore p none (ts ++ [t]) + (p t us.head?).toNat + countBefore p none us := by
  rw [countBefore_append, countBefore_append, countBefore_append]
  simp only [countBefore, List.head?_nil, List.head?_cons, Option.or_none, Option.none_or,
    Option.some_or]
  omega

/-- What follows the last token does not matter if it is related alike to all tokens. -/
theorem countBefore_congr {p : Token α → Option (Token α) → Bool} {n n' : Option (Token α)}
    (h : ∀ t, p t n = p t n') (ts : List (Token α)) : countBefore p n ts = countBefore p n' ts := by
  induction ts with
  | nil => rfl
  | cons t ts ih =>
    rw [countBefore, countBefore, ih]
    cases ts with
    | nil => simp [h]
    | cons u us => rfl

theorem juxtapositions_append {ts us : List (Token α)} (h : EndsOperand ts) :
    juxtapositions (ts ++ us) =
      juxtapositions ts + (us.head?.any Token.startsOperand).toNat + juxtapositions us := by
  obtain ⟨ts, t, rfl, ht⟩ := h.exists_concat
  have := countBefore_append_concat isJuxtaposition ts us t
  simpa [juxtapositions, isJuxtaposition, ht] using this

theorem missingOperands_append {ts us : List (Token α)} (h : EndsOperand ts) :
    missingOperands (ts ++ us) = missingOperands ts + missingOperands us := by
  obtain ⟨ts, t, rfl, ht⟩ := h.exists_concat
  have ho : t.isOperator = false := by
    cases t <;> first | rfl | cases ht
  have := countBefore_append_concat lacksOperand ts us t
  simpa [missingOperands, lacksOperand, ho] using this

theorem juxtapositions_cons {t : Token α} {ts : List (Token α)} (h : t.endsOperand = false) :
    juxtapositions (t :: ts) = juxtapositions ts := by
  simp [juxtapositions, countBefore, isJuxtaposition, h]

theorem missingOperands_cons (t : Token α) (ts : List (Token α)) :
    missingOperands (t :: ts) = (lacksOperand t ts.head?).toNat + missingOperands ts := by
  simp [missingOperands, countBefore]

theorem juxtapositions_singleton (t : Token α) : juxtapositions [t] = 0 := by
  simp [juxtapositions, countBefore, isJuxtaposition]

theorem missingOperands_singleton (t : Token α) : missingOperands [t] = t.isOperator.toNat := by
  simp [missingOperands, countBefore, lacksOperand, closes]

theorem juxtapositions_concat_closing (ts : List (Token α)) :
    juxtapositions (ts ++ [.closing]) = juxtapositions ts := by
  have h (t : Token α) : isJuxtaposition t (some .closing) = isJuxtaposition t none := by
    simp [isJuxtaposition, Token.startsOperand]
  rw [juxtapositions, countBefore_append, List.head?_cons, Option.some_or, countBefore_congr h]
  simp [juxtapositions, countBefore, isJuxtaposition]

theorem missingOperands_concat_closing (ts : List (Token α)) :
    missingOperands (ts ++ [.closing]) = missingOperands ts := by
  have h (t : Token α) : lacksOperand t (some .closing) = lacksOperand t none := rfl
  rw [missingOperands, countBefore_append, List.head?_cons, Option.some_or, countBefore_congr h]
  simp [missingOperands, countBefore, lacksOperand, Token.isOperator]

/-- No operands are juxtaposed in a derivation. -/
theorem Derives.juxtapositions_eq_zero {c : Category} {ts : List (Token α)} {e : Expr α}
    (h : Derives c ts e) : juxtapositions ts = 0 := by
  induction h with
  | sumOfProduct _ ih | productOfUnary _ ih | unaryOfAtom _ ih => exact ih
  | sum _ hl _ ihl ihr | product _ hl _ ihl ihr | power hl _ ihl ihr =>
    rw [juxtapositions_append hl.endsOperand, juxtapositions_cons rfl, ihl, ihr]
    rfl
  | negation _ ih => rw [juxtapositions_cons rfl, ih]
  | number x => exact juxtapositions_singleton _
  | symbol s => exact juxtapositions_singleton _
  | parens _ ih => rw [juxtapositions_cons rfl, juxtapositions_concat_closing, ih]

theorem juxtapositions_pos_iff {ts : List (Token α)} : 0 < juxtapositions ts ↔ Juxtaposed ts := by
  induction ts with
  | nil => simp [juxtapositions, countBefore, Juxtaposed]
  | cons t ts ih =>
    rw [juxtapositions, countBefore, Nat.add_pos_iff_pos_or_pos]
    constructor
    · rintro (h | h)
      · cases ts with
        | nil => simp [isJuxtaposition] at h
        | cons u us =>
          simp only [isJuxtaposition, List.head?_cons, Option.some_or, Option.any_some,
            Nat.pos_iff_ne_zero, ne_eq, Bool.toNat_eq_zero, Bool.not_eq_false,
            Bool.and_eq_true] at h
          exact ⟨[], t, u, us, rfl, h⟩
      · obtain ⟨before, a, b, after, rfl, hab⟩ := ih.1 h
        exact ⟨t :: before, a, b, after, rfl, hab⟩
    · rintro ⟨before, a, b, after, hts, ha, hb⟩
      cases before with
      | nil =>
        obtain ⟨rfl, rfl⟩ := List.cons.inj hts
        exact Or.inl (by simp [isJuxtaposition, ha, hb])
      | cons t' before =>
        obtain ⟨rfl, rfl⟩ := List.cons.inj hts
        exact Or.inr (ih.2 ⟨before, a, b, after, rfl, ha, hb⟩)

theorem juxtapositions_eq_zero_iff {ts : List (Token α)} :
    juxtapositions ts = 0 ↔ ¬ Juxtaposed ts := by
  rw [← juxtapositions_pos_iff, Nat.pos_iff_ne_zero, not_not]

end InfixAlgebra
