import InfixAlgebra.Token
import Mathlib.Data.List.Infix

/-!
# Parentheses

The parentheses of a text are balanced if no beginning of the text closes more of them than it
opens, and the text as a whole closes as many as it opens (`Text.IsBalanced`).  Only the
parentheses count for that (`Text.isBalanced_filter_iff`), so a list of tokens has balanced
parentheses if the characters of its parentheses are balanced (`Token.parens`).
-/

namespace InfixAlgebra

/-! ## Parentheses of texts -/

namespace Text

/-- No beginning of a text closes more parentheses than it opens, and the text closes all. -/
structure IsBalanced (cs : List Char) : Prop where
  count_le : ∀ ds, ds <+: cs → ds.count ')' ≤ ds.count '('
  count_eq : cs.count ')' = cs.count '('

/-- Somewhere an opening parenthesis is followed by a closing one, up to blanks between them. -/
def HasEmptyParens (cs : List Char) : Prop :=
  ∃ before blanks after, (∀ c ∈ blanks, isBlank c = true) ∧
    cs = before ++ '(' :: (blanks ++ ')' :: after)

def isParen (c : Char) : Bool := c == '(' || c == ')'

/-- Only the parentheses of a text count for their balance. -/
theorem isBalanced_filter_iff {cs : List Char} :
    IsBalanced (cs.filter isParen) ↔ IsBalanced cs := by
  have ho (ds : List Char) : (ds.filter isParen).count '(' = ds.count '(' := List.count_filter rfl
  have hc (ds : List Char) : (ds.filter isParen).count ')' = ds.count ')' := List.count_filter rfl
  constructor
  · intro h
    refine ⟨fun ds hd => ?_, ?_⟩
    · rw [← ho, ← hc]
      exact h.count_le _ (hd.filter isParen)
    · rw [← ho, ← hc]
      exact h.count_eq
  · intro h
    refine ⟨fun ds hd => ?_, ?_⟩
    · obtain ⟨es, he, rfl⟩ := List.prefix_filter_iff.1 hd
      rw [ho, hc]
      exact h.count_le es he
    · rw [ho, hc]
      exact h.count_eq

end Text

/-! ## Parentheses of tokens -/

namespace Token

variable {α : Type u}

/-- The character of a parenthesis. -/
def paren? : Token α → Option Char
  | .opening => some '('
  | .closing => some ')'
  | _ => none

/-- The parentheses among some tokens. -/
def parens (ts : List (Token α)) : List Char := ts.filterMap paren?

/-- Somewhere a closing parenthesis is the next token after an opening one. -/
def HasEmptyParens (ts : List (Token α)) : Prop := [.opening, .closing] <:+: ts

theorem parens_concat (ts : List (Token α)) (t : Token α) :
    parens (ts ++ [t]) = parens ts ++ t.paren?.toList := by
  rw [parens, List.filterMap_append, parens]
  cases t <;> rfl

theorem count_parens_concat (c : Char) (ts : List (Token α)) (t : Token α) :
    (parens (ts ++ [t])).count c = (parens ts).count c + t.paren?.toList.count c := by
  rw [parens_concat, List.count_append]

/-- A further token makes empty parentheses if it closes the parenthesis that was just opened. -/
theorem hasEmptyParens_concat_iff {ts : List (Token α)} {t : Token α} :
    HasEmptyParens (ts ++ [t]) ↔
      ts.getLast? = some .opening ∧ t = .closing ∨ HasEmptyParens ts := by
  rw [HasEmptyParens, List.infix_concat_iff, ← HasEmptyParens]
  refine or_congr_left ?_
  constructor
  · rintro ⟨us, hu⟩
    rw [List.append_cons] at hu
    obtain ⟨rfl, ht⟩ := List.append_inj' hu rfl
    exact ⟨List.getLast?_concat, (List.singleton_injective ht).symm⟩
  · rintro ⟨ho, rfl⟩
    obtain ⟨us, rfl⟩ := List.getLast?_eq_some_iff.1 ho
    exact ⟨us, List.append_cons us .opening [.closing]⟩

end Token

end InfixAlgebra
