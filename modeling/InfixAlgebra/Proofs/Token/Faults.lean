import InfixAlgebra.Proofs.Number.Decimal
import InfixAlgebra.Proofs.Token.Concatenation
import InfixAlgebra.Report
import Mathlib.Data.Nat.Find

/-!
# Lexical faults

A lexical fault of a text is a maximal run of digits and points that writes no finite number, or a
character that begins no token (`LexicalFault`).  These are the faulty ones among the lexemes of the
text (`lexicalFault_iff`), and lexemes are read from left to right.  So a text has tokens exactly if
it has no lexical fault, and otherwise the leftmost one is reported (`ofText_eq_error_iff`).
-/

namespace InfixAlgebra

/-! ## Lexical faults -/

/-- A run of digits and points that writes no finite number: it has no digit, or more than one
point, or its number is too large. -/
def Text.IsInvalid (α : Type u) [Numeric α] (run : List Char) : Prop :=
  (∀ c ∈ run, c.isDigit = false) ∨ 2 ≤ run.count '.' ∨
    ∃ x : α, Numeric.ofChars? run = some x ∧ Numeric.isFinite x = false

/-- `LexicalFault α cs n fault` says that the text `cs` has a lexical fault behind its first `n`
characters, and what it is reported as. -/
inductive LexicalFault (α : Type u) [Numeric α] (cs : List Char) : Nat → Fault → Prop
  /-- A maximal run of digits and points is reported as a whole. -/
  | number {before run after} : cs = before ++ run ++ after → Text.isNumber run = true →
      (∀ c ∈ before.getLast?, Text.isNumeric c = false) →
      (∀ c ∈ after.head?, Text.isNumeric c = false) → Text.IsInvalid α run →
      LexicalFault α cs before.length (.invalidNumber (String.ofList run))
  /-- A foreign character is reported with all that follows it. -/
  | character {before c after} : cs = before ++ c :: after → Text.isForeign c = true →
      LexicalFault α cs before.length (.unreadable (String.ofList (c :: after)))

/-- The lexical fault that has no other one on its left. -/
structure FirstLexicalFault (α : Type u) [Numeric α] (cs : List Char) (n : Nat) (fault : Fault) :
    Prop where
  lexicalFault : LexicalFault α cs n fault
  le : ∀ m other, LexicalFault α cs m other → n ≤ m

section

variable {α : Type u} [Numeric α] {cs : List Char} {n : Nat} {fault : Fault}

/-- A text that has a lexical fault has a leftmost one. -/
theorem exists_firstLexicalFault (h : LexicalFault α cs n fault) :
    ∃ m first, FirstLexicalFault α cs m first := by
  classical
  have hn : ∃ n fault, LexicalFault α cs n fault := ⟨n, fault, h⟩
  obtain ⟨first, hf⟩ := Nat.find_spec hn
  exact ⟨_, first, hf, fun m other ho => Nat.find_min' hn ⟨other, ho⟩⟩

/-- A lexical fault begins with a character of a number or with a foreign character. -/
theorem LexicalFault.exists_getElem? (h : LexicalFault α cs n fault) :
    ∃ c, cs[n]? = some c ∧ (Text.isNumeric c || Text.isForeign c) = true := by
  cases h with
  | @number before run after hc hr _ _ _ =>
    obtain ⟨hne, hall⟩ := Text.isNumber_iff.1 hr
    obtain ⟨c, run, rfl⟩ := List.exists_cons_of_ne_nil hne
    refine ⟨c, ?_, Bool.or_eq_true_iff.2 (.inl (hall c List.mem_cons_self))⟩
    rw [hc, List.append_assoc, List.getElem?_append_right le_rfl, Nat.sub_self]
    rfl
  | @character before c after hc hf =>
    refine ⟨c, ?_, Bool.or_eq_true_iff.2 (.inr hf)⟩
    rw [hc, List.getElem?_append_right le_rfl, Nat.sub_self]
    rfl

/-- A lexical fault is the leftmost one if only blanks, letters, operators and parentheses are
before it. -/
theorem LexicalFault.first (h : LexicalFault α cs n fault)
    (hb : (cs.take n).any (fun c => Text.isNumeric c || Text.isForeign c) = false) :
    FirstLexicalFault α cs n fault := by
  refine ⟨h, fun m other ho => Nat.not_lt.1 fun hm => ?_⟩
  obtain ⟨c, hc, hx⟩ := ho.exists_getElem?
  have hmem : c ∈ cs.take n := List.mem_of_getElem? ((List.getElem?_take_of_lt hm).trans hc)
  exact List.any_eq_false.1 hb c hmem hx

end

namespace Token

variable {α : Type u} [Numeric α] {afterNumber : Bool} {cs l run : List Char}
  {ls ms rest : List (List Char)} {us done : List (Token α)} {n : Nat} {fault : Fault}
  {text : String}

/-! ## The first faulty lexeme -/

theorem Faulty.ne_nil (h : Faulty α l rest fault) : l ≠ [] := by
  cases h with
  | number hr _ => exact (Text.isNumber_iff.1 hr).1
  | character _ => exact List.cons_ne_nil _ _

theorem Faulty.kind (h : Faulty α l rest fault) : fault.kind = .reading := by
  cases h with
  | number _ _ => rfl
  | character _ => rfl

/-- Lexemes all have tokens, or one of them is faulty and the ones before it have tokens. -/
theorem tokensOfAll_or_faulty (hl : ∀ l ∈ ls, l ∈ Text.lexemes cs) (afterNumber : Bool) :
    (∃ us : List (Token α), TokensOfAll afterNumber ls us) ∨
      ∃ before l after, ls = before ++ l :: after ∧
        (∃ us : List (Token α), TokensOfAll afterNumber before us) ∧
        ∀ rest, ∃ fault, Faulty α l rest fault := by
  induction ls generalizing afterNumber with
  | nil => exact .inl ⟨[], .nil⟩
  | cons l ls ih =>
    rw [List.forall_mem_cons] at hl
    rcases tokensOf_or_faulty (α := α) hl.1 afterNumber with ⟨us, hu⟩ | hf
    · rcases ih hl.2 (Text.isNumber l) with ⟨vs, hv⟩ | ⟨before, k, after, rfl, ⟨vs, hv⟩, hf⟩
      · exact .inl ⟨us ++ vs, .cons hu hv⟩
      · exact .inr ⟨l :: before, k, after, rfl, ⟨us ++ vs, .cons hu hv⟩, hf⟩
    · exact .inr ⟨[], l, ls, rfl, ⟨[], .nil⟩, hf⟩

/-- A text without tokens is reported for one of its faulty lexemes. -/
theorem exists_faulty_of_ofText
    (h : (ofText text : Except Fault (List (Token α))) = .error fault) :
    ∃ before l after, Text.lexemes (Text.trim text.toList) = before ++ l :: after ∧
      Faulty α l after fault := by
  rw [ofText] at h
  rcases tokensOfAll_or_faulty (α := α) (fun _ hl => hl) false with
    ⟨us, hu⟩ | ⟨before, l, after, hl, ⟨us, hu⟩, hf⟩
  · rw [hu.ofLexemes_eq_ok] at h
    cases h
  · obtain ⟨other, ho⟩ := hf after
    rw [hl, hu.ofLexemes_append, ho.ofLexemes_cons] at h
    exact ⟨before, l, after, hl, Except.error.inj h ▸ ho⟩

/-! ## Lexical faults are faulty lexemes -/

variable [DecimalNumeric α]

theorem finite?_eq_none_iff (h : Text.isNumber run = true) :
    (finite? run : Option α) = none ↔ Text.IsInvalid α run := by
  have hd := DecimalNumeric.exists_ofChars?_iff (α := α) (Text.isNumber_iff.1 h).2
  rw [finite?, Option.filter_eq_none_iff]
  constructor
  · intro hx
    by_cases hr : ∃ x : α, Numeric.ofChars? run = some x
    · obtain ⟨x, hr⟩ := hr
      exact .inr (.inr ⟨x, hr, by simpa using hx x hr⟩)
    · rw [hd, not_and_or, Nat.not_le] at hr
      exact hr.imp (by simp) .inl
  · rintro (hr | hr | ⟨x, hr, hx⟩) y hy
    · obtain ⟨⟨c, hc, hcd⟩, -⟩ := hd.1 ⟨y, hy⟩
      rw [hr c hc] at hcd
      cases hcd
    · exact absurd (hd.1 ⟨y, hy⟩).2 (Nat.not_le.2 hr)
    · obtain rfl := Option.some.inj (hr.symm.trans hy)
      simp [hx]

/-- The lexical faults of a text are its faulty lexemes. -/
theorem lexicalFault_iff :
    LexicalFault α cs n fault ↔
      ∃ before l after, Text.lexemes cs = before ++ l :: after ∧ before.flatten.length = n ∧
        Faulty α l after fault := by
  constructor
  · intro h
    cases h with
    | number hc hr hb ha hi =>
      obtain ⟨hne, hall⟩ := Text.isNumber_iff.1 hr
      refine ⟨_, _, _, hc ▸ Text.lexemes_append_run_append
        (fun _ => Text.joined_of_isNumeric_left) hne hall hb ha, ?_, .number hr ?_⟩
      · rw [Text.flatten_lexemes]
      · exact (finite?_eq_none_iff hr).2 hi
    | @character before c after hc hx =>
      have hs := ((Text.isForeign_iff (α := α)).1 hx).2.1
      refine ⟨_, _, _, hc ▸ Text.lexemes_append_cons hs before after, ?_, ?_⟩
      · rw [Text.flatten_lexemes]
      · have hf : Faulty α [c] (Text.lexemes after) _ := .character hx
        rwa [Text.flatten_lexemes] at hf
  · rintro ⟨before, l, after, hl, rfl, hx⟩
    have hc : cs = before.flatten ++ (l ++ after.flatten) := by
      rw [← List.flatten_cons, ← List.flatten_append, ← hl, Text.flatten_lexemes]
    cases hx with
    | number hr hx =>
      obtain ⟨hne, hall⟩ := Text.isNumber_iff.1 hr
      obtain ⟨hb, ha⟩ := Text.eq_false_of_lexemes_eq (fun _ => Text.joined_of_isNumeric_left) hl
        hne hall
      rw [← List.append_assoc] at hc
      exact .number hc hr hb ha ((finite?_eq_none_iff hr).1 hx)
    | character hx => exact .character hc hx

/-! ## The leftmost lexical fault -/

/-- The leftmost lexical fault is the one that reading stops at. -/
theorem ofLexemes_eq_error (h : FirstLexicalFault α cs n fault) :
    ofLexemes ([] : List (Token α)) false (Text.lexemes cs) = .error fault := by
  obtain ⟨before, l, after, hl, hn, hf⟩ := lexicalFault_iff.1 h.lexicalFault
  have hm : ∀ k ∈ before, k ∈ Text.lexemes cs := fun k hk => hl ▸ List.mem_append_left _ hk
  rcases tokensOfAll_or_faulty (α := α) hm false with ⟨us, hu⟩ | ⟨first, k, rest, rfl, -, hk⟩
  · rw [hl, hu.ofLexemes_append, hf.ofLexemes_cons]
  · -- A faulty lexeme further to the left would be a lexical fault further to the left.
    obtain ⟨other, hk⟩ := hk (rest ++ l :: after)
    rw [List.append_assoc, List.cons_append] at hl
    have hle := h.le _ other (lexicalFault_iff.2 ⟨first, k, rest ++ l :: after, hl, rfl, hk⟩)
    have hpos := List.length_pos_iff.2 hk.ne_nil
    rw [← hn, List.flatten_append, List.flatten_cons, List.length_append, List.length_append] at hle
    omega

/-- Reading a text stops at its leftmost lexical fault. -/
theorem ofText_eq_error_iff :
    (ofText text : Except Fault (List (Token α))) = .error fault ↔
      ∃ n, FirstLexicalFault α (Text.trim text.toList) n fault := by
  constructor
  · intro h
    obtain ⟨before, l, after, hl, hf⟩ := exists_faulty_of_ofText h
    obtain ⟨n, first, hn⟩ := exists_firstLexicalFault (lexicalFault_iff.2 ⟨_, _, _, hl, rfl, hf⟩)
    obtain rfl := Except.error.inj ((ofLexemes_eq_error hn).symm.trans h)
    exact ⟨n, hn⟩
  · rintro ⟨n, h⟩
    exact ofLexemes_eq_error h

/-- A text without lexical faults has tokens. -/
theorem exists_ofText_of_not_lexicalFault
    (h : ∀ n fault, ¬ LexicalFault α (Text.trim text.toList) n fault) :
    ∃ ts : List (Token α), ofText text = .ok ts := by
  cases ht : (ofText text : Except Fault (List (Token α))) with
  | ok ts => exact ⟨ts, rfl⟩
  | error fault =>
    obtain ⟨n, hn⟩ := ofText_eq_error_iff.1 ht
    exact absurd hn.lexicalFault (h n fault)

end Token

end InfixAlgebra
