import InfixAlgebra.Proofs.Parse.Faults

/-!
# Parentheses of a text that is read

The parentheses of a text are those of its tokens (`Token.isBalanced_iff_of_ofText`), and a pair of
them is empty in the one if it is in the other (`Token.hasEmptyParens_iff_of_ofText`).  So what the
machine requires of the tokens it requires of the text: a text that is read has balanced parentheses
and no empty pair, and a fault that blames the parentheses is right (`parentheses_of_parse`).
-/

namespace InfixAlgebra

/-! ## Parentheses of texts and of tokens -/

namespace Token

open Text

theorem isWord_of_isSome_paren? {α : Type u} {t : Token α} (h : t.paren?.isSome) :
    t.isWord = false := by
  cases t with
  | number x | symbol s => cases h
  | operator op | opening | closing => rfl

variable {α : Type u} [Numeric α] {afterNumber : Bool} {l cs : List Char} {ls : List (List Char)}
  {us vs ts : List (Token α)} {t : Token α} {text : String}

theorem filter_isParen_eq_nil {p : Char → Bool} (ho : p '(' = false) (hc : p ')' = false)
    (h : ∀ c ∈ cs, p c = true) : cs.filter isParen = [] := by
  refine List.filter_eq_nil_iff.2 fun c hm hp => ?_
  rw [isParen, Bool.or_eq_true, beq_iff_eq, beq_iff_eq] at hp
  have hm := h c hm
  rcases hp with rfl | rfl
  · rw [ho] at hm
    cases hm
  · rw [hc] at hm
    cases hm

/-- The parentheses of a lexeme are those of its tokens. -/
theorem TokensOf.filter_isParen (h : TokensOf afterNumber l us) : l.filter isParen = parens us := by
  cases h with
  | blank hb => exact filter_isParen_eq_nil (by decide) (by decide) (List.forall_mem_singleton.2 hb)
  | number hr _ => exact filter_isParen_eq_nil (by decide) (by decide) (isNumber_iff.1 hr).2
  | symbol hs => exact filter_isParen_eq_nil (by decide) (by decide) hs.2
  | factor hs => exact filter_isParen_eq_nil (by decide) (by decide) hs.2
  | @other _ t hw =>
    cases t with
    | number x => cases hw
    | symbol s => cases hw
    | operator op => cases op <;> rfl
    | opening => rfl
    | closing => rfl

theorem TokensOfAll.filter_isParen (h : TokensOfAll afterNumber ls ts) :
    ls.flatten.filter isParen = parens ts := by
  induction h with
  | nil => rfl
  | cons hl _ ih =>
    rw [List.flatten_cons, List.filter_append, hl.filter_isParen, ih, parens, parens,
      ← List.filterMap_append]
    rfl

/-- The parentheses of a text are balanced if those of its tokens are. -/
theorem isBalanced_iff_of_ofText (h : ofText text = .ok ts) :
    IsBalanced text.toList ↔ IsBalanced (parens ts) := by
  rw [← (ofText_eq_ok_iff.1 h).filter_isParen, flatten_lexemes, isBalanced_filter_iff]

/-! ### Empty parentheses -/

/-- Only blanks have no tokens. -/
theorem TokensOfAll.forall_isBlank (h : TokensOfAll afterNumber ls ([] : List (Token α))) :
    ∀ c ∈ ls.flatten, isBlank c = true := by
  generalize hts : ([] : List (Token α)) = ts at h
  induction h with
  | nil => exact fun c hc => nomatch hc
  | cons hl _ ih =>
    obtain ⟨rfl, rfl⟩ := List.nil_eq_append_iff.1 hts
    rw [List.flatten_cons, List.forall_mem_append]
    refine ⟨?_, ih rfl⟩
    cases hl with
    | blank hb => exact List.forall_mem_singleton.2 hb

/-- A parenthesis is the only token of its lexeme. -/
theorem TokensOf.eq_of_mem (h : TokensOf afterNumber l us) (ht : t ∈ us) (hp : t.paren?.isSome) :
    us = [t] ∧ l = t.chars := by
  cases h with
  | blank _ => cases ht
  | number _ _ | symbol _ =>
    rw [List.mem_singleton] at ht
    subst ht
    cases hp
  | factor _ =>
    rw [List.mem_cons, List.mem_singleton] at ht
    rcases ht with rfl | rfl
    · cases hp
    · cases hp
  | other _ =>
    rw [List.mem_singleton] at ht
    subst ht
    exact ⟨rfl, rfl⟩

/-- Where a parenthesis is among the tokens, its lexeme is among the lexemes. -/
theorem TokensOfAll.exists_append_cons (h : TokensOfAll afterNumber ls (us ++ t :: vs))
    (hp : t.paren?.isSome) :
    ∃ ks ms, ls = ks ++ t.chars :: ms ∧ TokensOfAll afterNumber ks us ∧
      TokensOfAll false ms vs := by
  generalize hts : us ++ t :: vs = ts at h
  induction h generalizing us with
  | nil => exact absurd hts (List.append_ne_nil_of_right_ne_nil us (List.cons_ne_nil t vs))
  | @cons b l ws ls ts hl hls ih =>
    -- The parenthesis is among the tokens behind those of `l`, unless it is the only token of `l`.
    have hnext (as : List (Token α)) (hu : us = ws ++ as) (hv : as ++ t :: vs = ts) :
        ∃ ks ms, l :: ls = ks ++ t.chars :: ms ∧ TokensOfAll b ks us ∧
          TokensOfAll false ms vs := by
      obtain ⟨ks, ms, rfl, hk, hm⟩ := ih hv
      exact ⟨l :: ks, ms, rfl, hu ▸ .cons hl hk, hm⟩
    rcases List.append_eq_append_iff.1 hts with ⟨as, rfl, hv⟩ | ⟨as, hu, hv⟩
    · cases as with
      | nil => exact hnext [] (by rw [List.append_nil, List.append_nil]) hv
      | cons a as =>
        obtain ⟨rfl, rfl⟩ := List.cons.inj hv
        obtain ⟨hu, rfl⟩ := hl.eq_of_mem List.mem_append_cons_self hp
        obtain ⟨rfl, hu⟩ | ⟨-, hu⟩ := List.append_eq_singleton_iff.1 hu
        · obtain rfl := (List.cons.inj hu).2
          rw [isNumber_chars (isWord_of_isSome_paren? hp)] at hls
          exact ⟨[], ls, rfl, .nil, hls⟩
        · cases hu
    · exact hnext as hu hv.symm

/-- Empty parentheses of a text are empty parentheses of its tokens. -/
theorem hasEmptyParens_iff_of_ofText (h : ofText text = .ok ts) :
    Text.HasEmptyParens text.toList ↔ HasEmptyParens ts := by
  rw [ofText_eq_ok_iff] at h
  constructor
  · rintro ⟨before, blanks, after, hb, ht⟩
    rw [ht, lexemes_append_cons rfl, lexemes_blanks_append hb, lexemes_cons_of_isSingle rfl] at h
    obtain ⟨us, ws, rfl, -, h⟩ := (tokensOfAll_append_other_iff (t := .opening) rfl).1 h
    obtain ⟨vs, xs, rfl, hv, -⟩ := (tokensOfAll_append_other_iff (t := .closing) rfl).1 h
    rw [hv.unique (.blanks hb)]
    exact ⟨us, xs, List.append_assoc ..⟩
  · rintro ⟨us, vs, rfl⟩
    rw [List.append_assoc] at h
    obtain ⟨ks, ls, hk, -, h⟩ := h.exists_append_cons rfl
    have hc : TokensOfAll false ls ([] ++ .closing :: vs) := h
    obtain ⟨bs, ms, rfl, hb, -⟩ := hc.exists_append_cons rfl
    refine ⟨ks.flatten, bs.flatten, ms.flatten, hb.forall_isBlank, ?_⟩
    rw [← flatten_lexemes text.toList, hk, List.flatten_append, List.flatten_cons,
      List.flatten_append, List.flatten_cons]
    rfl

end Token

/-! ## Texts that are read -/

namespace Expr

open Text

variable {α : Type u} [Numeric α] {text : String} {fault : Fault}

/-- A text that is read has balanced parentheses and no empty pair, and for either fault a text is
refused only if it has it. -/
theorem parentheses_of_parse (text : String) :
    (∀ e : Expr α, parse text = .ok e → IsBalanced text.toList ∧ ¬ HasEmptyParens text.toList) ∧
    (∀ fault, (parse text : Except Fault (Expr α)) = .error fault →
      (fault.message = "mismatched parentheses" → ¬ IsBalanced text.toList) ∧
      (fault.message = "malformed expression, empty parentheses" → HasEmptyParens text.toList)) ∧
    (¬ IsBalanced text.toList ∨ HasEmptyParens text.toList →
      ∃ fault, (parse text : Except Fault (Expr α)) = .error fault ∧ fault.kind = .reading) := by
  have hok (e : Expr α) (h : parse text = .ok e) :
      IsBalanced text.toList ∧ ¬ HasEmptyParens text.toList := by
    obtain ⟨ts, m, r, ht, hb, -⟩ := parse_eq_ok_iff.1 h
    rw [Token.isBalanced_iff_of_ofText ht, Token.hasEmptyParens_iff_of_ofText ht]
    exact Machine.isBalanced_of_build hb
  have hm : Fault.mismatchedParens ∈ Machine.faults := by decide
  have he : Fault.emptyParens ∈ Machine.faults := by decide
  refine ⟨hok, fun fault h => ⟨fun hf => ?_, fun hf => ?_⟩, fun hd => ?_⟩
  · obtain ⟨ts, ht, hb⟩ := exists_isDueTo_of_message_eq hm h hf
    rw [Token.isBalanced_iff_of_ofText ht]
    exact hb
  · obtain ⟨ts, ht, hp⟩ := exists_isDueTo_of_message_eq he h hf
    rw [Token.hasEmptyParens_iff_of_ofText ht]
    exact hp
  · cases h : (parse text : Except Fault (Expr α)) with
    | ok e =>
      obtain ⟨hb, he⟩ := hok e h
      exact absurd hd (not_or_intro (not_not_intro hb) he)
    | error fault => exact ⟨fault, rfl, kind_of_parse_error h⟩

theorem parentheses_of_read_and_refused :
    (IsBalanced "((x))".toList ∧ ¬ HasEmptyParens "((x))".toList) ∧
    ¬ IsBalanced "(x))*(y".toList ∧ HasEmptyParens "x*( )".toList ∧
    ∃ fault, (parse "x+*y^( " : Except Fault (Expr Float)) = .error fault ∧
      fault.kind = .reading := by
  have hread : (parse "((x))" : Except Fault (Expr Float)) = .ok (.symbol ⟨"x"⟩) := rfl
  have hmismatched : (parse "(x))*(y" : Except Fault (Expr Float)) = .error .mismatchedParens := rfl
  have hempty : (parse "x*( )" : Except Fault (Expr Float)) = .error .emptyParens := rfl
  have hopen : ¬ IsBalanced "x+*y^( ".toList := fun h => absurd h.count_eq (by decide)
  refine ⟨(parentheses_of_parse "((x))").1 _ hread, ?_, ?_, ?_⟩
  · exact ((parentheses_of_parse "(x))*(y").2.1 _ hmismatched).1 rfl
  · exact ((parentheses_of_parse "x*( )").2.1 _ hempty).2 rfl
  · exact (parentheses_of_parse "x+*y^( ").2.2 (.inl hopen)

end Expr

end InfixAlgebra
