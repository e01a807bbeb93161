import InfixAlgebra.Proofs.Token.Reading

/-!
# Tokens of joined texts

A text has certain tokens exactly if its lexemes have them one after the other
(`Token.ofText_eq_ok_iff`); blanks at its ends do not matter.  A character that is a lexeme by
itself parts the lexemes of a text, so two texts can be joined by the token that it writes: what is
read is the tokens of the one, that token, and the tokens of the other
(`Token.ofText_append_token`).  If they are joined by blanks (`Token.ofText_append_blanks_append`)
or do not depend on each other where they meet (`Token.ofText_append`), what is read is the tokens
of the one and the tokens of the other.
-/

namespace InfixAlgebra

/-! ## Lexemes -/

/-- A lexeme is a number if its last character is one of a number. -/
theorem Text.isNumber_eq_isNumeric_getLast {cs l : List Char} (h : l ∈ lexemes cs) (hl : l ≠ []) :
    isNumber l = isNumeric (l.getLast hl) := by
  obtain ⟨c, ds, rfl⟩ := List.exists_cons_of_ne_nil hl
  have hm := List.getLast_mem hl
  by_cases hn : isNumeric c = true
  · have hr := isNumber_of_mem_lexemes h hn
    rw [hr, (isNumber_iff.1 hr).2 _ hm]
  · rw [Bool.not_eq_true] at hn
    rw [isNumber_cons hn, eq_comm]
    by_cases ha : c.isAlpha = true
    · exact isNumeric_of_isAlpha ((isName_iff.1 (isName_of_mem_lexemes h ha)).2 _ hm)
    · have hs := isSingle_iff.2 ⟨hn, Bool.not_eq_true _ ▸ ha⟩
      obtain rfl := eq_nil_of_mem_lexemes h hs
      exact hn

/-- A character that is a lexeme by itself parts the lexemes before it from those behind it. -/
theorem Text.lexemes_append_cons {c : Char} (h : isSingle c = true) (cs ds : List Char) :
    lexemes (cs ++ c :: ds) = lexemes cs ++ [c] :: lexemes ds := by
  rw [← lexemes_cons_of_isSingle h]
  refine lexemes_append fun a _ b hb => ?_
  obtain rfl := Option.some.inj hb
  exact joined_of_isSingle_right h a

namespace Token

variable {α : Type u} [Numeric α] {afterNumber : Bool} {l bs : List Char} {ls ms : List (List Char)}
  {us vs ts done : List (Token α)}

/-! ## Reading lexemes that have tokens -/

/-- Whether a number is the last of some lexemes, or the lexeme before them if there are none. -/
def endsNumber (afterNumber : Bool) (ls : List (List Char)) : Bool :=
  ls.foldl (fun _ l => Text.isNumber l) afterNumber

/-- Lexemes that have tokens are read before the others. -/
theorem TokensOfAll.ofLexemes_append (h : TokensOfAll afterNumber ls us) (done : List (Token α))
    (ms : List (List Char)) :
    ofLexemes done afterNumber (ls ++ ms) =
      ofLexemes (us.reverse ++ done) (endsNumber afterNumber ls) ms := by
  induction h generalizing done with
  | nil => rfl
  | cons hl _ ih =>
    rw [List.cons_append, hl.ofLexemes_cons, ih, List.reverse_append, List.append_assoc]
    rfl

/-- Lexemes that have tokens are read as these. -/
theorem TokensOfAll.ofLexemes_eq_ok (h : TokensOfAll afterNumber ls ts) (done : List (Token α)) :
    ofLexemes done afterNumber ls = .ok (done.reverse ++ ts) := by
  have ha := h.ofLexemes_append done []
  rw [List.append_nil, ofLexemes, List.reverse_append, List.reverse_reverse] at ha
  exact ha

/-- Lexemes have at most one list of tokens. -/
theorem TokensOfAll.unique (h : TokensOfAll afterNumber ls us)
    (h' : TokensOfAll afterNumber ls vs) : us = vs := by
  have he := h.ofLexemes_eq_ok []
  rw [h'.ofLexemes_eq_ok] at he
  exact (Except.ok.inj he).symm

/-! ## Lexemes in two parts -/

theorem endsNumber_blanks (h : ∀ c ∈ bs, Text.isBlank c = true) :
    endsNumber false (bs.map fun c => [c]) = false := by
  induction bs with
  | nil => rfl
  | cons b bs ih =>
    rw [List.forall_mem_cons] at h
    have hb : Text.isNumber [b] = false :=
      Text.isNumber_cons (Text.isSingle_iff.1 (Text.isSingle_of_isBlank h.1)).1 []
    show endsNumber (Text.isNumber [b]) (bs.map fun c => [c]) = false
    rw [hb, ih h.2]

/-- The tokens of two rows of lexemes are those of the first and then those of the second. -/
theorem tokensOfAll_append_iff :
    TokensOfAll afterNumber (ls ++ ms) ts ↔
      ∃ us vs, ts = us ++ vs ∧ TokensOfAll afterNumber ls us ∧
        TokensOfAll (endsNumber afterNumber ls) ms vs := by
  induction ls generalizing afterNumber ts with
  | nil =>
    constructor
    · intro h
      exact ⟨[], ts, rfl, .nil, h⟩
    · rintro ⟨us, vs, rfl, hu, hv⟩
      cases hu
      exact hv
  | cons l ls ih =>
    constructor
    · intro h
      cases h with
      | @cons _ _ us _ _ hl h =>
        obtain ⟨vs, ws, rfl, hv, hw⟩ := ih.1 h
        exact ⟨us ++ vs, ws, (List.append_assoc ..).symm, .cons hl hv, hw⟩
    · rintro ⟨_, ws, rfl, hu, hw⟩
      cases hu with
      | @cons _ _ us _ vs hl hv =>
        rw [List.append_assoc]
        exact .cons hl (ih.2 ⟨vs, ws, rfl, hv, hw⟩)

/-- A lexeme that has the same tokens everywhere parts the tokens of the others. -/
theorem tokensOfAll_append_cons_iff (hl : ∀ b, TokensOf b l us) (hn : Text.isNumber l = false) :
    TokensOfAll afterNumber (ls ++ l :: ms) ts ↔
      ∃ vs ws, ts = vs ++ (us ++ ws) ∧ TokensOfAll afterNumber ls vs ∧ TokensOfAll false ms ws := by
  rw [tokensOfAll_append_iff]
  constructor
  · rintro ⟨vs, _, rfl, hv, h⟩
    cases h with
    | @cons _ _ us' _ ws hl' hw =>
      have hu := (TokensOfAll.cons hl' .nil).unique (.cons (hl _) .nil)
      rw [List.append_nil, List.append_nil] at hu
      rw [hn] at hw
      exact ⟨vs, ws, by rw [hu], hv, hw⟩
  · rintro ⟨vs, ws, rfl, hv, hw⟩
    exact ⟨vs, us ++ ws, rfl, hv, .cons (hl _) (hn ▸ hw)⟩

theorem isNumber_chars {t : Token α} (ht : t.isWord = false) : Text.isNumber t.chars = false := by
  obtain ⟨c, hc, hs, -⟩ := exists_chars_of_not_isWord ht
  rw [hc]
  exact Text.isNumber_cons (Text.isSingle_iff.1 hs).1 []

/-- A token that is neither a number nor a symbol is the only one of its lexeme. -/
theorem tokensOfAll_append_other_iff {t : Token α} (ht : t.isWord = false) :
    TokensOfAll afterNumber (ls ++ t.chars :: ms) ts ↔
      ∃ us vs, ts = us ++ t :: vs ∧ TokensOfAll afterNumber ls us ∧ TokensOfAll false ms vs :=
  tokensOfAll_append_cons_iff (fun _ => .other ht) (isNumber_chars ht)

/-! ### The lexeme before -/

/-- A lexeme that does not begin with a letter has the same tokens behind a number. -/
theorem TokensOf.of_head? (h : TokensOf afterNumber l us) (hl : ∀ c ∈ l.head?, c.isAlpha = false)
    (b : Bool) : TokensOf b l us := by
  have hname {s : Symbol} (hs : Symbol.IsName s.name) :
      ¬ ∀ c ∈ s.name.toList.head?, c.isAlpha = false := by
    obtain ⟨c, cs, hc⟩ := List.exists_cons_of_ne_nil hs.1
    intro h
    have ha := hs.2 c (hc ▸ List.mem_cons_self)
    rw [h c (hc ▸ rfl)] at ha
    cases ha
  cases h with
  | blank hb => exact .blank hb
  | number hr hx => exact .number hr hx
  | symbol hs | factor hs => exact absurd hl (hname hs)
  | other ht => exact .other ht

theorem TokensOfAll.of_head? (h : TokensOfAll afterNumber ls ts)
    (hl : ∀ c ∈ ls.flatten.head?, c.isAlpha = false) (b : Bool) : TokensOfAll b ls ts := by
  cases h with
  | nil => exact .nil
  | cons hu hls =>
    rw [List.flatten_cons, List.head?_append_of_ne_nil _ hu.ne_nil] at hl
    exact .cons (hu.of_head? hl b) hls

/-- The last lexeme of a text is a number if its last character is one of a number. -/
theorem endsNumber_lexemes (cs : List Char) :
    endsNumber false (Text.lexemes cs) = cs.getLast?.any Text.isNumeric := by
  rcases List.eq_nil_or_concat' (Text.lexemes cs) with hl | ⟨ks, l, hl⟩
  · rw [← Text.flatten_lexemes cs, hl]
    rfl
  · have hm : l ∈ Text.lexemes cs := hl ▸ List.mem_append_right ks (List.mem_singleton_self l)
    have hne := List.ne_nil_of_mem_splitBy hm
    have hc : cs.getLast? = some (l.getLast hne) := by
      rw [← Text.flatten_lexemes cs, hl, List.flatten_append, List.flatten_singleton,
        List.getLast?_append_of_ne_nil _ hne, List.getLast?_eq_some_getLast hne]
    rw [hl, endsNumber, List.foldl_concat, hc, Option.any_some,
      Text.isNumber_eq_isNumeric_getLast hm hne]

/-! ### Blanks -/

theorem tokensOfAll_blanks_append_iff (h : ∀ c ∈ bs, Text.isBlank c = true) :
    TokensOfAll false (bs.map (fun c => [c]) ++ ls) ts ↔ TokensOfAll false ls ts := by
  refine ⟨fun ht => ?_, .blanks_append h⟩
  obtain ⟨us, vs, rfl, hu, hv⟩ := tokensOfAll_append_iff.1 ht
  rw [endsNumber_blanks h] at hv
  rw [hu.unique (.blanks h)]
  exact hv

theorem tokensOfAll_append_blanks_iff (h : ∀ c ∈ bs, Text.isBlank c = true) :
    TokensOfAll afterNumber (ls ++ bs.map fun c => [c]) ts ↔ TokensOfAll afterNumber ls ts := by
  refine ⟨fun ht => ?_, .append_blanks h⟩
  obtain ⟨us, vs, rfl, hu, hv⟩ := tokensOfAll_append_iff.1 ht
  rw [hv.unique (.blanks h), List.append_nil]
  exact hu

/-! ## Texts in two parts -/

/-- The tokens of a text are those of its lexemes. -/
theorem ofText_eq_ok_iff {text : String} :
    ofText text = .ok ts ↔ TokensOfAll false (Text.lexemes text.toList) ts := by
  refine ⟨tokensOfAll_of_ofText, fun h => ?_⟩
  obtain ⟨before, after, hc, hb, ha⟩ := Text.exists_eq_append_trim text.toList
  rw [hc, Text.lexemes_append_blanks ha, Text.lexemes_blanks_append hb,
    tokensOfAll_append_blanks_iff ha, tokensOfAll_blanks_append_iff hb] at h
  exact h.ofLexemes_eq_ok []

/-- Two texts may be joined by a token that is neither a number nor a symbol. -/
theorem ofText_append_token {s t : String} {u : Token α} (hu : u.isWord = false)
    (hs : ofText s = .ok us) (ht : ofText t = .ok vs) :
    ofText (s ++ String.ofList u.chars ++ t) = .ok (us ++ u :: vs) := by
  obtain ⟨c, hc, hsingle, -⟩ := exists_chars_of_not_isWord hu
  rw [ofText_eq_ok_iff] at hs ht ⊢
  have hl : Text.lexemes (s ++ String.ofList u.chars ++ t).toList =
      Text.lexemes s.toList ++ u.chars :: Text.lexemes t.toList := by
    rw [String.toList_append, String.toList_append, String.toList_ofList, hc, List.append_assoc,
      List.singleton_append, Text.lexemes_append_cons hsingle]
  rw [hl]
  exact (tokensOfAll_append_other_iff hu).2 ⟨us, vs, rfl, hs, ht⟩

/-- Where blanks part two texts, what is read is the tokens of the one and those of the other. -/
theorem ofText_append_blanks_append {u w v : String} (hw : w ≠ "")
    (hb : ∀ c ∈ w.toList, Text.isBlank c = true) :
    ofText (u ++ w ++ v) = .ok ts ↔
      ∃ us vs, ts = us ++ vs ∧ ofText u = .ok us ∧ ofText v = .ok vs := by
  obtain ⟨b, bs, hbs⟩ := List.exists_cons_of_ne_nil (mt String.toList_eq_nil_iff.1 hw)
  rw [hbs, List.forall_mem_cons] at hb
  have hs := Text.isSingle_of_isBlank hb.1
  have hn := Text.isNumber_cons (Text.isSingle_iff.1 hs).1 []
  have hl : Text.lexemes (u ++ w ++ v).toList =
      Text.lexemes u.toList ++ [b] :: (bs.map (fun c => [c]) ++ Text.lexemes v.toList) := by
    rw [String.toList_append, String.toList_append, hbs, List.append_assoc, List.cons_append,
      Text.lexemes_append_cons hs, Text.lexemes_blanks_append hb.2]
  simp only [ofText_eq_ok_iff]
  have hbl (n : Bool) : TokensOf n [b] ([] : List (Token α)) := .blank hb.1
  rw [hl, tokensOfAll_append_cons_iff hbl hn]
  simp only [List.nil_append, tokensOfAll_blanks_append_iff hb.2]

/-- Where two texts do not join and no name follows a number, what is read is the tokens of the one
and those of the other. -/
theorem ofText_append {u v : String}
    (hj : ∀ a ∈ u.toList.getLast?, ∀ b ∈ v.toList.head?, Text.joined a b = false)
    (hf : ∀ a ∈ u.toList.getLast?, ∀ b ∈ v.toList.head?, ¬ (Text.isNumeric a ∧ b.isAlpha)) :
    ofText (u ++ v) = .ok ts ↔
      ∃ us vs, ts = us ++ vs ∧ ofText u = .ok us ∧ ofText v = .ok vs := by
  simp only [ofText_eq_ok_iff]
  rw [String.toList_append, Text.lexemes_append hj, tokensOfAll_append_iff]
  cases he : endsNumber false (Text.lexemes u.toList) with
  | false => rfl
  | true =>
    rw [endsNumber_lexemes, Option.any_eq_true] at he
    obtain ⟨a, ha, hn⟩ := he
    have hv : ∀ b ∈ (Text.lexemes v.toList).flatten.head?, b.isAlpha = false := by
      rw [Text.flatten_lexemes]
      exact fun b hb => Bool.eq_false_iff.2 fun hba => hf a ha b hb ⟨hn, hba⟩
    have hvs (vs : List (Token α)) : TokensOfAll true (Text.lexemes v.toList) vs ↔
        TokensOfAll false (Text.lexemes v.toList) vs :=
      ⟨fun h => h.of_head? hv _, fun h => h.of_head? hv _⟩
    simp only [hvs]

end Token

end InfixAlgebra
