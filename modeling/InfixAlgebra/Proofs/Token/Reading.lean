import InfixAlgebra.Proofs.Token.Runs
import Mathlib.Data.List.Forall2

/-!
# The tokens of a text

A text is read lexeme by lexeme, and each lexeme has tokens of its own (`TokensOf`) or is faulty
(`Faulty`); a name right after a number has two tokens.  So the numbers and symbols among the tokens
are what the runs of the text write (`forall₂_writes_of_ofText`), numbers are plain and names are
valid (`isReadable_of_ofText`), and an operator is a token as often as it is a character, if the
names that follow numbers are counted for `*` (`countP_isOp_of_ofText`).
-/

namespace InfixAlgebra

/-! ## Lexemes by their first character -/

namespace Text

variable {c : Char} {cs ds : List Char}

/-- A lexeme that begins with a character of a class is a run of that class. -/
theorem forall_of_mem_lexemes {p : Char → Bool} (hp : ∀ a, p a = true → ∀ b, joined a b = p b)
    (h : c :: ds ∈ lexemes cs) (hc : p c = true) : ∀ a ∈ c :: ds, p a = true := by
  refine (List.isChain_of_mem_splitBy h).induction _ _ (fun a b hab ha => ?_) fun _ => hc
  rw [hp a ha] at hab
  exact hab

theorem isNumber_of_mem_lexemes (h : c :: ds ∈ lexemes cs) (hc : isNumeric c = true) :
    isNumber (c :: ds) = true :=
  isNumber_iff.2 ⟨List.cons_ne_nil c ds,
    forall_of_mem_lexemes (fun _ => joined_of_isNumeric_left) h hc⟩

theorem isName_of_mem_lexemes (h : c :: ds ∈ lexemes cs) (hc : c.isAlpha = true) :
    isName (c :: ds) = true :=
  isName_iff.2 ⟨List.cons_ne_nil c ds, forall_of_mem_lexemes (fun _ => joined_of_isAlpha_left) h hc⟩

theorem eq_nil_of_mem_lexemes (h : c :: ds ∈ lexemes cs) (hc : isSingle c = true) : ds = [] := by
  cases ds with
  | nil => rfl
  | cons d ds =>
    have hab := (List.isChain_cons_cons.1 (List.isChain_of_mem_splitBy h)).1
    rw [joined_of_isSingle_left hc] at hab
    cases hab

/-- A character that is neither blank, nor a letter, a digit, a point, an operator or a
parenthesis. -/
def isForeign (c : Char) : Bool :=
  !(isBlank c || c.isAlpha || c.isDigit || c == '.' || Operator.all.any (·.char == c) ||
    c == '(' || c == ')')

/-- A foreign character is one that begins no token and is not blank. -/
theorem isForeign_iff {α : Type u} :
    isForeign c = true ↔
      isBlank c = false ∧ isSingle c = true ∧ (Token.ofChar? c : Option (Token α)) = none := by
  unfold Token.ofChar? Operator.ofChar?
  rw [isSingle_iff, isNumeric]
  split_ifs with ho hc
  · simp [isForeign, ho]
  · simp [isForeign, hc]
  · simp [isForeign, ho, hc, and_assoc, and_left_comm]

end Text

/-! ## Tokens by their lexemes -/

namespace Token

variable {α : Type u} [Numeric α]

/-- The tokens of a lexeme; `afterNumber` says whether the lexeme just before is a number. -/
inductive TokensOf : Bool → List Char → List (Token α) → Prop
  | blank {afterNumber c} : Text.isBlank c = true → TokensOf afterNumber [c] []
  | number {afterNumber cs x} : Text.isNumber cs = true → finite? cs = some x →
      TokensOf afterNumber cs [.number x]
  | symbol {s : Symbol} : Symbol.IsName s.name → TokensOf false s.name.toList [.symbol s]
  | factor {s : Symbol} : Symbol.IsName s.name →
      TokensOf true s.name.toList [.operator .mul, .symbol s]
  | other {afterNumber} {t : Token α} : t.isWord = false → TokensOf afterNumber t.chars [t]

/-- The tokens of lexemes; `afterNumber` says whether the lexeme just before them is a number. -/
inductive TokensOfAll : Bool → List (List Char) → List (Token α) → Prop
  | nil {afterNumber} : TokensOfAll afterNumber [] []
  | cons {afterNumber l us ls ts} : TokensOf afterNumber l us →
      TokensOfAll (Text.isNumber l) ls ts → TokensOfAll afterNumber (l :: ls) (us ++ ts)

theorem chars_of_ofChar? {c : Char} {t : Token α} (h : ofChar? c = some t) :
    t.isWord = false ∧ t.chars = [c] := by
  unfold ofChar? at h
  split_ifs at h with ho hc
  · obtain rfl := Option.some.inj h
    exact ⟨rfl, by rw [ho]; rfl⟩
  · obtain rfl := Option.some.inj h
    exact ⟨rfl, by rw [hc]; rfl⟩
  · obtain ⟨op, hop, rfl⟩ := Option.map_eq_some_iff.1 h
    exact ⟨rfl, by rw [chars, Operator.char_of_ofChar? hop]⟩

theorem ofChar?_of_chars {t : Token α} {c : Char} (hw : t.isWord = false) (hc : t.chars = [c]) :
    ofChar? c = some t := by
  cases t with
  | number x => cases hw
  | symbol s => cases hw
  | operator op =>
    obtain rfl := List.singleton_injective hc
    cases op <;> rfl
  | opening =>
    obtain rfl := List.singleton_injective hc
    rfl
  | closing =>
    obtain rfl := List.singleton_injective hc
    rfl

/-! ## Reading one lexeme -/

/-- A lexeme that has no tokens, and its fault where the lexemes `rest` stand behind it. -/
inductive Faulty (α : Type u) [Numeric α] : List Char → List (List Char) → Fault → Prop
  | number {run rest} : Text.isNumber run = true → (finite? run : Option α) = none →
      Faulty α run rest (.invalidNumber (String.ofList run))
  | character {c rest} : Text.isForeign c = true →
      Faulty α [c] rest (.unreadable (String.ofList (c :: rest.flatten)))

/-- Every lexeme has tokens or is faulty. -/
theorem tokensOf_or_faulty {cs l : List Char} (hl : l ∈ Text.lexemes cs) (afterNumber : Bool) :
    (∃ us : List (Token α), TokensOf afterNumber l us) ∨
      ∀ rest, ∃ fault, Faulty α l rest fault := by
  obtain ⟨c, ds, rfl⟩ := List.exists_cons_of_ne_nil (List.ne_nil_of_mem_splitBy hl)
  by_cases hb : Text.isBlank c = true
  · rw [Text.eq_nil_of_mem_lexemes hl (Text.isSingle_of_isBlank hb)]
    exact .inl ⟨_, .blank hb⟩
  by_cases hn : Text.isNumeric c = true
  · have hr := Text.isNumber_of_mem_lexemes hl hn
    cases hx : (finite? (c :: ds) : Option α) with
    | none => exact .inr fun rest => ⟨_, .number hr hx⟩
    | some x => exact .inl ⟨_, .number hr hx⟩
  by_cases ha : c.isAlpha = true
  · have hs := Text.isName_iff.1 (Text.isName_of_mem_lexemes hl ha)
    rw [← String.toList_ofList (l := c :: ds)] at hs ⊢
    cases afterNumber with
    | false => exact .inl ⟨_, .symbol (s := ⟨_⟩) hs⟩
    | true => exact .inl ⟨_, .factor (s := ⟨_⟩) hs⟩
  rw [Bool.not_eq_true] at hb hn ha
  have hs : Text.isSingle c = true := Text.isSingle_iff.2 ⟨hn, ha⟩
  rw [Text.eq_nil_of_mem_lexemes hl hs]
  cases ht : (ofChar? c : Option (Token α)) with
  | none => exact .inr fun rest => ⟨_, .character (Text.isForeign_iff.2 ⟨hb, hs, ht⟩)⟩
  | some t =>
    obtain ⟨hw, hc⟩ := chars_of_ofChar? ht
    rw [← hc]
    exact .inl ⟨_, .other hw⟩

/-- A lexeme that has tokens is read as these. -/
theorem TokensOf.ofLexemes_cons {afterNumber : Bool} {l : List Char} {us : List (Token α)}
    (h : TokensOf afterNumber l us) (done : List (Token α))
    (rest : List (List Char)) :
    ofLexemes done afterNumber (l :: rest) =
      ofLexemes (us.reverse ++ done) (Text.isNumber l) rest := by
  cases h with
  | blank hb =>
    rw [ofLexemes, if_pos hb,
      Text.isNumber_cons (Text.isSingle_iff.1 (Text.isSingle_of_isBlank hb)).1]
    rfl
  | number hn hx =>
    obtain ⟨hne, hc⟩ := Text.isNumber_iff.1 hn
    obtain ⟨c, cs, rfl⟩ := List.exists_cons_of_ne_nil hne
    have hc := hc c List.mem_cons_self
    rw [ofLexemes, if_neg (by simp [Text.isBlank_of_isNumeric hc]), if_pos hc, hx, hn]
    rfl
  | @symbol s hs | @factor s hs =>
    obtain ⟨c, cs, hl⟩ := List.exists_cons_of_ne_nil hs.1
    have hc : c.isAlpha = true := hs.2 c (hl ▸ List.mem_cons_self)
    have hn := Text.isNumeric_of_isAlpha hc
    have ho : Symbol.ofName (String.ofList (c :: cs)) = .ok s := by
      rw [← hl, String.ofList_toList]
      exact Symbol.ofName_eq_ok_iff.2 ⟨hs, rfl⟩
    rw [hl, ofLexemes, if_neg (by simp [Text.isBlank_of_isAlpha hc]), if_neg (by simp [hn]),
      if_pos hc, ho, Text.isNumber_cons hn]
    rfl
  | @other _ t hw =>
    obtain ⟨c, hc, hs, hb⟩ := exists_chars_of_not_isWord hw
    rw [Text.isSingle_iff] at hs
    rw [hc, ofLexemes, if_neg (by simp [hb]), if_neg (by simp [hs.1]), if_neg (by simp [hs.2]),
      ofChar?_of_chars hw hc, Text.isNumber_cons hs.1]
    rfl

theorem Faulty.ofLexemes_cons {l : List Char} {rest : List (List Char)} {fault : Fault}
    (h : Faulty α l rest fault) (done : List (Token α)) (afterNumber : Bool) :
    ofLexemes done afterNumber (l :: rest) = .error fault := by
  cases h with
  | number hr hx =>
    obtain ⟨hne, hc⟩ := Text.isNumber_iff.1 hr
    obtain ⟨c, cs, rfl⟩ := List.exists_cons_of_ne_nil hne
    have hc := hc c List.mem_cons_self
    rw [ofLexemes, if_neg (by simp [Text.isBlank_of_isNumeric hc]), if_pos hc, hx]
  | character hf =>
    obtain ⟨hb, hs, ht⟩ := (Text.isForeign_iff (α := α)).1 hf
    rw [Text.isSingle_iff] at hs
    rw [ofLexemes, if_neg (by simp [hb]), if_neg (by simp [hs.1]), if_neg (by simp [hs.2]), ht]
    rfl

/-- Reading a lexeme takes its tokens in, and remembers whether it is a number. -/
theorem exists_tokensOf {cs l : List Char} (hl : l ∈ Text.lexemes cs) {done ts : List (Token α)}
    {afterNumber : Bool} {rest : List (List Char)}
    (h : ofLexemes done afterNumber (l :: rest) = .ok ts) :
    ∃ us, TokensOf afterNumber l us ∧
      ofLexemes (us.reverse ++ done) (Text.isNumber l) rest = .ok ts := by
  rcases tokensOf_or_faulty (α := α) hl afterNumber with ⟨us, hu⟩ | hf
  · rw [hu.ofLexemes_cons] at h
    exact ⟨us, hu, h⟩
  · obtain ⟨fault, hf⟩ := hf rest
    rw [hf.ofLexemes_cons] at h
    cases h

/-! ## Reading lexemes -/

theorem exists_tokensOfAll {cs : List Char} {ls : List (List Char)}
    (hl : ∀ l ∈ ls, l ∈ Text.lexemes cs) {done ts : List (Token α)} {afterNumber : Bool}
    (h : ofLexemes done afterNumber ls = .ok ts) :
    ∃ us, TokensOfAll afterNumber ls us ∧ ts = done.reverse ++ us := by
  induction ls generalizing done afterNumber with
  | nil =>
    exact ⟨[], .nil, (Except.ok.inj h).symm.trans (List.append_nil _).symm⟩
  | cons l ls ih =>
    rw [List.forall_mem_cons] at hl
    obtain ⟨us, hu, h⟩ := exists_tokensOf hl.1 h
    obtain ⟨vs, hv, rfl⟩ := ih hl.2 h
    exact ⟨us ++ vs, .cons hu hv, by simp⟩

namespace TokensOfAll

variable {afterNumber : Bool} {ls : List (List Char)} {ts : List (Token α)} {bs : List Char}

theorem blanks (h : ∀ c ∈ bs, Text.isBlank c = true) :
    TokensOfAll afterNumber (bs.map fun c => [c]) ([] : List (Token α)) := by
  induction bs generalizing afterNumber with
  | nil => exact .nil
  | cons b bs ih =>
    rw [List.forall_mem_cons] at h
    exact .cons (.blank h.1) (ih h.2)

/-- Blanks before a text have no tokens. -/
theorem blanks_append (h : ∀ c ∈ bs, Text.isBlank c = true) (ht : TokensOfAll false ls ts) :
    TokensOfAll false (bs.map (fun c => [c]) ++ ls) ts := by
  induction bs with
  | nil => exact ht
  | cons b bs ih =>
    rw [List.forall_mem_cons] at h
    refine .cons (.blank h.1) ?_
    rw [Text.isNumber_cons (Text.isSingle_iff.1 (Text.isSingle_of_isBlank h.1)).1]
    exact ih h.2

/-- Blanks behind a text have no tokens. -/
theorem append_blanks (h : ∀ c ∈ bs, Text.isBlank c = true) (ht : TokensOfAll afterNumber ls ts) :
    TokensOfAll afterNumber (ls ++ bs.map fun c => [c]) ts := by
  induction ht with
  | nil => exact blanks h
  | cons hl _ ih => exact .cons hl ih

/-- What is true of the tokens of every lexeme is true of all tokens. -/
theorem forall_mem {p : Token α → Prop}
    (hp : ∀ {afterNumber l us}, TokensOf afterNumber l us → ∀ t ∈ us, p t)
    (h : TokensOfAll afterNumber ls ts) : ∀ t ∈ ts, p t := by
  induction h with
  | nil => exact fun t ht => nomatch ht
  | cons hl _ ih => exact List.forall_mem_append.2 ⟨hp hl, ih⟩

end TokensOfAll

/-- The tokens of a text are those of its lexemes. -/
theorem tokensOfAll_of_ofText {text : String} {ts : List (Token α)} (h : ofText text = .ok ts) :
    TokensOfAll false (Text.lexemes text.toList) ts := by
  obtain ⟨us, hu, rfl⟩ := exists_tokensOfAll (fun _ hl => hl) h
  obtain ⟨before, after, hc, hb, ha⟩ := Text.exists_eq_append_trim text.toList
  rw [hc, Text.lexemes_append_blanks ha, Text.lexemes_blanks_append hb]
  exact (hu.blanks_append hb).append_blanks ha

/-! ## Numbers and names -/

/-- What a run of digits and points, or of letters, writes. -/
inductive Writes : List Char → Expr α → Prop
  | number {run x} : Text.isNumber run = true → Numeric.ofChars? run = some x →
      Writes run (.number x)
  | symbol {run} : Text.isName run = true → Writes run (.symbol ⟨String.ofList run⟩)

section Readable

variable {afterNumber : Bool} {l : List Char} {us : List (Token α)}

theorem writes_of_isName {s : Symbol} (h : Symbol.IsName s.name) :
    Writes s.name.toList (.symbol s : Expr α) := by
  have hw := Writes.symbol (α := α) (Text.isName_iff.2 h)
  rwa [String.ofList_toList] at hw

/-- A lexeme that is a run writes the only number or symbol among its tokens. -/
theorem TokensOf.forall₂_writes (h : TokensOf afterNumber l us) :
    List.Forall₂ Writes ([l].filter fun l => Text.isNumber l || Text.isName l)
      (us.filterMap terminal?) := by
  cases h with
  | @blank _ c hb =>
    have hs := Text.isSingle_iff.1 (Text.isSingle_of_isBlank hb)
    rw [List.filter_singleton, Text.isNumber_cons hs.1, Text.isName_cons hs.2]
    exact .nil
  | number hn hx =>
    rw [List.filter_singleton, hn, Bool.true_or, cond_true]
    exact .cons (.number hn (Option.filter_eq_some_iff.1 hx).1) .nil
  | symbol hs =>
    rw [List.filter_singleton, Text.isName_iff.2 hs, Bool.or_true, cond_true]
    exact .cons (writes_of_isName hs) .nil
  | factor hs =>
    rw [List.filter_singleton, Text.isName_iff.2 hs, Bool.or_true, cond_true]
    exact .cons (writes_of_isName hs) .nil
  | @other _ t hw =>
    obtain ⟨c, hc, hs, -⟩ := exists_chars_of_not_isWord hw
    rw [Text.isSingle_iff] at hs
    rw [hc, List.filter_singleton, Text.isNumber_cons hs.1, Text.isName_cons hs.2]
    cases t with
    | number x => cases hw
    | symbol s => cases hw
    | _ => exact .nil

theorem TokensOfAll.forall₂_writes {ls : List (List Char)} {ts : List (Token α)}
    (h : TokensOfAll afterNumber ls ts) :
    List.Forall₂ Writes (ls.filter fun l => Text.isNumber l || Text.isName l)
      (ts.filterMap terminal?) := by
  induction h with
  | nil => exact .nil
  | cons hl _ ih =>
    rw [List.filterMap_append, ← List.singleton_append, List.filter_append]
    exact List.rel_append hl.forall₂_writes ih

/-- The runs of a text write the numbers and symbols among its tokens, in their order. -/
theorem forall₂_writes_of_ofText {text : String} {ts : List (Token α)} (h : ofText text = .ok ts) :
    List.Forall₂ Writes (Text.runs text.toList) (ts.filterMap terminal?) := by
  rw [Text.runs_eq_filter]
  exact (tokensOfAll_of_ofText h).forall₂_writes

theorem TokensOf.isName (h : TokensOf afterNumber l us) :
    ∀ t ∈ us, ∀ s, t = .symbol s → Symbol.IsName s.name := by
  cases h with
  | blank _ => exact fun t ht => nomatch ht
  | number _ _ => simp
  | symbol hs => simpa using hs
  | factor hs => simpa using hs
  | @other _ t hw =>
    cases t with
    | symbol s => cases hw
    | _ => simp

/-- The names of a text are valid. -/
theorem isName_of_ofText {text : String} {ts : List (Token α)} (h : ofText text = .ok ts)
    {s : Symbol} (hs : .symbol s ∈ ts) : Symbol.IsName s.name :=
  (tokensOfAll_of_ofText h).forall_mem TokensOf.isName _ hs s rfl

variable [SignBit α] [BEq α] [LawfulNumeric α]

theorem TokensOf.isReadable (h : TokensOf afterNumber l us) : ∀ t ∈ us, t.IsReadable := by
  cases h with
  | blank _ => exact fun t ht => nomatch ht
  | @number _ cs x hc hx =>
    rw [List.forall_mem_singleton]
    obtain ⟨hx, hf⟩ := Option.filter_eq_some_iff.1 hx
    exact ⟨hf, LawfulNumeric.isNegative_of_ofChars? (Text.isNumber_iff.1 hc).2 hx⟩
  | symbol hs =>
    rw [List.forall_mem_singleton]
    exact hs
  | factor hs =>
    rw [List.forall_mem_cons, List.forall_mem_singleton]
    exact ⟨trivial, hs⟩
  | @other _ t hw =>
    rw [List.forall_mem_singleton]
    cases t with
    | number x => cases hw
    | symbol s => cases hw
    | _ => trivial

/-- The numbers of a text are plain, and its names are valid. -/
theorem isReadable_of_ofText {text : String} {ts : List (Token α)} (h : ofText text = .ok ts) :
    ∀ t ∈ ts, t.IsReadable :=
  (tokensOfAll_of_ofText h).forall_mem TokensOf.isReadable

end Readable

/-! ## Operators -/

section Operators

variable {afterNumber : Bool} {l : List Char} {us : List (Token α)}

theorem count_char_eq_zero {op : Operator} {cs : List Char} {p : Char → Bool}
    (hp : p op.char = false) (h : ∀ c ∈ cs, p c = true) : cs.count op.char = 0 := by
  refine List.count_eq_zero.2 fun hm => ?_
  rw [h _ hm] at hp
  cases hp

/-- A lexeme has the operator that it is, and a name after a number has a multiplication. -/
theorem TokensOf.countP_isOp (h : TokensOf afterNumber l us) (op : Operator) :
    us.countP (isOp op) = l.count op.char +
      if op = .mul then (afterNumber && l.head?.any Char.isAlpha).toNat else 0 := by
  have ha : op.char.isAlpha = false := by cases op <;> decide
  cases h with
  | @blank _ c hc =>
    have hb : Text.isBlank op.char = false := by cases op <;> decide
    have hs := Text.isSingle_iff.1 (Text.isSingle_of_isBlank hc)
    rw [count_char_eq_zero hb (List.forall_mem_singleton.2 hc)]
    simp [hs.2]
  | number hr _ =>
    have hn : Text.isNumeric op.char = false := by cases op <;> decide
    rw [Text.isNumber_iff] at hr
    obtain ⟨c, cs, rfl⟩ := List.exists_cons_of_ne_nil hr.1
    rw [count_char_eq_zero hn hr.2]
    simp [isOp, Text.isAlpha_of_isNumeric (hr.2 c List.mem_cons_self)]
  | symbol hs =>
    rw [count_char_eq_zero ha hs.2]
    simp [isOp]
  | @factor s hs =>
    obtain ⟨c, cs, hc⟩ := List.exists_cons_of_ne_nil hs.1
    have hh : s.name.toList.head?.any Char.isAlpha = true := by
      rw [hc, List.head?_cons, Option.any_some]
      exact hs.2 c (hc ▸ List.mem_cons_self)
    rw [count_char_eq_zero ha hs.2, hh]
    simp [isOp, List.countP_cons, eq_comm]
  | @other _ t hw =>
    obtain ⟨c, hc, hs, -⟩ := exists_chars_of_not_isWord hw
    have hh : t.chars.head?.any Char.isAlpha = false := by
      rw [hc]
      exact (Text.isSingle_iff.1 hs).2
    rw [hh, Bool.and_false, Bool.toNat_false, ite_self, Nat.add_zero]
    cases t with
    | number x => cases hw
    | symbol s => cases hw
    | operator op' =>
      rw [chars, List.countP_singleton, List.count_singleton, isOp]
      cases op <;> cases op' <;> decide
    | opening => cases op <;> rfl
    | closing => cases op <;> rfl

/-- Before the next text a lexeme begins a factor if it is a number and a name follows. -/
theorem TokensOf.factors_append (h : TokensOf afterNumber l us) (cs : List Char) :
    Text.factors (l ++ cs) =
      (Text.isNumber l && cs.head?.any Char.isAlpha).toNat + Text.factors cs := by
  by_cases hn : Text.isNumber l = true
  · rw [hn, Bool.true_and, Text.factors_append_of_isNumber hn]
  · have hc : ∀ c ∈ l, Text.isNumeric c = false := by
      cases h with
      | blank hb =>
        exact List.forall_mem_singleton.2 (Text.isSingle_iff.1 (Text.isSingle_of_isBlank hb)).1
      | number hr _ => exact absurd hr hn
      | symbol hs => exact fun c hc => Text.isNumeric_of_isAlpha (hs.2 c hc)
      | factor hs => exact fun c hc => Text.isNumeric_of_isAlpha (hs.2 c hc)
      | other hw =>
        obtain ⟨c, hc, hs, -⟩ := exists_chars_of_not_isWord hw
        rw [hc]
        exact List.forall_mem_singleton.2 (Text.isSingle_iff.1 hs).1
    rw [Bool.eq_false_iff.2 hn, Text.factors_append_of_not_isNumeric hc]
    simp

theorem TokensOf.ne_nil (h : TokensOf afterNumber l us) : l ≠ [] := by
  cases h with
  | blank _ => exact List.cons_ne_nil _ _
  | number hr _ => exact (Text.isNumber_iff.1 hr).1
  | symbol hs => exact hs.1
  | factor hs => exact hs.1
  | other hw =>
    obtain ⟨c, hc, -⟩ := exists_chars_of_not_isWord hw
    rw [hc]
    exact List.cons_ne_nil _ _

theorem TokensOfAll.countP_isOp {ls : List (List Char)} {ts : List (Token α)}
    (h : TokensOfAll afterNumber ls ts) (op : Operator) :
    ts.countP (isOp op) = ls.flatten.count op.char +
      if op = .mul then
        (afterNumber && ls.flatten.head?.any Char.isAlpha).toNat + Text.factors ls.flatten
      else 0 := by
  induction h with
  | nil => simp [Text.factors]
  | @cons afterNumber l us ls ts hl _ ih =>
    have hh : (l ++ ls.flatten).head? = l.head? := List.head?_append_of_ne_nil l hl.ne_nil
    rw [List.flatten_cons, List.countP_append, List.count_append, ih, hl.countP_isOp, hh,
      hl.factors_append]
    split_ifs <;> omega

/-- An operator is a token as often as it is a character, and `*` also where a name directly follows
a number. -/
theorem countP_isOp_of_ofText {text : String} {ts : List (Token α)} (h : ofText text = .ok ts)
    (op : Operator) :
    ts.countP (isOp op) =
      text.toList.count op.char + if op = .mul then Text.factors text.toList else 0 := by
  have hc := (tokensOfAll_of_ofText h).countP_isOp op
  rw [Text.flatten_lexemes, Bool.false_and, Bool.toNat_false, Nat.zero_add] at hc
  exact hc

end Operators

end Token

end InfixAlgebra
