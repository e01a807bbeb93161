import InfixAlgebra.Proofs.Grammar.Derivation
import InfixAlgebra.Proofs.Number.Lawful
import Mathlib.Data.List.SplitBy
import Mathlib.Data.List.TakeWhile

/-!
# Texts and tokens

Written tokens are read as these tokens (`Token.ofText_flatMap_chars`), provided that no two
operands are juxtaposed, that numbers are plain and that symbols have valid names.
-/

namespace InfixAlgebra

/-! ## Characters -/

namespace Text

theorem isNumeric_iff {c : Char} :
    isNumeric c = true ↔ 48 ≤ c.toNat ∧ c.toNat ≤ 57 ∨ c.toNat = 46 := by
  simp only [isNumeric, Char.isDigit, Bool.or_eq_true, Bool.and_eq_true, decide_eq_true_eq,
    beq_iff_eq, ge_iff_le, UInt32.le_iff_toNat_le, ← Char.toNat_inj]
  rfl

theorem isAlpha_iff {c : Char} :
    c.isAlpha = true ↔ 65 ≤ c.toNat ∧ c.toNat ≤ 90 ∨ 97 ≤ c.toNat ∧ c.toNat ≤ 122 := by
  show (decide (_ ∧ _) || _ && _) = true ↔ _
  simp only [Bool.or_eq_true, Bool.and_eq_true, decide_eq_true_eq, ge_iff_le,
    UInt32.le_iff_toNat_le]
  rfl

/-- The visible characters of ASCII are not blank. -/
theorem isBlank_eq_false {c : Char} (h : 33 ≤ c.toNat ∧ c.toNat ≤ 126) : isBlank c = false := by
  simp [isBlank]
  omega

theorem isBlank_of_isNumeric {c : Char} (h : isNumeric c = true) : isBlank c = false := by
  rw [isNumeric_iff] at h
  exact isBlank_eq_false (by omega)

theorem isBlank_of_isAlpha {c : Char} (h : c.isAlpha = true) : isBlank c = false := by
  rw [isAlpha_iff] at h
  exact isBlank_eq_false (by omega)

theorem isAlpha_of_isNumeric {c : Char} (h : isNumeric c = true) : c.isAlpha = false := by
  rw [isNumeric_iff] at h
  rw [← Bool.not_eq_true, isAlpha_iff]
  omega

theorem isNumeric_of_isAlpha {c : Char} (h : c.isAlpha = true) : isNumeric c = false := by
  rw [← Bool.not_eq_true]
  intro hn
  rw [isAlpha_of_isNumeric hn] at h
  cases h

/-- A character that is a lexeme by itself. -/
def isSingle (c : Char) : Bool := !isNumeric c && !c.isAlpha

theorem isSingle_iff {c : Char} : isSingle c = true ↔ isNumeric c = false ∧ c.isAlpha = false := by
  rw [isSingle, Bool.and_eq_true, Bool.not_eq_true', Bool.not_eq_true']

theorem joined_of_isSingle_left {a : Char} (h : isSingle a = true) (b : Char) :
    joined a b = false := by
  rw [isSingle_iff] at h
  rw [joined, h.1, h.2]
  rfl

theorem joined_comm (a b : Char) : joined a b = joined b a := by
  rw [joined, joined, Bool.and_comm, Bool.and_comm a.isAlpha]

theorem joined_of_isSingle_right {b : Char} (h : isSingle b = true) (a : Char) :
    joined a b = false := by
  rw [joined_comm, joined_of_isSingle_left h]

theorem joined_of_isNumeric_left {a : Char} (h : isNumeric a = true) (b : Char) :
    joined a b = isNumeric b := by
  rw [joined, h, isAlpha_of_isNumeric h, Bool.true_and, Bool.false_and, Bool.or_false]

theorem joined_of_isAlpha_left {a : Char} (h : a.isAlpha = true) (b : Char) :
    joined a b = b.isAlpha := by
  rw [joined, h, isNumeric_of_isAlpha h, Bool.true_and, Bool.false_and, Bool.false_or]

/-- The characters of a class are joined if its characters join exactly each other. -/
theorem isChain_joined_of_class {p : Char → Bool} (hp : ∀ a, p a = true → ∀ b, joined a b = p b)
    {cs : List Char} (h : ∀ c ∈ cs, p c = true) : cs.IsChain fun a b => joined a b = true := by
  refine (List.pairwise_of_forall_mem_list fun a ha b hb => ?_).isChain
  rw [hp a (h a ha), h b hb]

/-- A text that does not begin or end with a blank is trimmed already. -/
theorem trim_eq_self {cs : List Char} (h : ∀ c ∈ cs, isBlank c = false) : trim cs = cs := by
  have hd {ds : List Char} (hds : ∀ c ∈ ds, isBlank c = false) : ds.dropWhile isBlank = ds := by
    cases ds with
    | nil => rfl
    | cons c ds => rw [List.dropWhile_cons, hds c List.mem_cons_self, if_neg Bool.false_ne_true]
  rw [trim, hd h, hd fun c hc => h c (List.mem_reverse.1 hc), List.reverse_reverse]

end Text

/-! ## Written tokens -/

theorem not_juxtaposed_iff {α : Type u} {ts : List (Token α)} :
    ¬ Juxtaposed ts ↔
      ts.IsChain fun a b => ¬ (a.endsOperand = true ∧ b.startsOperand = true) := by
  rw [List.isChain_iff_forall_rel_of_append_cons_cons]
  constructor
  · exact fun h a b before after hts hab => h ⟨before, a, b, after, hts, hab⟩
  · exact fun h ⟨before, a, b, after, hts, hab⟩ => h hts hab

namespace Token

variable {α : Type u}

/-- A number or a symbol. -/
def isWord : Token α → Bool
  | .number _ | .symbol _ => true
  | _ => false

def isNumber : Token α → Bool
  | .number _ => true
  | _ => false

theorem isWord_of_isNumber {t : Token α} (h : t.isNumber = true) : t.isWord = true := by
  cases t <;> first | rfl | cases h

theorem endsOperand_of_isWord {t : Token α} (h : t.isWord = true) : t.endsOperand = true := by
  cases t <;> first | rfl | cases h

theorem startsOperand_of_isWord {t : Token α} (h : t.isWord = true) : t.startsOperand = true := by
  cases t <;> first | rfl | cases h

variable [Numeric α]

/-- How a token is written. -/
def chars : Token α → List Char
  | .number x => Numeric.chars x
  | .symbol s => s.name.toList
  | .operator op => [op.char]
  | .opening => ['(']
  | .closing => [')']

/-- A token other than a number or a symbol is a lexeme of one character. -/
theorem exists_chars_of_not_isWord {t : Token α} (h : t.isWord = false) :
    ∃ c, t.chars = [c] ∧ Text.isSingle c = true ∧ Text.isBlank c = false := by
  cases t with
  | number x => cases h
  | symbol s => cases h
  | operator op => exact ⟨op.char, rfl, by cases op <;> decide, by cases op <;> decide⟩
  | opening => exact ⟨'(', rfl, by decide, by decide⟩
  | closing => exact ⟨')', rfl, by decide, by decide⟩

variable [SignBit α]

/-- A token that a text can have. -/
def IsReadable : Token α → Prop
  | .number x => IsPlain x
  | .symbol s => Symbol.IsName s.name
  | _ => True

variable [BEq α] [LawfulNumeric α]

namespace IsReadable

variable {t u : Token α} {ts : List (Token α)}

theorem chars_ne_nil (h : t.IsReadable) : t.chars ≠ [] := by
  cases t with
  | number x => exact LawfulNumeric.chars_ne_nil h
  | symbol s => exact h.1
  | _ => exact List.cons_ne_nil _ _

theorem isChain_chars (h : t.IsReadable) :
    t.chars.IsChain fun a b => Text.joined a b = true := by
  cases t with
  | number x =>
    exact Text.isChain_joined_of_class (fun _ => Text.joined_of_isNumeric_left)
      fun c => LawfulNumeric.isNumeric_of_mem_chars h
  | symbol s => exact Text.isChain_joined_of_class (fun _ => Text.joined_of_isAlpha_left) h.2
  | _ => exact List.isChain_singleton _

theorem isBlank_of_mem_chars (h : t.IsReadable) {c : Char} (hc : c ∈ t.chars) :
    Text.isBlank c = false := by
  cases hw : t.isWord with
  | false =>
    obtain ⟨d, hd, -, hb⟩ := exists_chars_of_not_isWord hw
    rw [hd, List.mem_singleton] at hc
    rw [hc, hb]
  | true =>
    cases t with
    | number x => exact Text.isBlank_of_isNumeric (LawfulNumeric.isNumeric_of_mem_chars h hc)
    | symbol s => exact Text.isBlank_of_isAlpha (h.2 c hc)
    | _ => cases hw

/-- Neighbouring tokens are different lexemes unless both are numbers or symbols. -/
theorem joined_eq_false (ht : t.IsReadable) (hu : u.IsReadable)
    (h : ¬ (t.endsOperand = true ∧ u.startsOperand = true)) :
    ∃ ha hb, Text.joined (t.chars.getLast ha) (u.chars.head hb) = false := by
  refine ⟨ht.chars_ne_nil, hu.chars_ne_nil, ?_⟩
  cases hw : t.isWord with
  | false =>
    obtain ⟨c, hc, hs, -⟩ := exists_chars_of_not_isWord hw
    simp only [hc, List.getLast_singleton]
    exact Text.joined_of_isSingle_left hs _
  | true =>
    cases hw' : u.isWord with
    | false =>
      obtain ⟨c, hc, hs, -⟩ := exists_chars_of_not_isWord hw'
      simp only [hc, List.head_cons]
      exact Text.joined_of_isSingle_right hs _
    | true => exact absurd ⟨endsOperand_of_isWord hw, startsOperand_of_isWord hw'⟩ h

theorem finite?_chars {x : α} (h : IsPlain x) : finite? (Numeric.chars x) = some x := by
  rw [finite?, LawfulNumeric.ofChars?_chars h, Option.filter_some, if_pos h.1]

/-- A written token is read unless it is a symbol right after a number. -/
theorem ofLexemes_cons (h : t.IsReadable) {afterNumber : Bool}
    (hn : afterNumber = true → t.isWord = false) (done : List (Token α))
    (rest : List (List Char)) :
    ofLexemes done afterNumber (t.chars :: rest) = ofLexemes (t :: done) t.isNumber rest := by
  obtain ⟨c, cs, hc⟩ := List.exists_cons_of_ne_nil h.chars_ne_nil
  have hm : c ∈ t.chars := by
    rw [hc]
    exact List.mem_cons_self
  rw [hc, ofLexemes, h.isBlank_of_mem_chars hm, if_neg Bool.false_ne_true]
  cases t with
  | number x =>
    rw [if_pos (LawfulNumeric.isNumeric_of_mem_chars h hm), ← hc]
    simp only [chars, finite?_chars h]
    rfl
  | symbol s =>
    have ha := h.2 c hm
    have hf : afterNumber = false := Bool.eq_false_iff.2 fun ht => nomatch hn ht
    have hs : Symbol.ofName (String.ofList (c :: cs)) = .ok s := by
      rw [← hc, chars, String.ofList_toList]
      exact Symbol.ofName_eq_ok_iff.2 ⟨h, rfl⟩
    rw [Text.isNumeric_of_isAlpha ha, if_neg Bool.false_ne_true, if_pos ha, hs, hf]
    rfl
  | operator op =>
    obtain ⟨rfl, rfl⟩ := List.cons.inj hc
    cases op <;> rfl
  | opening =>
    obtain ⟨rfl, rfl⟩ := List.cons.inj hc
    rfl
  | closing =>
    obtain ⟨rfl, rfl⟩ := List.cons.inj hc
    rfl

theorem ofLexemes_map_chars (h : ∀ t ∈ ts, t.IsReadable) (hj : ¬ Juxtaposed ts)
    {afterNumber : Bool} (hn : afterNumber = true → ∀ t ∈ ts.head?, t.isWord = false)
    (done : List (Token α)) :
    ofLexemes done afterNumber (ts.map chars) = .ok (done.reverse ++ ts) := by
  induction ts generalizing done afterNumber with
  | nil =>
    rw [List.append_nil]
    rfl
  | cons t ts ih =>
    rw [List.forall_mem_cons] at h
    rw [not_juxtaposed_iff, List.isChain_cons, ← not_juxtaposed_iff] at hj
    rw [List.map_cons, h.1.ofLexemes_cons fun ha => hn ha t rfl, ih h.2 hj.2,
      List.reverse_cons, List.append_assoc, List.singleton_append]
    intro ht u hu
    rw [← Bool.not_eq_true]
    intro hw
    exact hj.1 u hu ⟨endsOperand_of_isWord (isWord_of_isNumber ht), startsOperand_of_isWord hw⟩

/-- Every written token is a lexeme. -/
theorem lexemes_flatMap_chars (h : ∀ t ∈ ts, t.IsReadable) (hj : ¬ Juxtaposed ts) :
    Text.lexemes (ts.flatMap chars) = ts.map chars := by
  rw [List.flatMap_def, Text.lexemes]
  refine List.splitBy_flatten ?_ ?_ ?_
  · rw [List.mem_map]
    exact fun ⟨t, ht, he⟩ => (h t ht).chars_ne_nil he
  · rw [List.forall_mem_map]
    exact fun t ht => (h t ht).isChain_chars
  · rw [List.isChain_map]
    exact (not_juxtaposed_iff.1 hj).imp_of_mem_imp fun t u ht hu =>
      joined_eq_false (h t ht) (h u hu)

end IsReadable

/-- Written tokens are read as these tokens. -/
theorem ofText_flatMap_chars {ts : List (Token α)} (h : ∀ t ∈ ts, t.IsReadable)
    (hj : ¬ Juxtaposed ts) : ofText (String.ofList (ts.flatMap chars)) = .ok ts := by
  have hb : ∀ c ∈ ts.flatMap chars, Text.isBlank c = false := by
    intro c hc
    obtain ⟨t, ht, hc⟩ := List.mem_flatMap.1 hc
    exact (h t ht).isBlank_of_mem_chars hc
  rw [ofText, String.toList_ofList, Text.trim_eq_self hb, IsReadable.lexemes_flatMap_chars h hj]
  exact IsReadable.ofLexemes_map_chars h hj (fun ha => absurd ha Bool.false_ne_true) []

end Token

end InfixAlgebra
