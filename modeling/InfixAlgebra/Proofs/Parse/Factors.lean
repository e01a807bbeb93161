import InfixAlgebra.Proofs.Parse.Blanks

/-!
# Names that follow numbers

A name that directly follows a number is multiplied with it.  The two have the same tokens with and
without a `*` between them (`Token.ofText_append_factor`), so a text is read alike with the sign and
without it, whatever stands around that place (`readAlike_of_factor`).
-/

namespace InfixAlgebra

namespace Token

variable {α : Type u} [Numeric α] {afterNumber : Bool} {l : List Char} {ls : List (List Char)}
  {us ts : List (Token α)}

/-- A lexeme that begins with a letter is a name, and right after a number it is a factor. -/
theorem TokensOf.exists_name (h : TokensOf afterNumber l us)
    (hl : ∃ c ∈ l.head?, c.isAlpha = true) :
    ∃ s : Symbol, Symbol.IsName s.name ∧ l = s.name.toList ∧
      us = (if afterNumber then [.operator .mul] else []) ++ [.symbol s] := by
  obtain ⟨c, hc, ha⟩ := hl
  cases h with
  | blank hb =>
    obtain rfl := Option.some.inj hc
    rw [Text.isBlank_of_isAlpha ha] at hb
    cases hb
  | number hr _ =>
    have hn := (Text.isNumber_iff.1 hr).2 c (List.mem_of_mem_head? hc)
    rw [Text.isNumeric_of_isAlpha ha] at hn
    cases hn
  | symbol hs => exact ⟨_, hs, rfl, rfl⟩
  | factor hs => exact ⟨_, hs, rfl, rfl⟩
  | other ht =>
    obtain ⟨d, hd, hs, -⟩ := exists_chars_of_not_isWord ht
    rw [hd] at hc
    obtain rfl := Option.some.inj hc
    rw [(Text.isSingle_iff.1 hs).2] at ha
    cases ha

/-- Right after a number, lexemes that begin with a letter have a multiplication before the tokens
that they have elsewhere. -/
theorem tokensOfAll_true_iff (hl : ∃ c ∈ ls.flatten.head?, c.isAlpha = true) :
    TokensOfAll true ls ts ↔ ∃ us, ts = .operator .mul :: us ∧ TokensOfAll false ls us := by
  have hhead {b : Bool} {l : List Char} {ls : List (List Char)} {us : List (Token α)}
      (hu : TokensOf b l us) (hl : ∃ c ∈ (l :: ls).flatten.head?, c.isAlpha = true) :
      ∃ c ∈ l.head?, c.isAlpha = true := by
    rwa [List.flatten_cons, List.head?_append_of_ne_nil _ hu.ne_nil] at hl
  constructor
  · intro h
    cases h with
    | nil => simp at hl
    | cons hu h =>
      obtain ⟨s, hs, rfl, rfl⟩ := hu.exists_name (hhead hu hl)
      exact ⟨[.symbol s] ++ _, rfl, .cons (.symbol hs) h⟩
  · rintro ⟨us, rfl, h⟩
    cases h with
    | nil => simp at hl
    | cons hu h =>
      obtain ⟨s, hs, rfl, rfl⟩ := hu.exists_name (hhead hu hl)
      exact .cons (.factor hs) h

/-- A text that ends with a number and one that begins with a name have the same tokens with and
without a `*` between them. -/
theorem ofText_append_factor {u v : String}
    (hu : ∃ c ∈ u.toList.getLast?, Text.isNumeric c = true)
    (hv : ∃ c ∈ v.toList.head?, c.isAlpha = true) :
    ofText (u ++ v) = .ok ts ↔ ofText (u ++ "*" ++ v) = .ok ts := by
  have hj : ∀ a ∈ u.toList.getLast?, ∀ b ∈ v.toList.head?, Text.joined a b = false := by
    obtain ⟨c, hc, hn⟩ := hu
    obtain ⟨d, hd, ha⟩ := hv
    intro a ha' b hb
    obtain rfl := Option.mem_unique hc ha'
    obtain rfl := Option.mem_unique hd hb
    rw [Text.joined_of_isNumeric_left hn, Text.isNumeric_of_isAlpha ha]
  have he : endsNumber false (Text.lexemes u.toList) = true := by
    rw [endsNumber_lexemes, Option.any_eq_true]
    exact hu
  have hv' : ∃ c ∈ (Text.lexemes v.toList).flatten.head?, c.isAlpha = true := by
    rw [Text.flatten_lexemes]
    exact hv
  have hl : Text.lexemes (u ++ "*" ++ v).toList =
      Text.lexemes u.toList ++ (Token.operator .mul : Token α).chars :: Text.lexemes v.toList := by
    have hs : Text.isSingle '*' = true := by decide
    rw [String.toList_append, String.toList_append, List.append_assoc]
    exact Text.lexemes_append_cons hs _ _
  rw [ofText_eq_ok_iff, ofText_eq_ok_iff, hl, tokensOfAll_append_other_iff rfl,
    String.toList_append, Text.lexemes_append hj, tokensOfAll_append_iff, he]
  simp only [tokensOfAll_true_iff hv']
  constructor
  · rintro ⟨us, _, rfl, hu, vs, rfl, hv⟩
    exact ⟨us, vs, rfl, hu, hv⟩
  · rintro ⟨us, vs, rfl, hu, hv⟩
    exact ⟨us, _, rfl, hu, vs, rfl, hv⟩

end Token

namespace Expr

open Text

variable {α : Type u} [Numeric α] {u v : String}

/-- Where a name directly follows a number, the text is read as if there were a `*` between them. -/
theorem readAlike_of_factor (hu : ∃ c ∈ u.toList.getLast?, isNumeric c = true)
    (hv : ∃ c ∈ v.toList.head?, c.isAlpha = true) : ReadAlike α (u ++ v) (u ++ "*" ++ v) :=
  readAlike_of_ofText fun _ => Token.ofText_append_factor hu hv

theorem readAlike_divided_by_factor :
    ReadAlike Float ("y/-2." ++ "x^2") ("y/-2." ++ "*" ++ "x^2") ∧
      (parse "y/-2.x^2" : Except Fault (Expr Float)).isOk = true := by
  have hu : ∃ c ∈ "y/-2.".toList.getLast?, isNumeric c = true := ⟨'.', rfl, by decide⟩
  have hv : ∃ c ∈ "x^2".toList.head?, c.isAlpha = true := ⟨'x', rfl, by decide⟩
  exact ⟨readAlike_of_factor hu hv, by decide +kernel⟩

end Expr

end InfixAlgebra
