import InfixAlgebra.Proofs.Number.Floats
import InfixAlgebra.Proofs.Parse.Built
import InfixAlgebra.Proofs.Token.Concatenation

/-!
# Names of symbols

Exactly the texts that name a symbol are read as that symbol (`Symbol.ofName_iff_read`): a name is a
single run of letters, so it is one lexeme and one token, and no symbol that is read has a name that
is not valid.  So every symbol is read back from its name, be it given as an expression or stored.
-/

namespace InfixAlgebra

namespace Token

variable {α : Type u} [Numeric α] {s : Symbol}

/-- A name is a single token. -/
theorem ofText_name (h : Symbol.IsName s.name) :
    ofText s.name = .ok [(.symbol s : Token α)] := by
  have hl : Text.lexemes s.name.toList = [s.name.toList] :=
    List.splitBy_of_isChain h.1
      (Text.isChain_joined_of_class (fun _ => Text.joined_of_isAlpha_left) h.2)
  rw [ofText_eq_ok_iff, hl]
  exact .cons (.symbol h) .nil

end Token

namespace Symbol

variable {α : Type u} [Numeric α] {s : Symbol}

/-- A name is read as its symbol. -/
theorem parse_name (h : IsName s.name) : Expr.parse s.name = .ok (.symbol s : Expr α) := by
  have hb : Machine.build [(.symbol s : Token α)] =
    .ok (⟨[⟨.symbol s, 1⟩], [], some (.symbol s), []⟩, .symbol s) := rfl
  exact Expr.parse_of_build_ok (Token.ofText_name h) hb

/-- The name of a symbol that is read from a text is valid. -/
theorem isName_of_parse {text : String}
    (h : Expr.parse text = .ok (.symbol s : Expr α)) : IsName s.name :=
  (Expr.wellFormed_of_parse h).isName s List.mem_cons_self

/-- A text names a symbol exactly if it is read as that symbol, and exactly if it is stored for one;
writing and storing give the text back. -/
theorem ofName_iff_read (n : String) :
    ((∃ s, ofName n = .ok s) ↔ ∃ s, Expr.parse n = .ok (.symbol s : Expr α) ∧ s.name = n) ∧
    ((∃ s, ofName n = .ok s) ↔ ∃ s, codec.read (.string n) = .ok s) ∧
    ∀ s, ofName n = .ok s →
      s.name = n ∧ toString s = n ∧ codec.write s = .string n ∧ (.symbol s : Expr α).text = n ∧
        codec.read (codec.write s) = .ok s ∧
        Expr.parse (.symbol s : Expr α).text = .ok (.symbol s : Expr α) := by
  have hc (s : Symbol) : codec.read (.string n) = .ok s ↔ ofName n = .ok s :=
    Codec.read_string_eq_ok_iff
  refine ⟨⟨?_, ?_⟩, exists_congr fun s => (hc s).symm, fun s hs => ?_⟩
  · rintro ⟨s, hs⟩
    obtain ⟨hn, rfl⟩ := ofName_eq_ok_iff.1 hs
    exact ⟨⟨n⟩, parse_name hn, rfl⟩
  · rintro ⟨s, hp, rfl⟩
    exact ⟨s, ofName_eq_ok_iff.2 ⟨isName_of_parse hp, rfl⟩⟩
  · have hr := (hc s).2 hs
    obtain ⟨hn, rfl⟩ := ofName_eq_ok_iff.1 hs
    have ht : (.symbol ⟨n⟩ : Expr α).text = n := String.ofList_toList
    refine ⟨rfl, rfl, rfl, ht, hr, ?_⟩
    rw [ht]
    exact parse_name hn

theorem ofName_theta :
    Expr.parse "theta" = .ok (.symbol ⟨"theta"⟩ : Expr Float) ∧
      ¬ ∃ s, Expr.parse "x1" = .ok (.symbol s : Expr Float) ∧ s.name = "x1" := by
  have h : ofName "theta" = .ok ⟨"theta"⟩ := by decide
  constructor
  · obtain ⟨-, -, hs⟩ := ofName_iff_read (α := Float) "theta"
    obtain ⟨-, -, -, ht, -, hp⟩ := hs _ h
    rwa [ht] at hp
  · rw [← (ofName_iff_read "x1").1]
    rintro ⟨s, hs⟩
    have hn := (ofName_eq_ok_iff.1 hs).1
    revert hn
    decide

end Symbol

end InfixAlgebra
