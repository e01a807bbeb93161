import InfixAlgebra.Proofs.Parse.Grammar
import InfixAlgebra.Proofs.Token.Faults
import Mathlib.Data.List.Nodup

/-!
# What is reported about a text

If a text has lexical faults, the leftmost one is reported, whatever else is wrong with the text;
otherwise no lexical fault is reported (`parse_of_lexicalFault`).  Nothing but faults of reading
is ever reported (`kind_of_parse_error`).
-/

namespace InfixAlgebra

/-! ## Messages -/

namespace Machine

variable {fault other : Fault}

/-- The faults of the machine are reported in different words. -/
theorem eq_of_message_eq (hf : fault ∈ faults) (ho : other ∈ faults)
    (h : fault.message = other.message) : fault = other := by
  have hn : (faults.map Fault.message).Nodup := by decide
  exact List.inj_on_of_nodup_map hn hf ho h

/-- The faults of the machine are not reported as lexical ones are. -/
theorem message_ne (h : fault ∈ faults) (s : String) :
    fault.message ≠ "invalid number " ++ s ∧
      fault.message ≠ "malformed expression, how to parse the beginning of " ++ s := by
  have hall : ∀ f ∈ faults, ¬ "invalid number ".toList <+: f.message.toList ∧
      ¬ "malformed expression, how to parse the beginning of ".toList <+: f.message.toList := by
    decide
  refine ⟨fun hs => (hall fault h).1 ?_, fun hs => (hall fault h).2 ?_⟩
  · rw [hs, String.toList_append]
    exact List.prefix_append _ _
  · rw [hs, String.toList_append]
    exact List.prefix_append _ _

end Machine

/-! ## Faults of texts -/

namespace Expr

variable {α : Type u} [Numeric α] {text : String} {fault : Fault}

theorem parse_of_ofText_error
    (h : (Token.ofText text : Except Fault (List (Token α))) = .error fault) :
    (parse text : Except Fault (Expr α)) = .error fault := by
  rw [parse, read, h]

/-- Whatever is reported about a text is a fault of reading. -/
theorem kind_of_parse_error (h : (parse text : Except Fault (Expr α)) = .error fault) :
    fault.kind = .reading := by
  cases ht : (Token.ofText text : Except Fault (List (Token α))) with
  | ok ts => exact (isDueTo_of_parse_error ht h).kind
  | error other =>
    rw [parse_of_ofText_error ht] at h
    obtain ⟨before, l, after, -, hf⟩ := Token.exists_faulty_of_ofText ht
    exact Except.error.inj h ▸ hf.kind

/-- A text that is refused with the words of a fault of the machine has tokens, and the fault is due
to them. -/
theorem exists_isDueTo_of_message_eq {other : Fault} (ho : other ∈ Machine.faults)
    (h : (parse text : Except Fault (Expr α)) = .error fault)
    (hm : fault.message = other.message) :
    ∃ ts : List (Token α), Token.ofText text = .ok ts ∧ other.IsDueTo ts := by
  cases ht : (Token.ofText text : Except Fault (List (Token α))) with
  | ok ts =>
    have hd := isDueTo_of_parse_error ht h
    obtain rfl := Machine.eq_of_message_eq hd.mem_faults ho hm
    exact ⟨ts, rfl, hd⟩
  | error first =>
    rw [parse_of_ofText_error ht] at h
    obtain rfl := Except.error.inj h
    obtain ⟨before, l, after, -, hf⟩ := Token.exists_faulty_of_ofText ht
    cases hf with
    | number _ _ => exact absurd hm.symm (Machine.message_ne ho _).1
    | character _ => exact absurd hm.symm (Machine.message_ne ho _).2

variable [DecimalNumeric α]

/-- The leftmost lexical fault of a text is reported, with the whole run or all that follows it;
without lexical faults neither is. -/
theorem parse_of_lexicalFault (text : String) :
    (∀ n fault, FirstLexicalFault α (Text.trim text.toList) n fault →
      (parse text : Except Fault (Expr α)) = .error fault) ∧
    ((∃ n fault, LexicalFault α (Text.trim text.toList) n fault) →
      ∃ n fault, FirstLexicalFault α (Text.trim text.toList) n fault) ∧
    ((∀ run, (Fault.invalidNumber run).report = ⟨.reading, "invalid number " ++ run⟩) ∧
      ∀ rest, (Fault.unreadable rest).report =
        ⟨.reading, "malformed expression, how to parse the beginning of " ++ rest⟩) ∧
    ((∀ n fault, ¬ LexicalFault α (Text.trim text.toList) n fault) →
      ∀ fault, (parse text : Except Fault (Expr α)) = .error fault → ∀ s : String,
        fault.message ≠ "invalid number " ++ s ∧
        fault.message ≠ "malformed expression, how to parse the beginning of " ++ s) := by
  refine ⟨fun n fault h => ?_, ?_, ⟨fun run => ?_, fun rest => ?_⟩, fun hn fault h s => ?_⟩
  · exact parse_of_ofText_error (Token.ofText_eq_error_iff.2 ⟨n, h⟩)
  · rintro ⟨n, fault, h⟩
    exact exists_firstLexicalFault h
  · rfl
  · rfl
  · obtain ⟨ts, ht⟩ := Token.exists_ofText_of_not_lexicalFault hn
    exact Machine.message_ne (isDueTo_of_parse_error ht h).mem_faults s

theorem parse_invalid_between_faults :
    FirstLexicalFault Float (Text.trim ")x + 1.2.3 % 4..".toList) 5 (.invalidNumber "1.2.3") ∧
      (parse ")x + 1.2.3 % 4.." : Except Fault (Expr Float)) = .error (.invalidNumber "1.2.3") := by
  have ht : Text.trim ")x + 1.2.3 % 4..".toList =
    ")x + ".toList ++ "1.2.3".toList ++ " % 4..".toList := rfl
  have hl : LexicalFault Float (Text.trim ")x + 1.2.3 % 4..".toList) 5 (.invalidNumber "1.2.3") := by
    refine .number ht (by decide) ?_ ?_ (.inr (.inl (by decide)))
    · rintro c ⟨⟩
      rfl
    · rintro c ⟨⟩
      rfl
  have hf := hl.first (by decide)
  exact ⟨hf, (parse_of_lexicalFault _).1 5 _ hf⟩

end Expr

end InfixAlgebra
