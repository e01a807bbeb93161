import InfixAlgebra.Datum.Codec
import InfixAlgebra.Proofs.Machine.Reducers
import InfixAlgebra.Proofs.Parse.Faults

/-!
# What a text can be refused for

A text is read as an expression, or refused for a fault of reading (`Expr.refusals_of_text`).  The
faults of other kinds that reading might meet on its way are out of reach: every run of letters is a
name, and the machine never reduces an opening parenthesis.

A stored expression is refused in the words of the fault only.  They begin differently for each kind
of fault (`Fault.Kind.leads`), so the kind can still be told (`Fault.kind_eq_of_message_eq`).
-/

namespace InfixAlgebra

namespace Fault

/-! ## How messages begin -/

/-- How the messages of the faults of a kind begin. -/
def Kind.leads : Kind → List String
  | .construction => ["unknown operator ", "invalid symbol name ", "an expression with", "only "]
  | .reading => ["invalid number ", "malformed expression", "mismatched parentheses"]
  | .operand => ["cannot ", "index ", "could not "]

/-- A message begins like one of a kind. -/
def IsLed (k : Kind) (message : String) : Prop := ∃ lead ∈ k.leads, lead.toList <+: message.toList

instance (k : Kind) (message : String) : Decidable (IsLed k message) :=
  inferInstanceAs (Decidable (∃ lead ∈ k.leads, lead.toList <+: message.toList))

namespace IsLed

variable {k k' : Kind} {s : String}

theorem append (h : IsLed k s) (t : String) : IsLed k (s ++ t) := by
  obtain ⟨lead, hl, hs⟩ := h
  refine ⟨lead, hl, ?_⟩
  rw [String.toList_append]
  exact List.prefix_append_of_prefix hs

/-- No message begins like those of two kinds, since no lead of one kind begins one of another. -/
theorem unique (h : IsLed k s) (h' : IsLed k' s) : k = k' := by
  have hne {k k' : Kind} (hk : k ≠ k') :
      ∀ lead ∈ k.leads, ∀ lead' ∈ k'.leads, ¬ lead.toList <+: lead'.toList := by
    cases k <;> cases k' <;> first | exact absurd rfl hk | decide
  obtain ⟨lead, hl, hs⟩ := h
  obtain ⟨lead', hl', hs'⟩ := h'
  by_contra hk
  rcases List.prefix_or_prefix_of_prefix hs hs' with hp | hp
  · exact hne hk lead hl lead' hl' hp
  · exact hne (Ne.symm hk) lead' hl' lead hl hp

end IsLed

theorem isLed_message (fault : Fault) : IsLed fault.kind fault.message := by
  cases fault with
  | unknownOperator text =>
    have h : IsLed .construction "unknown operator " := by decide
    exact h.append text
  | invalidName name =>
    have h : IsLed .construction "invalid symbol name '" := by decide
    exact (h.append name).append "'"
  | noOperands op =>
    have h : IsLed .construction "an expression with the operator " := by decide
    exact (h.append op.text).append " as value must have operands"
  | singleOperand op =>
    have h : IsLed .construction "only " := by decide
    exact ((h.append _).append " can be unary, not ").append op.text
  | invalidNumber run =>
    have h : IsLed .reading "invalid number " := by decide
    exact h.append run
  | unreadable rest =>
    have h : IsLed .reading "malformed expression, how to parse the beginning of " := by decide
    exact h.append rest
  | nothingOnLeft op =>
    have h : IsLed .reading "malformed expression, " := by decide
    exact (h.append op.text).append " cannot be unary"
  | tooDeep limit =>
    have h : IsLed .reading "malformed expression, nested deeper than " := by decide
    exact (h.append _).append " levels"
  | operandsOfTerminal | emptyText | emptyParens | mismatchedParens | malformed => decide
  | appendToTerminal terminal =>
    have h : IsLed .operand "cannot add operands to terminal " := by decide
    exact h.append terminal
  | removeFromTerminal terminal =>
    have h : IsLed .operand "cannot remove operands from terminal " := by decide
    exact h.append terminal
  | indexOutOfRange index count =>
    have h : IsLed .operand "index " := by decide
    exact (((h.append _).append " out of range for ").append _).append " operands"
  | tooFewOperands op count =>
    have h : IsLed .operand "cannot remove an operand of operator " := by decide
    exact (((h.append op.text).append " with ").append _).append " operands"
  | unresolved expr =>
    have h : IsLed .operand "could not resolve " := by decide
    exact (h.append expr).append " to a number"

/-- Faults of different kinds are reported in different words. -/
theorem kind_eq_of_message_eq {fault other : Fault} (h : fault.message = other.message) :
    fault.kind = other.kind :=
  (isLed_message fault).unique (h ▸ isLed_message other)

end Fault

/-! ## Refused texts -/

/-- A run of letters that a text is cut into is a name. -/
theorem Symbol.exists_ofName_of_mem_lexemes {cs run : List Char} (h : run ∈ Text.lexemes cs)
    (hc : ∃ c ∈ run.head?, c.isAlpha = true) : ∃ s, Symbol.ofName (String.ofList run) = .ok s := by
  obtain ⟨c, hr, hc⟩ := hc
  obtain ⟨rest, rfl⟩ := List.head?_eq_some_iff.1 hr
  have hn : Symbol.IsName (String.ofList (c :: rest)) := by
    rw [Symbol.IsName, String.toList_ofList]
    exact Text.isName_iff.1 (Text.isName_of_mem_lexemes h hc)
  exact ⟨_, Symbol.ofName_eq_ok_iff.2 ⟨hn, rfl⟩⟩

namespace Expr

variable {α : Type u} [Numeric α]

/-- A text is read or refused for a fault of reading, also from a datum; its names are valid, and no
opening parenthesis is ever reduced. -/
theorem refusals_of_text (text : String) :
    ((∃ e, (parse text : Except Fault (Expr α)) = .ok e) ∨
      ∃ fault, (parse text : Except Fault (Expr α)) = .error fault ∧ fault.kind = .reading) ∧
    ((∃ e, (codec.read (.string text) : Except Refusal (Expr α)) = .ok e) ∨
      ∃ refusal, (codec.read (.string text) : Except Refusal (Expr α)) = .error refusal ∧
        (∃ fault : Fault, refusal.message = "Parse error - " ++ fault.message) ∧
        ∀ fault : Fault, refusal.message = "Parse error - " ++ fault.message →
          fault.kind = .reading) ∧
    (∀ run ∈ Text.lexemes (Text.trim text.toList), (∃ c ∈ run.head?, c.isAlpha = true) →
      ∃ s, Symbol.ofName (String.ofList run) = .ok s) ∧
    ∀ f : Reducer α, f.Agrees → ∀ ts : List (Token α), Machine.buildBy f ts = Machine.build ts := by
  have hp : (∃ e, (parse text : Except Fault (Expr α)) = .ok e) ∨
      ∃ fault, (parse text : Except Fault (Expr α)) = .error fault ∧ fault.kind = .reading := by
    cases h : (parse text : Except Fault (Expr α)) with
    | ok e => exact .inl ⟨e, rfl⟩
    | error fault => exact .inr ⟨fault, rfl, kind_of_parse_error h⟩
  refine ⟨hp, ?_, fun run h => Symbol.exists_ofName_of_mem_lexemes h, fun f hf => hf.buildBy_eq⟩
  rcases hp with ⟨e, he⟩ | ⟨fault, hf, hk⟩
  · exact .inl ⟨e, Codec.read_string_eq_ok_iff.2 he⟩
  · refine .inr ⟨_, Codec.read_string_eq_error_iff.2 ⟨fault, hf, rfl⟩, ⟨fault, rfl⟩, fun other ho => ?_⟩
    rw [← hk]
    exact Fault.kind_eq_of_message_eq ((String.append_right_inj _).1 ho).symm

theorem refusals_of_unclosed :
    (∃ fault, (parse "y(x" : Except Fault (Expr Float32)) = .error fault ∧
      fault.kind = .reading) ∧
      Machine.buildBy (α := Float32) Reducer.blaming [.symbol ⟨"y"⟩, .opening, .symbol ⟨"x"⟩] =
        .error ⟨.mismatchedParens, []⟩ := by
  have hp : (parse "y(x" : Except Fault (Expr Float32)).isOk = false := by decide +kernel
  obtain ⟨hr, -, -, hb⟩ := refusals_of_text (α := Float32) "y(x"
  refine ⟨hr.resolve_left fun ⟨e, he⟩ => ?_, (hb _ Reducer.agrees_blaming _).trans rfl⟩
  rw [he] at hp
  cases hp

end Expr

end InfixAlgebra
