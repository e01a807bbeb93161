import InfixAlgebra.Fault

/-!
# Symbols

A symbol stands for an unknown number.  It is known by its name, a nonempty run of letters; names
are compared by their characters.
-/

namespace InfixAlgebra

/-- A variable.  `Symbol.ofName` builds the ones with a valid name. -/
structure Symbol where
  name : String
  deriving DecidableEq

namespace Symbol

/-- A name is at least one letter `a` to `z` or `A` to `Z`, and nothing else. -/
def IsName (name : String) : Prop :=
  name.toList ≠ [] ∧ ∀ c ∈ name.toList, c.isAlpha = true

instance (name : String) : Decidable (IsName name) :=
  have : Decidable (∀ c ∈ name.toList, c.isAlpha = true) := List.decidableBAll _ name.toList
  inferInstanceAs (Decidable (_ ∧ _))

/-- The symbol of a valid name. -/
def ofName (name : String) : Except Fault Symbol :=
  if IsName name then .ok ⟨name⟩ else .error (.invalidName name)

/-- A symbol is written as its name. -/
instance : ToString Symbol := ⟨name⟩

theorem ofName_eq_ok_iff {name : String} {s : Symbol} :
    ofName name = .ok s ↔ IsName name ∧ s = ⟨name⟩ := by
  unfold ofName
  split <;> simp_all [eq_comm]

/-- The different names among some, in the order of their characters. -/
def sortNames (names : List String) : List String :=
  (names.mergeSort fun a b => a ≤ b).eraseReps

end Symbol

end InfixAlgebra
