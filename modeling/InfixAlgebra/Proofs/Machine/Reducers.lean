import InfixAlgebra.Proofs.Machine.Simulation

/-!
# What the machine reduces

The loops of the machine reduce pending entries only after they have told them from an opening
parenthesis.  So they never ask to reduce one: with any `Reducer` that combines branches as
`Machine.reduce` does, whatever it does with an opening parenthesis, the loops build the same trees
and stop at the same faults, with the same reductions made (`Reducer.Agrees.buildBy_eq`).
-/

namespace InfixAlgebra.Reducer

open Machine

variable {α : Type u} {f : Reducer α}

/-- Operators are reduced as the machine reduces them. -/
def Agrees (f : Reducer α) : Prop := ∀ m p, p ≠ .opening → f m p = m.reduce p

/-- Reduces operators as the machine does, and takes an opening parenthesis for an invalid name. -/
def blaming : Reducer α
  | m, .opening => m.halt (.invalidName "(")
  | m, p => m.reduce p

theorem agrees_blaming : (blaming : Reducer α).Agrees := by
  intro m p hp
  cases p with
  | opening => exact absurd rfl hp
  | negation | binary => rfl

namespace Agrees

/-! ## The three loops -/

theorem reduceToOpening_eq (hf : f.Agrees) (m : Machine α) (ps : List Pending) :
    m.reduceToOpening f ps = m.reduceToOpening reduce ps := by
  induction ps generalizing m with
  | nil => rfl
  | cons p ps ih =>
    by_cases hp : p = .opening
    · rw [hp]
      rfl
    · rw [reduceToOpening_cons f m hp, reduceToOpening_cons reduce m hp, hf m p hp, funext ih]

/-- An opening parenthesis takes precedence over nothing. -/
theorem reducePreceding_eq (hf : f.Agrees) (m : Machine α) (op : Operator) (ps : List Pending) :
    m.reducePreceding f op ps = m.reducePreceding reduce op ps := by
  induction ps generalizing m with
  | nil => rfl
  | cons p ps ih =>
    by_cases hp : p.precedes op = true
    · have ho : p ≠ .opening := by
        rintro rfl
        cases hp
      have hl := Pending.precedes_iff.1 hp
      rw [reducePreceding_cons f m hl, reducePreceding_cons reduce m hl, hf m p ho, funext ih]
    · rw [reducePreceding, reducePreceding, if_neg hp, if_neg hp]

theorem reduceAll_eq (hf : f.Agrees) (m : Machine α) (ps : List Pending) :
    m.reduceAll f ps = m.reduceAll reduce ps := by
  induction ps generalizing m with
  | nil => rfl
  | cons p ps ih =>
    by_cases hp : p = .opening
    · rw [hp]
      rfl
    · rw [reduceAll_cons f m hp, reduceAll_cons reduce m hp, hf m p hp, funext ih]

/-! ## What calls them -/

theorem take_eq (hf : f.Agrees) (m : Machine α) (t : Token α) : m.take f t = m.take reduce t := by
  cases t with
  | operator op =>
    show m.takeOperator f op = m.takeOperator reduce op
    rw [takeOperator, takeOperator, hf.reducePreceding_eq]
  | closing => rw [take, take, hf.reduceToOpening_eq]
  | number | symbol | opening => rfl

theorem run_eq (hf : f.Agrees) (m : Machine α) (ts : List (Token α)) :
    m.run f ts = m.run reduce ts := by
  induction ts generalizing m with
  | nil => rfl
  | cons t ts ih =>
    rw [run_cons, run_cons, hf.take_eq]
    exact congrArg _ (funext fun m' => ih _)

theorem finish_eq (hf : f.Agrees) (m : Machine α) : m.finish f = m.finish reduce := by
  rw [finish, finish, hf.reduceAll_eq]

/-- Whatever is done with an opening parenthesis that is to be reduced, it is never done. -/
theorem buildBy_eq (hf : f.Agrees) (ts : List (Token α)) : buildBy f ts = build ts := by
  rw [build_eq_bind, buildBy_eq_bind, hf.run_eq, funext hf.finish_eq]

end Agrees

end InfixAlgebra.Reducer
