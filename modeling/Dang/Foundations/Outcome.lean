import Mathlib.Data.Nat.Notation
import Mathlib.Tactic.Common

/-!
# Outcomes of a C function

A C function either returns or ends the run: an assertion fails, a null pointer
is followed, or storage is touched that is not live. `Outcome` records which.
Loops without a static bound take a fuel argument, and running out of it is an
outcome of its own, so that a theorem about a result never holds because the
loop was cut short.
-/

namespace Dang

universe u v

/-- The ways a C function ends without returning. -/
inductive Fault
  /-- An `assert` whose condition is false. -/
  | assertion
  /-- A null pointer is dereferenced. -/
  | nullPointer
  /-- Storage is read or written that is freed, or outside its object. -/
  | invalidAccess
  /-- The loop was still running when the fuel ran out. -/
  | outOfFuel
  deriving DecidableEq, Repr

/-- What a call yields: its result, or the fault that ended the run. -/
abbrev Outcome (α : Type u) := Except Fault α

namespace Outcome

variable {α : Type u} {β : Type u}

theorem bind_eq_ok {first : Outcome α} {next : α → Outcome β} {result : β} :
    first >>= next = .ok result ↔ ∃ value, first = .ok value ∧ next value = .ok result := by
  cases first with
  | error fault => simp [bind, Except.bind]
  | ok value => simp [bind, Except.bind]

@[simp]
theorem ok_bind (value : α)
    (next : α → Outcome β) : (.ok value : Outcome α) >>= next = next value :=
  rfl

@[simp]
theorem error_bind (fault : Fault) (next : α → Outcome β) :
    (.error fault : Outcome α) >>= next = .error fault :=
  rfl

theorem eq_ok_getD {α : Type} {outcome : Outcome α} (other : α)
    (success : outcome.toOption.isSome = true) : outcome = .ok (outcome.toOption.getD other) := by
  cases outcome with
  | error fault => contradiction
  | ok value => rfl

/-- For an outcome with a status: the status fixes the outcome up to its second part. -/
theorem eq_ok_snd {α β : Type} {outcome : Outcome (α × β)} (first : α) (other : α × β)
    (success : outcome.toOption.map Prod.fst = some first) :
    outcome = .ok (first, (outcome.toOption.getD other).2) := by
  cases outcome with
  | error fault => cases success
  | ok value => exact congrArg Except.ok (Prod.ext (Option.some.inj success) rfl)

/-- `assert(condition)`. -/
def assertThat (condition : Prop) [Decidable condition] : Outcome Unit :=
  if condition then .ok () else .error .assertion

theorem assertThat_eq_ok {condition : Prop} [Decidable condition] {result : Unit} :
    assertThat condition = .ok result ↔ condition := by
  by_cases holds : condition
  · simp [assertThat, holds]
  · simp [assertThat, holds]

theorem assertThat_of {condition : Prop} [Decidable condition] (holds : condition) :
    (assertThat condition : Outcome Unit) = .ok () :=
  if_pos holds

/-- A program that takes fuel returns the result, given enough fuel. -/
def Returns (program : ℕ → Outcome α) (result : α) : Prop :=
  ∃ enough, ∀ fuel, enough ≤ fuel → program fuel = .ok result

theorem Returns.unique {program : ℕ → Outcome α} {first second : α}
    (returnsFirst : Returns program first) (returnsSecond : Returns program second) :
    first = second := by
  rcases returnsFirst with ⟨enough, firstEq⟩
  rcases returnsSecond with ⟨enough', secondEq⟩
  have atFirst := firstEq (enough + enough') (by omega)
  have atSecond := secondEq (enough + enough') (by omega)
  exact Except.ok.inj (atFirst.symm.trans atSecond)

theorem Returns.exists_fuel {program : ℕ → Outcome α} {result : α}
    (returns : Returns program result) : ∃ fuel, program fuel = .ok result := by
  rcases returns with ⟨enough, always⟩
  exact ⟨enough, always enough (Nat.le_refl _)⟩

end Outcome

end Dang
