import Dang.Foundations.Outcome

/-!
# Programs over a state

Computations that pass on a state and may end in a fault.
-/

namespace Dang

/-- A program over a state, which may end in a fault. -/
abbrev Program (σ : Type) (α : Type) := StateT σ Outcome α

namespace Program

variable {σ α β : Type} {source target : σ}

theorem pure_eq_ok {value result : α} :
    (pure value : Program σ α) source = .ok (result, target) ↔ value = result ∧ source = target := by
  constructor
  · intro success
    cases success
    exact ⟨rfl, rfl⟩
  · rintro ⟨rfl, rfl⟩
    rfl

theorem bind_eq_ok {first : Program σ α} {next : α → Program σ β} {result : β} :
    (first >>= next) source = .ok (result, target) ↔
      ∃ value middle, first source = .ok (value, middle) ∧
        next value middle = .ok (result, target) := by
  constructor
  · intro success
    rcases Outcome.bind_eq_ok.mp success with ⟨⟨value, middle⟩, here, later⟩
    exact ⟨value, middle, here, later⟩
  · rintro ⟨value, middle, here, later⟩
    exact Outcome.bind_eq_ok.mpr ⟨(value, middle), here, later⟩

/-- A program for each element, in order. -/
def forEach (body : α → Program σ Unit) : List α → Program σ Unit
  | [] => pure ()
  | first :: rest => do
      body first
      forEach body rest

end Program

end Dang
