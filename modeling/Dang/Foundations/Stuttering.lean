import Dang.Foundations.Run

/-!
# Hidden steps

A machine may take steps that a more abstract one does not know of. Where each hidden step keeps
the states related and each other one is a step of the abstract machine, a run is a run of the
abstract machine without the hidden steps. Where the machine gets through each abstract step with
hidden steps around it, the converse holds.
-/

namespace Dang

variable {State Model Label : Type}

/-- The state that a run ends in. -/
def endOf (start : State) : List (Label × State) → State
  | [] => start
  | (_, target) :: rest => endOf target rest

/-- The labels of the steps of a run that are not hidden. -/
def visibleLabels (hidden : State → Label → Bool) (start : State) :
    List (Label × State) → List Label
  | [] => []
  | (label, target) :: rest =>
      if hidden start label then visibleLabels hidden target rest
      else label :: visibleLabels hidden target rest

@[simp]
theorem endOf_append (start : State) (first second : List (Label × State)) :
    endOf start (first ++ second) = endOf (endOf start first) second := by
  induction first generalizing start with
  | nil => rfl
  | cons head rest ih => exact ih head.2

@[simp]
theorem visibleLabels_append (hidden : State → Label → Bool) (start : State)
    (first second : List (Label × State)) :
    visibleLabels hidden start (first ++ second) =
      visibleLabels hidden start first ++ visibleLabels hidden (endOf start first) second := by
  induction first generalizing start with
  | nil => rfl
  | cons head rest ih =>
      simp only [List.cons_append, visibleLabels, ih, endOf]
      split
      · rfl
      · rfl

namespace IsRun

variable {step : State → Label → State → Prop} {abstractStep : Model → Label → Model → Prop}
  {hidden : State → Label → Bool} {related : State → Model → Prop} {start : State} {model : Model}

/-- A run that goes on from where another one ends. -/
theorem append {first second : List (Label × State)} (run : IsRun step start first)
    (onwards : IsRun step (endOf start first) second) : IsRun step start (first ++ second) := by
  induction first generalizing start with
  | nil => exact onwards
  | cons head rest ih => exact ⟨run.1, ih run.2 onwards⟩

/-- A run is a run of the abstract machine without its hidden steps. -/
theorem simulates_visible (condition : State → Label → Prop)
    (stutters : ∀ source label target model, related source model → condition source label →
      hidden source label = true → step source label target → related target model)
    (matched : ∀ source label target model, related source model → condition source label →
      hidden source label = false → step source label target →
      ∃ next, abstractStep model label next ∧ related target next)
    {steps : List (Label × State)} (initially : related start model) (run : IsRun step start steps)
    (meet : StepsMeet condition start steps) :
    ∃ abstractSteps, IsRun abstractStep model abstractSteps ∧
      abstractSteps.map Prod.fst = visibleLabels hidden start steps ∧
      related (endOf start steps) (endOf model abstractSteps) := by
  induction steps generalizing start model with
  | nil => exact ⟨[], trivial, rfl, initially⟩
  | cons head rest ih =>
      rcases head with ⟨label, target⟩
      cases shows : hidden start label with
      | true =>
          have relates := stutters start label target model initially meet.1 shows run.1
          rcases ih relates run.2 meet.2 with ⟨abstractSteps, follows, labels, ends⟩
          refine ⟨abstractSteps, follows, ?_, ends⟩
          rw [labels, visibleLabels, if_pos shows]
      | false =>
          rcases matched start label target model initially meet.1 shows run.1 with
            ⟨next, first, relates⟩
          rcases ih relates run.2 meet.2 with ⟨abstractSteps, follows, labels, ends⟩
          refine ⟨(label, next) :: abstractSteps, ⟨first, follows⟩, ?_, ends⟩
          rw [List.map_cons, labels, visibleLabels, shows]
          rfl

/-- A machine that gets through each abstract step gets through each abstract run. -/
theorem reproduces (condition : Model → Label → Model → Prop)
    (through : ∀ source model label next, related source model → condition model label next →
      abstractStep model label next →
      ∃ steps, IsRun step source steps ∧ visibleLabels hidden source steps = [label] ∧
        related (endOf source steps) next)
    {abstractSteps : List (Label × Model)} (initially : related start model)
    (run : IsRun abstractStep model abstractSteps)
    (meet : ∀ transition ∈ transitions model abstractSteps,
      condition transition.1 transition.2.1 transition.2.2) :
    ∃ steps, IsRun step start steps ∧
      visibleLabels hidden start steps = abstractSteps.map Prod.fst ∧
      related (endOf start steps) (endOf model abstractSteps) := by
  induction abstractSteps generalizing start model with
  | nil => exact ⟨[], trivial, rfl, initially⟩
  | cons head rest ih =>
      rcases head with ⟨label, next⟩
      have meets := meet (model, label, next) List.mem_cons_self
      rcases through start model label next initially meets run.1 with
        ⟨first, follows, labels, relates⟩
      rcases ih relates run.2 (fun transition mem => meet transition (List.mem_cons_of_mem _ mem))
        with ⟨others, onwards, others', ends⟩
      refine ⟨first ++ others, follows.append onwards, ?_, ?_⟩
      · rw [visibleLabels_append, labels, others']
        rfl
      · rw [endOf_append]
        exact ends

end IsRun

end Dang
