import Dang.Foundations.Outcome

/-!
# Runs of a step relation

A run is a list of steps, each with its label and the state it reaches. The two
rules below are the induction every safety proof over runs is made of: an
invariant kept by every step whose label and source state meet a condition holds
in every state visited, and where the invariant in turn forces the condition the
two are equivalent.
-/

namespace Dang

variable {State Label : Type}

/-- `steps` are consecutive steps from `start`, each paired with the state it reaches. -/
def IsRun (step : State → Label → State → Prop) (start : State) :
    List (Label × State) → Prop
  | [] => True
  | (label, target) :: rest => step start label target ∧ IsRun step target rest

/-- The states visited by a run, the first included. -/
def visited (start : State) (steps : List (Label × State)) : List State :=
  start :: steps.map Prod.snd

/-- The steps of a run, each with the state it starts in. -/
def transitions (start : State) : List (Label × State) → List (State × Label × State)
  | [] => []
  | (label, target) :: rest => (start, label, target) :: transitions target rest

/-- Every step of the run starts in a state that meets the condition for its label. -/
def StepsMeet (condition : State → Label → Prop) (start : State) :
    List (Label × State) → Prop
  | [] => True
  | (label, target) :: rest => condition start label ∧ StepsMeet condition target rest

/-- The run an executable step function makes on a list of labels. -/
def follow (exec : State → Label → Outcome State) (start : State) :
    List Label → Outcome (List (Label × State))
  | [] => .ok []
  | label :: rest => do
      let target ← exec start label
      let steps ← follow exec target rest
      .ok ((label, target) :: steps)

theorem StepsMeet.of_forall {condition : State → Label → Prop} {start : State}
    {steps : List (Label × State)} (always : ∀ source label, condition source label) :
    StepsMeet condition start steps := by
  induction steps generalizing start with
  | nil => trivial
  | cons head rest ih => exact ⟨always start head.1, ih⟩

namespace IsRun

variable {step : State → Label → State → Prop} {condition : State → Label → Prop}

/-- What an executable step function follows is a run of the relation it implements. -/
theorem of_follow (exec : State → Label → Outcome State) {start : State} (labels : List Label)
    {steps : List (Label × State)}
    (implements : ∀ source label target, exec source label = .ok target →
      step source label target)
    (followed : follow exec start labels = .ok steps) : IsRun step start steps := by
  induction labels generalizing start steps with
  | nil =>
      simp only [follow, Except.ok.injEq] at followed
      subst followed
      trivial
  | cons label rest ih =>
      simp only [follow, Outcome.bind_eq_ok, Except.ok.injEq] at followed
      rcases followed with ⟨target, first, later, others, rfl⟩
      exact ⟨implements start label target first, ih others⟩

/-- A run whose steps meet a condition is a run of the steps that do. -/
theorem and_meet {start : State} {steps : List (Label × State)} (run : IsRun step start steps)
    (meet : StepsMeet condition start steps) :
    IsRun (fun source label target => step source label target ∧ condition source label)
      start steps := by
  induction steps generalizing start with
  | nil => trivial
  | cons head rest ih => exact ⟨⟨run.1, meet.1⟩, ih run.2 meet.2⟩

/-- An invariant kept by the steps that meet the condition holds in every visited state. -/
theorem forall_visited (step : State → Label → State → Prop)
    (condition : State → Label → Prop) (invariant : State → Prop) {start : State}
    {steps : List (Label × State)}
    (keep : ∀ source label target, invariant source → condition source label →
      step source label target → invariant target)
    (initially : invariant start) (run : IsRun step start steps)
    (meet : StepsMeet condition start steps) :
    ∀ state ∈ visited start steps, invariant state := by
  induction steps generalizing start with
  | nil =>
      intro state visits
      simp only [visited, List.map_nil, List.mem_singleton] at visits
      exact visits ▸ initially
  | cons head rest ih =>
      rcases head with ⟨label, target⟩
      have next := keep start label target initially meet.1 run.1
      intro state visits
      rcases List.mem_cons.mp visits with first | later
      · exact first ▸ initially
      · exact ih next run.2 meet.2 state later

/-- What holds of every step that meets the condition, from a state in which an invariant kept by
these steps holds, holds of every step of the run. -/
theorem forall_transitions (step : State → Label → State → Prop)
    (condition : State → Label → Prop) (invariant : State → Prop)
    {property : State → Label → State → Prop} {start : State} {steps : List (Label × State)}
    (keep : ∀ source label target, invariant source → condition source label →
      step source label target → invariant target)
    (holds : ∀ source label target, invariant source → condition source label →
      step source label target → property source label target)
    (initially : invariant start) (run : IsRun step start steps)
    (meet : StepsMeet condition start steps) :
    ∀ transition ∈ transitions start steps,
      property transition.1 transition.2.1 transition.2.2 := by
  induction steps generalizing start with
  | nil =>
      intro transition mem
      simp [transitions] at mem
  | cons head rest ih =>
      rcases head with ⟨label, target⟩
      have next := keep start label target initially meet.1 run.1
      intro transition mem
      rcases List.mem_cons.mp mem with rfl | later
      · exact holds start label target initially meet.1 run.1
      · exact ih next run.2 meet.2 transition later

/-- If moreover the invariant implies a property, and a step from an invariant state to
one with the property always meets the condition, then the runs all of whose states
have the property are exactly those whose steps all meet the condition. -/
theorem forall_visited_iff (step : State → Label → State → Prop) (invariant : State → Prop)
    {property : State → Prop} {start : State}
    {steps : List (Label × State)}
    (keep : ∀ source label target, invariant source → condition source label →
      step source label target → invariant target)
    (holds : ∀ state, invariant state → property state)
    (force : ∀ source label target, invariant source → step source label target →
      property target → condition source label)
    (initially : invariant start) (run : IsRun step start steps) :
    (∀ state ∈ visited start steps, property state) ↔ StepsMeet condition start steps := by
  constructor
  · intro always
    induction steps generalizing start with
    | nil => trivial
    | cons head rest ih =>
        rcases head with ⟨label, target⟩
        have meets := force start label target initially run.1 (always target (by simp [visited]))
        refine ⟨meets, ih (keep start label target initially meets run.1) run.2 ?_⟩
        intro state visits
        exact always state (List.mem_cons_of_mem _ visits)
  · intro meet state visits
    exact holds state (forall_visited step condition invariant keep initially run meet state visits)

end IsRun

end Dang
