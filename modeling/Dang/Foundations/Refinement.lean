import Dang.Foundations.Run
import Mathlib.Data.List.Basic

/-!
# Refinement

A step relation simulates another if each of its steps, from related states, is a step of
the other with the same label. Then so it is with runs.

An executable machine serves requests, each with an answer and a state, and a model
answers the same requests. If the machine answers as the model does in one step, in
related states, then so it does along a whole run, and the states reached stay related.
-/

namespace Dang

variable {State Model Label Request Answer : Type}

/-- A run of steps that an abstract relation simulates is a run of it, label by label. -/
theorem IsRun.simulates (step : State → Label → State → Prop)
    (abstractStep : Model → Label → Model → Prop) (condition : State → Label → Prop)
    (related : State → Model → Prop)
    (matched : ∀ source label target model, related source model → condition source label →
      step source label target → ∃ next, abstractStep model label next ∧ related target next)
    {start : State} {model : Model} {steps : List (Label × State)} (initially : related start model)
    (run : IsRun step start steps) (meet : StepsMeet condition start steps) :
    ∃ abstractSteps, IsRun abstractStep model abstractSteps ∧
      List.Forall₂ (fun concrete abstract =>
        concrete.1 = abstract.1 ∧ related concrete.2 abstract.2) steps abstractSteps := by
  induction steps generalizing start model with
  | nil => exact ⟨[], trivial, List.Forall₂.nil⟩
  | cons head rest ih =>
      rcases head with ⟨label, target⟩
      rcases matched start label target model initially meet.1 run.1 with ⟨next, first, relates⟩
      rcases ih relates run.2 meet.2 with ⟨others, follows, agree⟩
      refine ⟨(label, next) :: others, ⟨first, follows⟩, ?_⟩
      exact List.Forall₂.cons ⟨rfl, relates⟩ agree

/-- The answers of a machine to a list of requests, each with the state reached. -/
def trace (serve : State → Request → Outcome (Answer × State)) (start : State) :
    List Request → Outcome (List (Answer × State))
  | [] => .ok []
  | request :: rest => do
      let (answer, target) ← serve start request
      let steps ← trace serve target rest
      .ok ((answer, target) :: steps)

/-- The answers of a model to a list of requests, each with the state reached. -/
def modelTrace (answer : Model → Request → Answer × Model) (start : Model) :
    List Request → List (Answer × Model)
  | [] => []
  | request :: rest =>
      answer start request :: modelTrace answer (answer start request).2 rest

/-- Every request meets the condition in the state that serves it. -/
def RequestsMeet (condition : State → Request → Prop)
    (serve : State → Request → Outcome (Answer × State)) (start : State) :
    List Request → Prop
  | [] => True
  | request :: rest => condition start request ∧
      ∀ answer target, serve start request = .ok (answer, target) →
        RequestsMeet condition serve target rest

/-- A request that is served leaves the rest of the requests to the state reached. -/
theorem RequestsMeet.cons {condition : State → Request → Prop}
    {serve : State → Request → Outcome (Answer × State)} {start target : State}
    {request : Request} {rest : List Request} {answer : Answer} (meets : condition start request)
    (served : serve start request = .ok (answer, target))
    (later : RequestsMeet condition serve target rest) :
    RequestsMeet condition serve start (request :: rest) := by
  refine ⟨meets, ?_⟩
  intro answer' target' served'
  rw [served, Except.ok.injEq, Prod.mk.injEq] at served'
  rcases served' with ⟨_, rfl⟩
  exact later

/-- The machine answers as the model does, and keeps its states related to the model's. -/
theorem trace_refines (condition : State → Request → Prop) (related : State → Model → Prop)
    {serve : State → Request → Outcome (Answer × State)}
    {answer : Model → Request → Answer × Model}
    (step : ∀ state model request, related state model → condition state request →
      ∃ target, serve state request = .ok ((answer model request).1, target) ∧
        related target (answer model request).2)
    {start : State} {model : Model} {requests : List Request} (initially : related start model)
    (meet : RequestsMeet condition serve start requests) :
    ∃ steps, trace serve start requests = .ok steps ∧
      List.Forall₂ (fun concrete abstract =>
        concrete.1 = abstract.1 ∧ related concrete.2 abstract.2)
        steps (modelTrace answer model requests) := by
  induction requests generalizing start model with
  | nil => exact ⟨[], rfl, List.Forall₂.nil⟩
  | cons request rest ih =>
      rcases step start model request initially meet.1 with ⟨target, served, next⟩
      rcases ih next (meet.2 _ _ served) with ⟨steps, followed, agree⟩
      refine ⟨((answer model request).1, target) :: steps, ?_, ?_⟩
      · simp [trace, served, followed]
      · exact List.Forall₂.cons ⟨rfl, next⟩ agree

/-- Where a request is answered as the model answers it exactly if it meets the condition, the
machine follows the model along a run exactly if every request does. -/
theorem trace_refines_iff (condition : State → Request → Prop) (related : State → Model → Prop)
    {serve : State → Request → Outcome (Answer × State)}
    {answer : Model → Request → Answer × Model}
    (step : ∀ state model request, related state model →
      ((∃ target, serve state request = .ok ((answer model request).1, target) ∧
        related target (answer model request).2) ↔ condition state request))
    {start : State} {model : Model} {requests : List Request} (initially : related start model) :
    (∃ steps, trace serve start requests = .ok steps ∧
      List.Forall₂ (fun concrete abstract =>
        concrete.1 = abstract.1 ∧ related concrete.2 abstract.2)
        steps (modelTrace answer model requests)) ↔
      RequestsMeet condition serve start requests := by
  constructor
  · induction requests generalizing start model with
    | nil => exact fun _ => trivial
    | cons request rest ih =>
        rintro ⟨steps, followed, agree⟩
        rcases Outcome.bind_eq_ok.mp followed with ⟨⟨reply, target⟩, served, later⟩
        rcases Outcome.bind_eq_ok.mp later with ⟨others, follows, result⟩
        cases result
        rcases agree with _ | ⟨⟨rfl, next⟩, agree⟩
        refine ⟨(step start model request initially).mp ⟨target, served, next⟩, ?_⟩
        intro reply' target' served'
        rw [served, Except.ok.injEq, Prod.mk.injEq] at served'
        rcases served' with ⟨_, rfl⟩
        exact ih next ⟨others, follows, agree⟩
  · intro meet
    exact trace_refines condition related
      (fun state model request relates meets => (step state model request relates).mpr meets)
      initially meet

/-- Runs that agree with one another give the same answers. -/
theorem map_fst_eq (related : State → Model → Prop) {steps : List (Answer × State)}
    {others : List (Answer × Model)}
    (agree : List.Forall₂ (fun concrete abstract =>
      concrete.1 = abstract.1 ∧ related concrete.2 abstract.2) steps others) :
    steps.map Prod.fst = others.map Prod.fst := by
  induction agree with
  | nil => rfl
  | cons same _ ih => rw [List.map_cons, List.map_cons, same.1, ih]

end Dang
