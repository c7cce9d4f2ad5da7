import Dang.Machine.Frames

/-!
# Calls

A call from the instruction that makes it to the `RETURN` that matches it, whatever
the function does in between: further calls, signals, the scopes of both. The frames
below the one that the call saved stay where they are, so the matching `RETURN` finds
it again. What it restores is what `vm_state_clone` has copied.
-/

namespace Dang

/-- The contexts that arise in a run of `vm_execute`. -/
def Reachable (bytecode : Bytes) (context : VmContext) : Prop :=
  ∃ start steps, VmStarts start ∧ IsRun (VmStep bytecode) start steps ∧
    context ∈ visited start steps

theorem Reachable.valid {bytecode : Bytes} {context : VmContext}
    (reachable : Reachable bytecode context) : context.Valid := by
  rcases reachable with ⟨start, steps, starts, run, visits⟩
  exact IsRun.forall_visited (VmStep bytecode) (fun _ _ => True) VmContext.Valid
    (fun _ _ _ valid _ step => (step.states_cases valid).1) starts.valid run
    (StepsMeet.of_forall fun _ _ => trivial) context visits

/-- The step executes the `RETURN` that goes back to where a function was called from. -/
def Leaves (bytecode : Bytes) (callee source : VmContext) (event : VmEvent) : Prop :=
  Executes bytecode source event .RETURN ∧ source.states.length = callee.states.length

/-- The frames that a function starts with stay at the bottom of the stack until it returns. -/
theorem keeps_frames_until_return {bytecode : Bytes} {callee : VmContext}
    {steps : List (VmEvent × VmContext)} (valid : callee.Valid)
    (run : IsRun (VmStep bytecode) callee steps)
    (inside : StepsMeet (fun source event => ¬ Leaves bytecode callee source event) callee steps) :
    ∀ context ∈ visited callee steps, context.Valid ∧ callee.states <:+ context.states := by
  refine IsRun.forall_visited (VmStep bytecode)
    (fun source event => ¬ Leaves bytecode callee source event)
    (fun context => context.Valid ∧ callee.states <:+ context.states)
    ?_ ⟨valid, List.suffix_refl _⟩ run inside
  intro source event target invariant stays step
  rcases invariant with ⟨valid, below⟩
  rcases step.states_cases valid with
    ⟨validTarget, same | ⟨state, pushed⟩ | ⟨executes, state, popped⟩⟩
  · rw [same]
    exact ⟨validTarget, below⟩
  · rw [pushed]
    exact ⟨validTarget, below.trans (List.suffix_cons _ _)⟩
  · refine ⟨validTarget, ?_⟩
    -- the frame that is taken off is not the callee's
    rw [popped] at below
    rcases List.suffix_cons_iff.mp below with all | rest
    · apply absurd _ stays
      refine ⟨executes, ?_⟩
      rw [popped, all]
    · exact rest

/-- A call, from the instruction that makes it up to the `RETURN` that matches it. -/
structure Call (bytecode : Bytes) where
  instruction : Instruction
  isCall : instruction = .CALL ∨ instruction = .FRCALL
  caller : VmContext
  reachable : Reachable bytecode caller
  event : VmEvent
  executes : Executes bytecode caller event instruction
  callee : VmContext
  calls : VmStep bytecode caller event callee
  /-- The run of the callee. -/
  steps : List (VmEvent × VmContext)
  run : IsRun (VmStep bytecode) callee steps
  inside : StepsMeet (fun source event => ¬ Leaves bytecode callee source event) callee steps
  returning : VmContext
  visits : returning ∈ visited callee steps
  returnEvent : VmEvent
  leaves : Leaves bytecode callee returning returnEvent
  after : VmContext
  returns : VmStep bytecode returning returnEvent after

namespace Call

variable {bytecode : Bytes}

/-- The position just after the call instruction. -/
def next (call : Call bytecode) : ℕ := call.caller.counter + call.instruction.size

/-- What the caller finds after the call is what it left. -/
structure IsTransparent (call : Call bytecode) : Prop where
  counter : call.after.counter = call.next
  flags : call.after.flags = call.caller.flags
  symboltable : call.after.symboltable = call.caller.symboltable
  states : call.after.states = call.caller.states

/-- The call leaves the caller's next instruction inside the bytecode, and saves the caller's
state if there is room for it. -/
theorem saves (call : Call bytecode) :
    call.callee.Valid ∧ call.next ≤ bytecode.length ∧
      ((call.caller.HasRoom call.event.answers ∧
          call.callee.states = ⟨call.next, 0, call.caller.symboltable⟩ :: call.caller.states) ∨
        (¬ call.caller.HasRoom call.event.answers ∧
          call.callee.states = call.caller.states)) := by
  have executes := call.executes
  rcases call.isCall with isCALL | isFRCALL
  · rw [isCALL] at executes
    rw [next, isCALL]
    exact call.calls.of_CALL call.reachable.valid executes
  · rw [isFRCALL] at executes
    rw [next, isFRCALL]
    rcases call.calls.of_FRCALL call.reachable.valid executes with ⟨valid, states⟩
    refine ⟨valid, ?_, states⟩
    rcases executes with ⟨_, _, fetched⟩
    rcases Option.bind_eq_some_iff.mp fetched with ⟨_, inside, _⟩
    exact (List.getElem?_eq_some_iff.mp inside).1

/-- The frames that the callee starts with stay at the bottom of its stack until it returns. -/
theorem keeps_frames (call : Call bytecode) :
    call.returning.Valid ∧ call.callee.states <:+ call.returning.states :=
  keeps_frames_until_return call.saves.1 call.run call.inside call.returning call.visits

/-- The matching `RETURN` finds the frames that the callee started with. -/
theorem returning_states (call : Call bytecode) : call.returning.states = call.callee.states :=
  (call.keeps_frames.2.eq_of_length call.leaves.2.symm).symm

/-- A call is transparent if and only if the caller has no flags, its state is saved, and the
way back fits an `int`. -/
theorem isTransparent_iff (small : bytecode.length ≤ sizeMax) (call : Call bytecode) :
    call.IsTransparent ↔
      call.caller.flags = 0 ∧ call.caller.HasRoom call.event.answers ∧
        FitsInt (sizeSub call.next call.returning.counter) := by
  rcases call.saves with ⟨_, nextInside, saved⟩
  rcases call.returns.of_RETURN call.keeps_frames.1 call.leaves.1 with
    ⟨state, popped, _, flags, symboltable, counter⟩
  rw [call.returning_states] at popped
  have inside : call.returning.counter < bytecode.length := by
    rcases call.leaves.1 with ⟨_, _, fetched⟩
    rcases Option.bind_eq_some_iff.mp fetched with ⟨_, inside, _⟩
    exact (List.getElem?_eq_some_iff.mp inside).1
  have distance := sizeOfInt_add_distance call.returning.counter call.next
    (by unfold sizeMax at small; omega) (by unfold sizeMax at small; omega)
  constructor
  · intro transparent
    have room : call.caller.HasRoom call.event.answers := by
      rcases saved with ⟨room, _⟩ | ⟨_, same⟩
      · exact room
      · have grown := congrArg List.length (same.symm.trans popped)
        rw [transparent.states, List.length_cons] at grown
        omega
    refine ⟨transparent.flags.symm.trans flags, room, ?_⟩
    rcases saved with ⟨_, pushed⟩ | ⟨noRoom, _⟩
    · rcases List.cons.inj (pushed.symm.trans popped) with ⟨rfl, _⟩
      exact distance.mp (counter.symm.trans transparent.counter)
    · exact absurd room noRoom
  · intro condition
    rcases condition with ⟨noFlags, room, fits⟩
    rcases saved with ⟨_, pushed⟩ | ⟨noRoom, _⟩
    · rcases List.cons.inj (pushed.symm.trans popped) with ⟨rfl, restored⟩
      exact ⟨counter.trans (distance.mpr fits), flags.trans noFlags.symm, symboltable,
        restored.symm⟩
    · exact absurd room noRoom

/-- A program whose entry point calls a function that returns. -/
def sampleBytecode : Bytes := [0, 1, 1, 2, 13, 0, 0, 0, 0, 0, 0, 0, 0, 4, 0]

/-- Answers with storage for a symbol table. -/
def sampleAnswers (table : ℕ) : Answers where
  memory := .ample
  table := table
  branches := false
  function := 0
  fills := false

/-- The entry point of the program, in the main context or in another. -/
def sampleStart (main : Bool) : VmContext :=
  .init 3 (if main then vmContextFlagSigManager else 0)

def sampleCaller (main : Bool) : VmContext :=
  ((sampleStart main).enter (sampleAnswers 100)).toOption.getD (sampleStart main)

def sampleCallee (main : Bool) : VmContext :=
  ((sampleCaller main).advance 0 sampleBytecode (sampleAnswers 200) .CALL).toOption.getD
    (sampleStart main)

def sampleAfter (main : Bool) : VmContext :=
  ((sampleCallee main).advance 2 sampleBytecode (sampleAnswers 0) .RETURN).toOption.getD
    (sampleStart main)

/-- The call that the context makes there. -/
def sample (main : Bool) : Call sampleBytecode where
  instruction := .CALL
  isCall := Or.inl rfl
  caller := sampleCaller main
  reachable := ⟨sampleCaller main, [], ⟨sampleAnswers 100, 3, _,
    Outcome.eq_ok_getD (sampleStart main) (by cases main <;> decide +kernel)⟩, trivial,
    List.mem_singleton_self _⟩
  event := .instruction (sampleAnswers 200)
  executes := ⟨sampleAnswers 200, rfl, by cases main <;> decide +kernel⟩
  callee := sampleCallee main
  calls := ⟨fun _ => by cases main <;> rfl, .CALL, 0, by cases main <;> decide +kernel,
    by decide, Outcome.eq_ok_getD (sampleStart main) (by cases main <;> decide +kernel)⟩
  steps := []
  run := trivial
  inside := trivial
  returning := sampleCallee main
  visits := List.mem_singleton_self _
  returnEvent := .instruction (sampleAnswers 0)
  leaves := ⟨⟨sampleAnswers 0, rfl, by cases main <;> decide +kernel⟩, rfl⟩
  after := sampleAfter main
  returns := ⟨fun absurdity => absurd rfl absurdity, .RETURN, 2,
    by cases main <;> decide +kernel, by decide,
    Outcome.eq_ok_getD (sampleStart main) (by cases main <;> decide +kernel)⟩

theorem isTransparent_iff_sample :
    sampleBytecode.length ≤ sizeMax ∧ (sample false).IsTransparent := by
  refine ⟨by decide, ?_⟩
  apply (isTransparent_iff (by decide) (sample false)).mpr
  exact ⟨by decide +kernel, by decide +kernel, by decide +kernel⟩

/-- The main context loses the flag that makes it the signal manager. -/
theorem not_isTransparent_main :
    (sample true).caller.flags = vmContextFlagSigManager ∧ (sample true).after.flags = 0 ∧
      (sample true).caller.HasRoom (sample true).event.answers ∧
      FitsInt (sizeSub (sample true).next (sample true).returning.counter) ∧
      ¬ (sample true).IsTransparent := by
  refine ⟨by decide +kernel, by decide +kernel, by decide +kernel, by decide +kernel, ?_⟩
  intro transparent
  have lost : (sample true).after.flags ≠ (sample true).caller.flags := by decide +kernel
  exact lost transparent.flags

end Call

end Dang
