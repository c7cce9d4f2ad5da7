import Dang.Machine.Calls
import Dang.Scalar.Value

/-!
# Signals

The delivery of a signal to a handler, and the handler's run up to the `RETURN` that
matches it. The frame that delivery saves is found again by that `RETURN`, as in a
call. Delivery pushes nothing onto the data stack, and the frame does not hold the
flags of the context.
-/

namespace Dang

/-- `VM_SIGNAL_DEFAULT` -/
def vmSignalDefault : ℕ := 2 ^ 64 - 1

/-- `VM_SIGNAL_IGNORE` -/
def vmSignalIgnore : ℕ := 2 ^ 64 - 2

/-- What `vm_execute` does with a pending signal. -/
inductive SignalAction
  | raise
  | ignore
  | call (handler : ℕ)
  deriving DecidableEq, Repr

/-- The branches of `vm_execute` on the signal that `sigwait` has returned. -/
def signalAction (handlers : List ℕ) (sig : ℕ) : SignalAction :=
  match handlers[sig]? with
  | none => .raise
  | some handler =>
      if handler = vmSignalDefault then .raise
      else if handler = vmSignalIgnore then .ignore
      else .call handler

/-- The branch that calls a handler. It pushes nothing onto the data stack. -/
def VmContext.callHandler (answers : Answers) (handler : ℕ) (dataStack : List Value)
    (context : VmContext) : Outcome (VmContext × List Value) := do
  let called ← context.deliver answers handler
  .ok (called, dataStack)

/-- The delivery of a signal, and the run of its handler up to the `RETURN` that matches. -/
structure Handling (bytecode : Bytes) where
  interrupted : VmContext
  reachable : Reachable bytecode interrupted
  /-- The data stack of the interrupted context, its top first. -/
  dataStack : List Value
  handlers : List ℕ
  sig : ℕ
  handler : ℕ
  installed : signalAction handlers sig = .call handler
  answers : Answers
  fresh : answers.Fresh interrupted
  takes : interrupted.TakesSignals
  delivered : VmContext
  /-- The data stack that the handler starts with. -/
  dataStart : List Value
  delivers : interrupted.callHandler answers handler dataStack = .ok (delivered, dataStart)
  /-- The run of the handler. -/
  steps : List (VmEvent × VmContext)
  run : IsRun (VmStep bytecode) delivered steps
  inside : StepsMeet (fun source event => ¬ Leaves bytecode delivered source event) delivered steps
  returning : VmContext
  visits : returning ∈ visited delivered steps
  returnEvent : VmEvent
  leaves : Leaves bytecode delivered returning returnEvent
  after : VmContext
  returns : VmStep bytecode returning returnEvent after
  dataAfter : List Value
  /-- The effect of the handler is `( sig -- )`. -/
  effect : ∃ top, dataStart = top :: dataAfter

namespace Handling

variable {bytecode : Bytes}

/-- The interrupted computation finds everything as it left it, and the handler has its signal
to itself. -/
structure IsTransparent (handling : Handling bytecode) : Prop where
  counter : handling.after.counter = handling.interrupted.counter
  dataStack : handling.dataAfter = handling.dataStack
  states : handling.after.states = handling.interrupted.states
  symboltable : handling.after.symboltable = handling.interrupted.symboltable
  flags : handling.after.flags = handling.interrupted.flags
  starts : handling.dataStart.head? = some (.int (BitVec.ofNat 64 handling.sig))
  quiet : ∀ context ∈ visited handling.delivered handling.steps, ¬ context.TakesSignals
  again : handling.after.TakesSignals

/-- What delivery has done when the handler starts. -/
theorem starts_eq (handling : Handling bytecode) :
    handling.delivered.Valid ∧ handling.dataStart = handling.dataStack ∧
      handling.delivered.counter = handling.handler ∧
      ((handling.interrupted.HasRoom handling.answers ∧
          handling.delivered.states =
            ⟨handling.interrupted.counter, 0, handling.interrupted.symboltable⟩ ::
              handling.interrupted.states) ∨
        (¬ handling.interrupted.HasRoom handling.answers ∧
          handling.delivered.states = handling.interrupted.states)) := by
  have delivers := handling.delivers
  simp only [VmContext.callHandler, VmContext.deliver, Outcome.bind_eq_ok, Except.ok.injEq,
    Prod.mk.injEq] at delivers
  rcases delivers with ⟨_, ⟨saved, saves, called, starts, same⟩, same', dataStart⟩
  rcases VmContext.enterFrame_eq_ok handling.reachable.valid handling.fresh saves starts with
    ⟨validCalled, _, states⟩
  rw [← same', ← same]
  exact ⟨⟨validCalled.stack, validCalled.counted⟩, dataStart.symm, rfl, states⟩

/-- The handler's `RETURN` takes one state off the stack that delivery has left, and no flags come
back with it. -/
theorem returns_eq (handling : Handling bytecode) :
    ∃ state, handling.delivered.states = state :: handling.after.states ∧
      handling.after.flags = 0 ∧ handling.after.symboltable = state.symboltableTop ∧
      handling.after.counter =
        sizeOfInt (handling.returning.counter + handling.returning.jump state.position) := by
  rcases keeps_frames_until_return handling.starts_eq.1 handling.run handling.inside
    handling.returning handling.visits with ⟨valid, below⟩
  have states := below.eq_of_length handling.leaves.2.symm
  rcases handling.returns.of_RETURN valid handling.leaves.1 with
    ⟨state, popped, _, flags, symboltable, counter⟩
  exact ⟨state, states.trans popped, flags, symboltable, counter⟩

/-- Where there is room for the frame, its return stack and scope come back. -/
theorem restores_frame (handling : Handling bytecode)
    (room : handling.interrupted.HasRoom handling.answers) :
    handling.after.states = handling.interrupted.states ∧
      handling.after.symboltable = handling.interrupted.symboltable := by
  rcases handling.returns_eq with ⟨state, popped, _, symboltable, _⟩
  rcases handling.starts_eq.2.2.2 with ⟨_, pushed⟩ | ⟨noRoom, _⟩
  · rcases List.cons.inj (pushed.symm.trans popped) with ⟨rfl, restored⟩
    exact ⟨restored.symm, symboltable⟩
  · exact absurd room noRoom

/-- A context without flags does not take signals. -/
theorem not_takesSignals_of_flags {context : VmContext} (noFlags : context.flags = 0) :
    ¬ context.TakesSignals := by
  intro takes
  apply takes.1
  rw [noFlags]
  rfl

/-- No delivery of a signal is transparent: the context is no longer the signal manager when the
handler has returned, and what the handler has taken off the data stack is missing. -/
theorem not_isTransparent (handling : Handling bytecode) :
    ¬ handling.IsTransparent ∧ ¬ handling.after.TakesSignals ∧
      handling.dataAfter ≠ handling.dataStack := by
  rcases handling.returns_eq with ⟨_, _, flags, _, _⟩
  have noSignals := not_takesSignals_of_flags flags
  refine ⟨fun transparent => noSignals transparent.again, noSignals, ?_⟩
  intro same
  rcases handling.effect with ⟨top, taken⟩
  rw [handling.starts_eq.2.1, ← same] at taken
  have longer := congrArg List.length taken
  rw [List.length_cons] at longer
  omega

/-- A program with a handler that drops the signal and returns. -/
def sampleBytecode : Bytes := [0, 1, 1, 1, 0, 5, 4, 0]

/-- Its main context, before the first instruction. -/
def sampleInterrupted : VmContext :=
  ((VmContext.init 3 vmContextFlagSigManager).enter (Call.sampleAnswers 100)).toOption.getD
    (.init 3 0)

def sampleDelivered : VmContext :=
  (sampleInterrupted.deliver (Call.sampleAnswers 200) 5).toOption.getD (.init 3 0)

def sampleReturning : VmContext :=
  (sampleDelivered.advance 0 sampleBytecode (Call.sampleAnswers 0) .DROP).toOption.getD (.init 3 0)

def sampleAfter : VmContext :=
  (sampleReturning.advance 2 sampleBytecode (Call.sampleAnswers 0) .RETURN).toOption.getD
    (.init 3 0)

/-- Signal 2 is delivered there. -/
def sample : Handling sampleBytecode where
  interrupted := sampleInterrupted
  reachable := ⟨sampleInterrupted, [], ⟨Call.sampleAnswers 100, 3, _,
    Outcome.eq_ok_getD (.init 3 0) (by decide +kernel)⟩, trivial, List.mem_singleton_self _⟩
  dataStack := [.int 7]
  handlers := [vmSignalDefault, vmSignalDefault, 5]
  sig := 2
  handler := 5
  installed := by decide
  answers := Call.sampleAnswers 200
  fresh := fun _ => by decide +kernel
  takes := by unfold VmContext.TakesSignals; decide +kernel
  delivered := sampleDelivered
  dataStart := [.int 7]
  delivers := by
    have called : sampleInterrupted.deliver (Call.sampleAnswers 200) 5 = .ok sampleDelivered :=
      Outcome.eq_ok_getD (.init 3 0) (by decide +kernel)
    rw [VmContext.callHandler, called]
    rfl
  steps := [(.instruction (Call.sampleAnswers 0), sampleReturning)]
  run := ⟨⟨fun absurdity => absurd rfl absurdity, .DROP, 0, by decide +kernel, by decide,
    Outcome.eq_ok_getD (.init 3 0) (by decide +kernel)⟩, trivial⟩
  inside := by
    refine ⟨?_, trivial⟩
    rintro ⟨⟨_, _, fetched⟩, _⟩
    have drops : sampleDelivered.fetch sampleBytecode ≠ some .RETURN := by decide +kernel
    exact drops fetched
  returning := sampleReturning
  visits := by simp [visited]
  returnEvent := .instruction (Call.sampleAnswers 0)
  leaves := ⟨⟨Call.sampleAnswers 0, rfl, by decide +kernel⟩, by decide +kernel⟩
  after := sampleAfter
  returns := ⟨fun absurdity => absurd rfl absurdity, .RETURN, 2, by decide +kernel, by decide,
    Outcome.eq_ok_getD (.init 3 0) (by decide +kernel)⟩
  dataAfter := []
  effect := ⟨.int 7, rfl⟩

/-- Only the counter, the return stack and the scope come back. -/
theorem not_isTransparent_sample :
    sample.after.counter = sample.interrupted.counter ∧
      sample.after.states = sample.interrupted.states ∧
      sample.after.symboltable = sample.interrupted.symboltable ∧
      sample.interrupted.flags = vmContextFlagSigManager ∧ sample.after.flags = 0 ∧
      sample.dataStart.head? ≠ some (.int (BitVec.ofNat 64 sample.sig)) ∧
      ¬ sample.IsTransparent := by
  refine ⟨by decide +kernel, by decide +kernel, by decide +kernel, by decide +kernel,
    by decide +kernel, by decide +kernel, ?_⟩
  intro transparent
  have lost : sample.after.flags ≠ sample.interrupted.flags := by decide +kernel
  exact lost transparent.flags

end Handling

end Dang
