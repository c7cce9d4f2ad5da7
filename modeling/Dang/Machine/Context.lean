import Dang.Bytecode.Operand
import Dang.Foundations.Run
import Dang.Machine.Scopes
import Dang.Stack

/-!
# Contexts

A context of the virtual machine as far as control goes: where it is in the
bytecode, where it returns to, and its scope. What an instruction does to the data
decides about control in a few places only, a condition or the function reference
that is popped, and there the data's part is an answer that a step is given. The
theorems are for all answers, and so for every input, every state of the data and
every interference of other contexts.
-/

namespace Dang

/-- `VM_CONTEXT_FLAG_SIG_MANAGER` -/
def vmContextFlagSigManager : Flags32 := 0x00000001

/-- `VM_CONTEXT_FLAG_IN_SIG_HANDLER` -/
def vmContextFlagInSigHandler : Flags32 := 0x00000002

/-- `vm_state_t` -/
structure VmState where
  position : ℕ
  flags : Flags32
  symboltableTop : ℕ
  deriving DecidableEq, Repr

namespace VmState

/-- `vm_state_init` -/
def init (position : ℕ) (flags : Flags32) (symboltable : ℕ) (scopes : Scopes) :
    Outcome (VmState × Scopes) := do
  let scopes ← scopes.retain symboltable
  .ok (⟨position, flags, symboltable⟩, scopes)

/-- `vm_state_destroy` -/
def destroy (self : VmState) (scopes : Scopes) : Outcome (VmState × Scopes) := do
  let scopes ← scopes.release self.symboltableTop
  .ok (⟨0, 0, 0⟩, scopes)

/-- `vm_state_clone` -/
def clone (self other : VmState) (scopes : Scopes) : Outcome (VmState × Scopes) := do
  let scopes ← scopes.retain other.symboltableTop
  .ok ({ self with position := other.position, symboltableTop := other.symboltableTop }, scopes)

/-- `STACK_DEFINITIONS(vm_state_t, vm_state_init, vm_state_destroy, vm_state_clone)` -/
def functions : ItemFunctions VmState Scopes where
  zero := ⟨0, 0, 0⟩
  copy := clone
  dest := destroy
  size := 24

end VmState

/-- `vm_context_t`, with the symbol tables in storage. -/
structure VmContext where
  flags : Flags32
  counter : ℕ
  returnStack : Stack VmState
  symboltable : ℕ
  scopes : Scopes

/-- What a step is told by the C library and by the data. -/
structure Answers where
  memory : Memory
  /-- What `calloc` returns for a new symbol table. -/
  table : ℕ
  /-- The value that `JMP0` or `JMPU` pops makes it branch. -/
  branches : Bool
  /-- The function reference that `FRCALL` pops. -/
  function : ℕ
  /-- `ARFILL` or `HRFILL` has storage for the items it pops. -/
  fills : Bool

namespace VmContext

/-- `vm_start_scope` -/
def startScope (answers : Answers) (context : VmContext) : Outcome VmContext :=
  if answers.table = 0 then .ok context
  else do
    let scopes ← context.scopes.init answers.table context.symboltable
    .ok { context with symboltable := answers.table, scopes := scopes }

/-- `vm_end_scope` -/
def endScope (context : VmContext) : Outcome VmContext := do
  Outcome.assertThat (context.symboltable ≠ 0)
  let oldTable ← context.scopes.read context.symboltable
  let (status, scopes) ← context.scopes.destroy context.symboltable
  .ok { context with
    symboltable := oldTable.parent
    scopes := if status = 0 then scopes.free context.symboltable else scopes }

/-- A state that returns to a position is set up, pushed and destroyed again. -/
def saveState (answers : Answers) (position : ℕ) (context : VmContext) : Outcome VmContext := do
  let (state, scopes) ← VmState.init position context.flags context.symboltable context.scopes
  let (_, returnStack, scopes) ←
    context.returnStack.push VmState.functions answers.memory [state] scopes
  let (_, scopes) ← state.destroy scopes
  .ok { context with returnStack := returnStack, scopes := scopes }

/-- `jump_dest - context->m_counter`, returned as an `int`. -/
def jump (context : VmContext) (jumpDest : ℕ) : ℤ := intOfSize (sizeSub jumpDest context.counter)

/-- `inst_CALL` -/
def instCALL (bytecode : Bytes) (answers : Answers) (context : VmContext) :
    Outcome (ℤ × VmContext) := do
  let jumpDest ← loadNumber bytecode (context.counter + 1) 8
  let called ← context.saveState answers (context.counter + 1 + 8)
  let called ← called.startScope answers
  .ok (called.jump jumpDest, called)

/-- `inst_FRCALL` -/
def instFRCALL (answers : Answers) (context : VmContext) : Outcome (ℤ × VmContext) := do
  let called ← context.saveState answers (context.counter + 1)
  let called ← called.startScope answers
  .ok (called.jump answers.function, called)

/-- The loop of `inst_RETURN` that ends the scopes inside `symboltable_top`. -/
def endScopes (symboltableTop : ℕ) : ℕ → VmContext → Outcome VmContext
  | 0, _ => .error .outOfFuel
  | fuel + 1, context =>
      if context.symboltable ≠ 0 ∧ context.symboltable ≠ symboltableTop then do
        let context ← context.endScope
        endScopes symboltableTop fuel context
      else .ok context

/-- `inst_RETURN` -/
def instRETURN (fuel : ℕ) (context : VmContext) : Outcome (ℤ × VmContext) := do
  let (results, returnStack, scopes) ←
    context.returnStack.pop VmState.functions [VmState.functions.zero] context.scopes
  let retState := results.headD VmState.functions.zero
  let (_, scopes) ← retState.destroy scopes
  let context ← endScopes retState.symboltableTop fuel
    { context with flags := retState.flags, returnStack := returnStack, scopes := scopes }
  .ok (context.jump retState.position, context)

/-- The `inst_*` function of an instruction, as far as control goes. -/
def execute (fuel : ℕ) (bytecode : Bytes) (answers : Answers) (context : VmContext) :
    Instruction → Outcome (ℤ × VmContext)
  | .END | .NOOP => .error .assertion
  | .CALL => context.instCALL bytecode answers
  | .FRCALL => context.instFRCALL answers
  | .RETURN => context.instRETURN fuel
  | .JMP => do
      let offset ← loadNumber bytecode (context.counter + 1) 8
      .ok (intOfSize offset, context)
  | .JMP0 | .JMPU => do
      let branchOffset ← loadNumber bytecode (context.counter + 1) 8
      if answers.branches then .ok (intOfSize branchOffset, context) else .ok (1 + 8, context)
  | .STR => do
      let str ← loadString bytecode (context.counter + 1) 1
      .ok (intOfSize (1 + 1 + str.length), context)
  | .STRING => do
      let str ← loadString bytecode (context.counter + 1) 4
      .ok (intOfSize (1 + 4 + str.length), context)
  | .ARFILL | .HRFILL => if answers.fills then .ok (1, context) else .ok (0, context)
  | instruction => do
      let _ ← readOperands bytecode context.counter instruction
      .ok (instruction.size, context)

/-- The instruction that the loop of `vm_execute` fetches. -/
def fetch (bytecode : Bytes) (context : VmContext) : Option Instruction :=
  bytecode[context.counter]? >>= Instruction.ofOpcode

/-- The branches of the loop of `vm_execute` that do not end it. -/
def advance (fuel : ℕ) (bytecode : Bytes) (answers : Answers) (context : VmContext)
    (instruction : Instruction) : Outcome VmContext :=
  if instruction = .NOOP then .ok { context with counter := sizeAdd context.counter 1 }
  else do
    let (incr, after) ← context.execute fuel bytecode answers instruction
    Outcome.assertThat (incr ≠ 0)
    .ok { after with counter := sizeOfInt (context.counter + incr) }

/-- A signal is delivered to this context when one is pending: it is the signal manager, and
not in a signal handler. -/
def TakesSignals (context : VmContext) : Prop :=
  context.flags &&& vmContextFlagSigManager ≠ 0 ∧ context.flags &&& vmContextFlagInSigHandler = 0

/-- The delivery of a signal to its handler. -/
def deliver (answers : Answers) (handler : ℕ) (context : VmContext) : Outcome VmContext := do
  let called ← context.saveState answers context.counter
  let called ← called.startScope answers
  .ok { called with flags := called.flags ||| vmContextFlagInSigHandler, counter := handler }

/-- `vm_execute` up to its loop, for a context that `vm_context_init` has set up. -/
def enter (answers : Answers) (context : VmContext) : Outcome VmContext := do
  let entered ← context.saveState answers 0
  entered.startScope answers

/-- `vm_context_init`, where there is storage, and the flag that `vm_main` sets. -/
def init (start : ℕ) (flags : Flags32) : VmContext where
  flags := flags
  counter := start
  returnStack := .init VmState.functions
  symboltable := 0
  scopes := fun _ => none

end VmContext

/-- What happens next in a run of `vm_execute`. -/
inductive VmEvent
  /-- One round of the loop. -/
  | instruction (answers : Answers)
  /-- A signal is delivered to a handler. -/
  | signal (answers : Answers) (handler : ℕ)

/-- The storage that `calloc` returns is not in use. -/
def Answers.Fresh (answers : Answers) (context : VmContext) : Prop :=
  answers.table ≠ 0 → context.scopes answers.table = none

/-- A step of `vm_execute`. Its loops have as much fuel as they need. -/
def VmStep (bytecode : Bytes) (source : VmContext) (event : VmEvent) (target : VmContext) : Prop :=
  match event with
  | .instruction answers => answers.Fresh source ∧ ∃ instruction fuel,
      source.fetch bytecode = some instruction ∧ instruction ≠ .END ∧
      source.advance fuel bytecode answers instruction = .ok target
  | .signal answers handler => answers.Fresh source ∧ source.TakesSignals ∧
      source.deliver answers handler = .ok target

/-- A context at the start of the loop of `vm_execute`. -/
def VmStarts (context : VmContext) : Prop :=
  ∃ answers start flags, (VmContext.init start flags).enter answers = .ok context

end Dang
