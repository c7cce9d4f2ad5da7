import Dang.Machine.Context

/-!
# Frames

What the steps of a context do to its return stack and its scope. Saving a state
puts one frame on the stack, returning takes one off, and every other step leaves
both alone. In a valid context the references to symbol tables are counted right,
so that no table is destroyed while the context or a saved state refers to it.
-/

namespace Dang

/-- The references that saved states count. -/
def topsOf (states : List VmState) : Tops := states.map fun state => (state.symboltableTop, 1)

namespace VmContext

/-- The saved states, the innermost first. -/
abbrev states (context : VmContext) : List VmState := context.returnStack.contents

/-- The return stack is in order, and so are the counts of references to symbol tables. -/
structure Valid (context : VmContext) : Prop where
  stack : context.returnStack.Valid VmState.functions
  counted : ∃ chain, Counted context.scopes (topsOf context.states) context.symboltable chain 0

/-- There is room for one more saved state, or storage for it. -/
def HasRoom (answers : Answers) (context : VmContext) : Prop :=
  context.returnStack.HasRoom VmState.functions answers.memory

instance (answers : Answers) (context : VmContext) : Decidable (context.HasRoom answers) :=
  inferInstanceAs (Decidable (Stack.HasRoom _ _ _))

variable {context after : VmContext} {answers : Answers} {position : ℕ}

theorem valid_init (start : ℕ) (flags : Flags32) : (init start flags).Valid where
  stack := Stack.valid_init (by decide)
  counted := ⟨[], .nil 0⟩

/-- Saving a state changes nothing but the return stack, and the flags are not saved. -/
theorem saveState_eq_ok {chain : List ℕ} (stack : context.returnStack.Valid VmState.functions)
    (counts : Counted context.scopes (topsOf context.states) context.symboltable chain 0)
    (success : context.saveState answers position = .ok after) :
    after.returnStack.Valid VmState.functions ∧
      Counted after.scopes (topsOf after.states) after.symboltable chain 0 ∧
      after.counter = context.counter ∧ after.symboltable = context.symboltable ∧
      (∀ address, context.scopes address = none → after.scopes address = none) ∧
      ((context.HasRoom answers ∧
          after.states = ⟨position, 0, context.symboltable⟩ :: context.states) ∨
        (¬ context.HasRoom answers ∧ after.states = context.states)) := by
  simp only [saveState, VmState.init, VmState.destroy, Outcome.bind_eq_ok, Prod.exists,
    Except.ok.injEq, Prod.mk.injEq] at success
  rcases success with ⟨_, _, ⟨first, initial, rfl, rfl⟩, status, returnStack, second, pushed,
    _, _, ⟨third, released, rfl, rfl⟩, rfl⟩
  rcases counts.retain_current with ⟨_, initial', counts⟩
  rcases Except.ok.inj (initial.symm.trans initial') with rfl
  rcases Stack.push_eq_ok stack (by decide) pushed with
    ⟨room, state, copied, contents, validStack⟩ | ⟨room, rfl, rfl⟩
  · rcases Outcome.bind_eq_ok.mp copied with ⟨_, retained, same⟩
    rcases counts.retain_current with ⟨_, retained', counts⟩
    rcases Except.ok.inj (retained.symm.trans retained') with rfl
    simp only [Except.ok.injEq, Prod.mk.injEq] at same
    rcases same with ⟨rfl, rfl⟩
    rcases counts.release_current with ⟨_, released', counts⟩
    rcases Except.ok.inj (released.symm.trans released') with rfl
    refine ⟨validStack, ?_, rfl, rfl, ?_, Or.inl ⟨room, contents⟩⟩
    · rw [states, contents]
      exact .state 1 counts
    · intro address unused
      exact Scopes.release_eq_none released
        (Scopes.retain_eq_none retained (Scopes.retain_eq_none initial unused))
  · rcases counts.release_current with ⟨_, released', counts⟩
    rcases Except.ok.inj (released.symm.trans released') with rfl
    refine ⟨stack, counts, rfl, rfl, ?_, Or.inr ⟨room, rfl⟩⟩
    intro address unused
    exact Scopes.release_eq_none released (Scopes.retain_eq_none initial unused)

/-- Starting a scope changes the current scope only, and does nothing for want of storage. -/
theorem startScope_eq_ok {chain : List ℕ}
    (counts : Counted context.scopes (topsOf context.states) context.symboltable chain 0)
    (fresh : answers.Fresh context) (success : context.startScope answers = .ok after) :
    after.counter = context.counter ∧ after.returnStack = context.returnStack ∧
      ((answers.table = 0 ∧ after = context) ∨
        (answers.table ≠ 0 ∧
          Counted after.scopes (topsOf after.states) after.symboltable (answers.table :: chain) 0 ∧
          ∀ address, address ≠ answers.table → context.scopes address = none →
            after.scopes address = none)) := by
  unfold startScope at success
  split at success
  case isTrue noStorage =>
    rcases Except.ok.inj success with rfl
    exact ⟨rfl, rfl, Or.inl ⟨noStorage, rfl⟩⟩
  case isFalse nonzero =>
    rcases Outcome.bind_eq_ok.mp success with ⟨scopes, inited, same⟩
    rcases Except.ok.inj same with rfl
    rcases counts.init_table nonzero (fresh nonzero) with ⟨_, inited', counts⟩
    rcases Except.ok.inj (inited.symm.trans inited') with rfl
    refine ⟨rfl, rfl, Or.inr ⟨nonzero, counts, ?_⟩⟩
    intro address apart unused
    apply Scopes.retain_eq_none inited
    rw [Function.update_of_ne apart]
    exact unused

/-- Ending a scope other than the one a state returns to. -/
theorem endScope_eq_ok {top : ℕ} {tops : Tops} {chain : List ℕ}
    (counts : Counted context.scopes ((top, 0) :: tops) context.symboltable chain 0)
    (nonzero : context.symboltable ≠ 0) (apart : context.symboltable ≠ top) :
    ∃ ended rest, context.endScope = .ok ended ∧ chain = context.symboltable :: rest ∧
      Counted ended.scopes ((top, 0) :: tops) ended.symboltable rest 0 ∧
      ended.scopes context.symboltable = none ∧
      (∀ address, context.scopes address = none → ended.scopes address = none) ∧
      ended.flags = context.flags ∧ ended.counter = context.counter ∧
      ended.returnStack = context.returnStack := by
  rcases counts.end_table nonzero apart with ⟨parent, rest, scopes, same, read, destroyed, counts⟩
  refine ⟨{ context with symboltable := parent, scopes := scopes.free context.symboltable }, rest,
    ?_, same, counts, Function.update_self _ _ _, ?_, rfl, rfl, rfl⟩
  · simp [endScope, Outcome.assertThat_of nonzero, read, destroyed]
  · intro address unused
    exact Scopes.free_eq_none (Scopes.destroy_eq_none destroyed unused)

/-- The loop of `inst_RETURN` ends at the scope that the state returns to, and leaves nothing of
the scopes inside it. -/
theorem endScopes_eq_ok {top fuel : ℕ} {tops : Tops} {chain : List ℕ}
    (counts : Counted context.scopes ((top, 0) :: tops) context.symboltable chain 0)
    (success : endScopes top fuel context = .ok after) :
    after.symboltable = top ∧
      (∃ rest, Counted after.scopes tops top rest 0 ∧
        ∀ address ∈ chain, address ∉ rest → after.scopes address = none) ∧
      (∀ address, context.scopes address = none → after.scopes address = none) ∧
      after.flags = context.flags ∧ after.counter = context.counter ∧
      after.returnStack = context.returnStack := by
  induction fuel generalizing context chain with
  | zero => simp [endScopes] at success
  | succ fuel ih =>
      unfold endScopes at success
      split at success
      case isTrue inside =>
        rcases endScope_eq_ok counts inside.1 inside.2 with
          ⟨ended, outer, ends, rfl, counted, gone, unused, flags, counter, stack⟩
        rw [ends, Outcome.ok_bind] at success
        rcases ih counted success with
          ⟨symboltable, ⟨rest, counted, gone'⟩, unused', flags', counter', stack'⟩
        refine ⟨symboltable, ⟨rest, counted, ?_⟩, ?_, flags'.trans flags, counter'.trans counter,
          stack'.trans stack⟩
        · intro address mem outside
          rcases List.mem_cons.mp mem with rfl | later
          · exact unused' _ gone
          · exact gone' address later outside
        · intro address free
          exact unused' address (unused address free)
      case isFalse outside =>
        rcases Except.ok.inj success with rfl
        have atTop : context.symboltable = top := by
          rcases Nat.eq_zero_or_pos context.symboltable with zero | positive
          · rcases counts.chain_cases with ⟨_, rfl⟩ | ⟨nonzero, _⟩
            · rcases counts.top_mem with topZero | mem
              · exact zero.trans topZero.symm
              · simp at mem
            · exact absurd zero nonzero
          · by_contra apart
            exact outside ⟨Nat.ne_of_gt positive, apart⟩
        refine ⟨atTop, ⟨chain, ?_, ?_⟩, fun _ unused => unused, rfl, rfl, rfl⟩
        · rw [atTop] at counts
          exact counts.returned
        · intro address mem outside
          exact absurd mem outside

/-- Returning takes one state off the stack and goes back to its position and scope. No flags
come back with it. -/
theorem instRETURN_eq_ok {fuel : ℕ} {incr : ℤ} {chain : List ℕ}
    (stack : context.returnStack.Valid VmState.functions)
    (counts : Counted context.scopes (topsOf context.states) context.symboltable chain 0)
    (success : context.instRETURN fuel = .ok (incr, after)) :
    ∃ state rest, context.states = state :: after.states ∧
      after.returnStack.Valid VmState.functions ∧
      Counted after.scopes (topsOf after.states) after.symboltable rest 0 ∧
      (∀ address ∈ chain, address ∉ rest → after.scopes address = none) ∧
      (∀ address, context.scopes address = none → after.scopes address = none) ∧
      after.flags = 0 ∧ after.symboltable = state.symboltableTop ∧
      incr = context.jump state.position := by
  simp only [instRETURN, VmState.destroy, Outcome.bind_eq_ok, Prod.exists, Except.ok.injEq,
    Prod.mk.injEq] at success
  rcases success with ⟨results, popsTo, first, popped, _, _, ⟨second, released, rfl, rfl⟩, ended,
    ends, rfl, rfl⟩
  rcases Stack.pop_eq_ok stack popped with
    ⟨state, rest, retState, middle, slot, contents, copied, destroyed, rfl, restContents, emptied⟩
  rw [states, contents] at counts
  rcases Outcome.bind_eq_ok.mp copied with ⟨_, retained, same⟩
  simp only [Except.ok.injEq, Prod.mk.injEq] at same
  rcases same with ⟨rfl, rfl⟩
  rcases Outcome.bind_eq_ok.mp destroyed with ⟨_, dropped, same⟩
  simp only [Except.ok.injEq, Prod.mk.injEq] at same
  rcases same with ⟨rfl, rfl⟩
  simp only [List.headD_cons] at released ends
  -- the copy counts a second reference, and the slot and the copy give one back each
  rcases counts.retain_top with ⟨_, retained', counts⟩
  rcases Except.ok.inj (retained.symm.trans retained') with rfl
  rcases counts.release_top with ⟨_, dropped', counts⟩
  rcases Except.ok.inj (dropped.symm.trans dropped') with rfl
  rcases counts.release_top with ⟨_, released', counts⟩
  rcases Except.ok.inj (released.symm.trans released') with rfl
  rcases endScopes_eq_ok counts ends with
    ⟨symboltable, ⟨outer, counted, gone⟩, unused, flags, counter, sameStack⟩
  have afterStates : ended.states = rest := by
    rw [states, sameStack]
    exact restContents
  refine ⟨state, outer, ?_, ?_, ?_, gone, ?_, flags, symboltable, ?_⟩
  · rw [afterStates]
    exact contents
  · rw [sameStack]
    exact emptied rfl
  · rw [afterStates, symboltable]
    exact counted
  · intro address free
    exact unused address (Scopes.release_eq_none released
      (Scopes.release_eq_none dropped (Scopes.retain_eq_none retained free)))
  · rw [jump, counter]
    rfl

/-- Saving a state and starting a scope, as every call does. -/
theorem enterFrame_eq_ok (valid : context.Valid) (fresh : answers.Fresh context)
    {saved : VmContext} (saves : context.saveState answers position = .ok saved)
    (starts : saved.startScope answers = .ok after) :
    after.Valid ∧ after.counter = context.counter ∧
      ((context.HasRoom answers ∧
          after.states = ⟨position, 0, context.symboltable⟩ :: context.states) ∨
        (¬ context.HasRoom answers ∧ after.states = context.states)) := by
  rcases valid.counted with ⟨chain, counts⟩
  rcases saveState_eq_ok valid.stack counts saves with
    ⟨stack, counts, counter, _, unused, states⟩
  rcases startScope_eq_ok counts (fun nonzero => unused _ (fresh nonzero)) starts with
    ⟨counter', stack', same | ⟨_, counts', _⟩⟩
  · rcases same with ⟨_, rfl⟩
    exact ⟨⟨stack, chain, counts⟩, counter, states⟩
  · refine ⟨⟨?_, _, counts'⟩, counter'.trans counter, ?_⟩
    · rw [stack']
      exact stack
    · rw [VmContext.states, stack']
      exact states

/-- The instructions that do not change the return stack and the scope. -/
def KeepsFrame (instruction : Instruction) : Prop :=
  instruction ≠ .CALL ∧ instruction ≠ .FRCALL ∧ instruction ≠ .RETURN

theorem execute_keepsFrame {fuel : ℕ} {bytecode : Bytes} {instruction : Instruction} {incr : ℤ}
    (keeps : KeepsFrame instruction)
    (success : context.execute fuel bytecode answers instruction = .ok (incr, after)) :
    after = context := by
  rcases keeps with ⟨notCALL, notFRCALL, notRETURN⟩
  unfold execute at success
  split at success
  case h_1 | h_2 => contradiction
  case h_3 => exact absurd rfl notCALL
  case h_4 => exact absurd rfl notFRCALL
  case h_5 => exact absurd rfl notRETURN
  case h_7 | h_8 =>
    rcases Outcome.bind_eq_ok.mp success with ⟨_, _, success⟩
    split at success
    · exact (Prod.ext_iff.mp (Except.ok.inj success)).2.symm
    · exact (Prod.ext_iff.mp (Except.ok.inj success)).2.symm
  case h_11 | h_12 =>
    split at success
    · exact (Prod.ext_iff.mp (Except.ok.inj success)).2.symm
    · exact (Prod.ext_iff.mp (Except.ok.inj success)).2.symm
  all_goals
    rcases Outcome.bind_eq_ok.mp success with ⟨_, _, success⟩
    exact (Prod.ext_iff.mp (Except.ok.inj success)).2.symm

theorem Valid.setCounter (valid : context.Valid) (counter : ℕ) :
    ({ context with counter := counter } : VmContext).Valid :=
  ⟨valid.stack, valid.counted⟩

/-- `inst_CALL` saves the position after its operand. -/
theorem instCALL_eq_ok {bytecode : Bytes} {incr : ℤ} (valid : context.Valid)
    (fresh : answers.Fresh context)
    (success : context.instCALL bytecode answers = .ok (incr, after)) :
    after.Valid ∧ context.counter + 9 ≤ bytecode.length ∧
      ((context.HasRoom answers ∧
          after.states = ⟨context.counter + 9, 0, context.symboltable⟩ :: context.states) ∨
        (¬ context.HasRoom answers ∧ after.states = context.states)) := by
  simp only [instCALL, Outcome.bind_eq_ok, Except.ok.injEq, Prod.mk.injEq] at success
  rcases success with ⟨_, loads, saved, saves, _, starts, _, rfl⟩
  rcases Outcome.bind_eq_ok.mp loads with ⟨block, loaded, _⟩
  rcases enterFrame_eq_ok valid fresh saves starts with ⟨validAfter, _, states⟩
  exact ⟨validAfter, (Buffer.load_eq_ok.mp loaded).1, states⟩

/-- `inst_FRCALL` saves the position after its opcode. -/
theorem instFRCALL_eq_ok {incr : ℤ} (valid : context.Valid) (fresh : answers.Fresh context)
    (success : context.instFRCALL answers = .ok (incr, after)) :
    after.Valid ∧
      ((context.HasRoom answers ∧
          after.states = ⟨context.counter + 1, 0, context.symboltable⟩ :: context.states) ∨
        (¬ context.HasRoom answers ∧ after.states = context.states)) := by
  simp only [instFRCALL, Outcome.bind_eq_ok, Except.ok.injEq, Prod.mk.injEq] at success
  rcases success with ⟨saved, saves, _, starts, _, rfl⟩
  rcases enterFrame_eq_ok valid fresh saves starts with ⟨validAfter, _, states⟩
  exact ⟨validAfter, states⟩

/-- Going on to the next instruction is what the instruction does, and its increment. -/
theorem advance_eq_ok {fuel : ℕ} {bytecode : Bytes} {instruction : Instruction}
    (notNOOP : instruction ≠ .NOOP)
    (success : context.advance fuel bytecode answers instruction = .ok after) :
    ∃ incr executed, context.execute fuel bytecode answers instruction = .ok (incr, executed) ∧
      incr ≠ 0 ∧ after = { executed with counter := sizeOfInt (context.counter + incr) } := by
  simp only [advance, if_neg notNOOP, Outcome.bind_eq_ok, Outcome.assertThat_eq_ok,
    Prod.exists, Except.ok.injEq] at success
  rcases success with ⟨incr, executed, executes, _, nonzero, rfl⟩
  exact ⟨incr, executed, executes, nonzero, rfl⟩

end VmContext

/-- The step executes an instruction. -/
def Executes (bytecode : Bytes) (source : VmContext) (event : VmEvent)
    (instruction : Instruction) : Prop :=
  ∃ answers, event = .instruction answers ∧ source.fetch bytecode = some instruction

/-- The answers that a step is given. -/
def VmEvent.answers : VmEvent → Answers
  | .instruction answers => answers
  | .signal answers _ => answers

namespace VmStep

open VmContext

variable {bytecode : Bytes} {source target : VmContext} {event : VmEvent}

/-- A step that executes an instruction other than `NOOP`. -/
theorem executes {instruction : Instruction} (step : VmStep bytecode source event target)
    (which : Executes bytecode source event instruction) (notNOOP : instruction ≠ .NOOP) :
    ∃ fuel incr executed,
      source.execute fuel bytecode event.answers instruction = .ok (incr, executed) ∧
      event.answers.Fresh source ∧
      target = { executed with counter := sizeOfInt (source.counter + incr) } := by
  rcases which with ⟨answers, rfl, fetched⟩
  rcases step with ⟨fresh, other, fuel, fetched', _, success⟩
  rcases Option.some.inj (fetched.symm.trans fetched') with rfl
  rcases advance_eq_ok notNOOP success with ⟨incr, executed, executes, _, rfl⟩
  exact ⟨fuel, incr, executed, executes, fresh, rfl⟩

/-- `RETURN` takes one state off the stack, and goes back to it. -/
theorem of_RETURN (valid : source.Valid) (step : VmStep bytecode source event target)
    (which : Executes bytecode source event .RETURN) :
    ∃ state, source.states = state :: target.states ∧ target.Valid ∧ target.flags = 0 ∧
      target.symboltable = state.symboltableTop ∧
      target.counter = sizeOfInt (source.counter + source.jump state.position) := by
  rcases step.executes which (by decide) with ⟨fuel, incr, executed, executes, _, rfl⟩
  rcases valid.counted with ⟨chain, counts⟩
  rcases instRETURN_eq_ok valid.stack counts executes with
    ⟨state, rest, states, stack, counted, _, _, flags, symboltable, distance⟩
  refine ⟨state, states, ⟨stack, rest, counted⟩, flags, symboltable, ?_⟩
  rw [distance]

/-- `CALL` puts the position behind it onto the stack, if there is room. -/
theorem of_CALL (valid : source.Valid) (step : VmStep bytecode source event target)
    (which : Executes bytecode source event .CALL) :
    target.Valid ∧ source.counter + 9 ≤ bytecode.length ∧
      ((source.HasRoom event.answers ∧
          target.states = ⟨source.counter + 9, 0, source.symboltable⟩ :: source.states) ∨
        (¬ source.HasRoom event.answers ∧ target.states = source.states)) := by
  rcases step.executes which (by decide) with ⟨fuel, incr, executed, executes, fresh, rfl⟩
  rcases instCALL_eq_ok valid fresh executes with ⟨validAfter, inside, states⟩
  exact ⟨validAfter.setCounter _, inside, states⟩

theorem of_FRCALL (valid : source.Valid) (step : VmStep bytecode source event target)
    (which : Executes bytecode source event .FRCALL) :
    target.Valid ∧
      ((source.HasRoom event.answers ∧
          target.states = ⟨source.counter + 1, 0, source.symboltable⟩ :: source.states) ∨
        (¬ source.HasRoom event.answers ∧ target.states = source.states)) := by
  rcases step.executes which (by decide) with ⟨fuel, incr, executed, executes, fresh, rfl⟩
  rcases instFRCALL_eq_ok valid fresh executes with ⟨validAfter, states⟩
  exact ⟨validAfter.setCounter _, states⟩

/-- A step goes on to another position, enters a frame, or returns. -/
theorem step_cases (step : VmStep bytecode source event target) :
    (∃ counter, target = { source with counter := counter }) ∨
      (event.answers.Fresh source ∧ ∃ position saved called flags counter,
        source.saveState event.answers position = .ok saved ∧
        saved.startScope event.answers = .ok called ∧
        target = { called with flags := flags, counter := counter }) ∨
      (Executes bytecode source event .RETURN ∧ ∃ fuel incr executed counter,
        source.instRETURN fuel = .ok (incr, executed) ∧
        target = { executed with counter := counter }) := by
  cases event with
  | signal answers handler =>
      rcases step with ⟨fresh, _, delivered⟩
      simp only [deliver, Outcome.bind_eq_ok, Except.ok.injEq] at delivered
      rcases delivered with ⟨saved, saves, called, starts, rfl⟩
      exact Or.inr (Or.inl ⟨fresh, _, saved, called, _, _, saves, starts, rfl⟩)
  | instruction answers =>
      have which := step
      rcases which with ⟨_, instruction, fuel, fetched, _, success⟩
      have which : Executes bytecode source (.instruction answers) instruction :=
        ⟨answers, rfl, fetched⟩
      by_cases isNOOP : instruction = .NOOP
      · rw [advance, if_pos isNOOP, Except.ok.injEq] at success
        exact Or.inl ⟨_, success.symm⟩
      rcases step.executes which isNOOP with ⟨fuel, incr, executed, executes, fresh, rfl⟩
      by_cases isRETURN : instruction = .RETURN
      · subst isRETURN
        exact Or.inr (Or.inr ⟨which, fuel, incr, executed, _, executes, rfl⟩)
      by_cases isCALL : instruction = .CALL
      · subst isCALL
        simp only [execute, instCALL, Outcome.bind_eq_ok, Except.ok.injEq, Prod.mk.injEq]
          at executes
        rcases executes with ⟨_, _, saved, saves, called, starts, _, rfl⟩
        exact Or.inr (Or.inl ⟨fresh, _, saved, called, _, _, saves, starts, rfl⟩)
      by_cases isFRCALL : instruction = .FRCALL
      · subst isFRCALL
        simp only [execute, instFRCALL, Outcome.bind_eq_ok, Except.ok.injEq, Prod.mk.injEq]
          at executes
        rcases executes with ⟨saved, saves, called, starts, _, rfl⟩
        exact Or.inr (Or.inl ⟨fresh, _, saved, called, _, _, saves, starts, rfl⟩)
      rcases execute_keepsFrame ⟨isCALL, isFRCALL, isRETURN⟩ executes with rfl
      exact Or.inl ⟨_, rfl⟩

/-- Every step leaves the saved states alone, saves one more, or returns to the last one saved. -/
theorem states_cases (valid : source.Valid) (step : VmStep bytecode source event target) :
    target.Valid ∧
      (target.states = source.states ∨ (∃ state, target.states = state :: source.states) ∨
        (Executes bytecode source event .RETURN ∧
          ∃ state, source.states = state :: target.states)) := by
  rcases step.step_cases with ⟨counter, rfl⟩ |
    ⟨fresh, position, saved, called, flags, counter, saves, starts, rfl⟩ |
    ⟨which, fuel, incr, executed, counter, executes, rfl⟩
  · exact ⟨valid.setCounter _, Or.inl rfl⟩
  · rcases enterFrame_eq_ok valid fresh saves starts with ⟨validAfter, _, states⟩
    refine ⟨⟨validAfter.stack, validAfter.counted⟩, ?_⟩
    rcases states with ⟨_, pushed⟩ | ⟨_, same⟩
    · exact Or.inr (Or.inl ⟨_, pushed⟩)
    · exact Or.inl same
  · rcases valid.counted with ⟨chain, counts⟩
    rcases instRETURN_eq_ok valid.stack counts executes with
      ⟨state, rest, states, stack, counted, _⟩
    exact ⟨⟨stack, rest, counted⟩, Or.inr (Or.inr ⟨which, state, states⟩)⟩

end VmStep

/-- `vm_execute` starts in a valid context. -/
theorem VmStarts.valid {context : VmContext} (starts : VmStarts context) : context.Valid := by
  rcases starts with ⟨answers, start, flags, entered⟩
  rcases Outcome.bind_eq_ok.mp entered with ⟨saved, saves, starts⟩
  exact (VmContext.enterFrame_eq_ok (VmContext.valid_init start flags) (fun _ => rfl) saves
    starts).1

end Dang
