import Dang.Machine.Calls

/-!
# The end of a context

What `vm_execute` does to the symbol tables at its end: one scope is ended, the saved
states are destroyed, and so is the table that is current then. A scope that is open
around these two keeps the reference that it was set up with.
-/

namespace Dang

namespace VmContext

/-- `vm_context_destroy`, as far as the symbol tables go. -/
def contextDestroy (context : VmContext) : Outcome Scopes := do
  let scopes ← context.returnStack.destroy VmState.functions context.scopes
  if context.symboltable = 0 then .ok scopes
  else do
    let (status, scopes) ← scopes.destroy context.symboltable
    .ok (if status = 0 then scopes.free context.symboltable else scopes)

/-- The end of `vm_execute`, from the label on. -/
def finish (context : VmContext) : Outcome Scopes :=
  if context.symboltable ≠ 0 then do
    let context ← context.endScope
    context.contextDestroy
  else context.contextDestroy

/-- The loop of `vm_execute` ends: behind the bytecode, or at an `END`. -/
def Ends (bytecode : Bytes) (context : VmContext) : Prop :=
  bytecode.length ≤ context.counter ∨ context.fetch bytecode = some .END

/-- The parent of a table, or null without a table. -/
def parent (context : VmContext) (address : ℕ) : ℕ :=
  ((context.scopes address).map Scope.parent).getD 0

/-- At most two scopes are open: the current one, and the one around it. -/
def Shallow (context : VmContext) : Prop :=
  context.parent (context.parent context.symboltable) = 0

instance (context : VmContext) : Decidable context.Shallow := inferInstanceAs (Decidable (_ = _))

/-- The open scopes of a context, the innermost first, are its tables in storage. -/
structure Encloses (context : VmContext) (chain : List ℕ) : Prop where
  stack : context.returnStack.Valid VmState.functions
  counted : Counted context.scopes (topsOf context.states) context.symboltable chain 0
  stored : ∀ address, address ∉ chain → context.scopes address = none

variable {context : VmContext} {chain : List ℕ}

theorem encloses_init (start : ℕ) (flags : Flags32) : (init start flags).Encloses [] where
  stack := Stack.valid_init (by decide)
  counted := .nil 0
  stored := fun _ _ => rfl

/-- Saving a state and starting a scope encloses the scopes that were open. -/
theorem Encloses.enterFrame {answers : Answers} {position : ℕ} {saved called : VmContext}
    (encloses : context.Encloses chain) (fresh : answers.Fresh context)
    (saves : context.saveState answers position = .ok saved)
    (starts : saved.startScope answers = .ok called) : ∃ chain, called.Encloses chain := by
  rcases saveState_eq_ok encloses.stack encloses.counted saves with
    ⟨stack, counted, _, _, unused, _⟩
  rcases startScope_eq_ok counted (fun nonzero => unused _ (fresh nonzero)) starts with
    ⟨_, sameStack, ⟨_, rfl⟩ | ⟨_, counted, unused'⟩⟩
  · refine ⟨chain, stack, counted, ?_⟩
    intro address outside
    exact unused address (encloses.stored address outside)
  · refine ⟨_, sameStack ▸ stack, counted, ?_⟩
    intro address outside
    simp only [List.mem_cons, not_or] at outside
    exact unused' address outside.1 (unused address (encloses.stored address outside.2))

/-- Every step leaves the tables in storage in a chain. -/
theorem Encloses.step {bytecode : Bytes} {event : VmEvent} {target : VmContext}
    (encloses : context.Encloses chain) (step : VmStep bytecode context event target) :
    ∃ chain, target.Encloses chain := by
  rcases step.step_cases with ⟨counter, rfl⟩ |
    ⟨fresh, position, saved, called, flags, counter, saves, starts, rfl⟩ |
    ⟨_, fuel, incr, executed, counter, executes, rfl⟩
  · exact ⟨chain, encloses.stack, encloses.counted, encloses.stored⟩
  · rcases encloses.enterFrame fresh saves starts with ⟨inner, stack, counted, stored⟩
    exact ⟨inner, stack, counted, stored⟩
  · rcases instRETURN_eq_ok encloses.stack encloses.counted executes with
      ⟨state, rest, _, stack, counted, gone, unused, _⟩
    refine ⟨rest, stack, counted, ?_⟩
    intro address outside
    by_cases mem : address ∈ chain
    · exact gone address mem outside
    · exact unused address (encloses.stored address mem)

/-- The scope of a context encloses nothing when its loop starts. -/
theorem encloses_of_starts (starts : VmStarts context) : ∃ chain, context.Encloses chain := by
  rcases starts with ⟨answers, start, flags, entered⟩
  rcases Outcome.bind_eq_ok.mp entered with ⟨saved, saves, starts⟩
  exact (encloses_init start flags).enterFrame (fun _ => rfl) saves starts

end VmContext

/-- What destroying a stack of saved states does: each gives its reference back. -/
def releaseStates (states : List VmState) (scopes : Scopes) : Outcome Scopes :=
  states.foldlM (fun scopes state => scopes.release state.symboltableTop) scopes

theorem destroy_states {stack : Stack VmState} (valid : stack.Valid VmState.functions)
    (scopes : Scopes) :
    stack.destroy VmState.functions scopes = releaseStates stack.contents scopes := by
  rw [Stack.destroy, Stack.destroyItems_eq _ valid.count_le, releaseStates]
  apply congrFun
  apply congrFun
  apply congrArg
  funext scopes state
  simp only [VmState.functions, VmState.destroy]
  cases scopes.release state.symboltableTop with
  | error fault => rfl
  | ok after => rfl

theorem gone_releaseStates {states : List VmState} {scopes after : Scopes} {address : ℕ}
    (success : releaseStates states scopes = .ok after) (gone : scopes.Gone address) :
    after.Gone address := by
  induction states generalizing scopes with
  | nil => exact Except.ok.inj success ▸ gone
  | cons state rest ih =>
      rw [releaseStates, List.foldlM_cons] at success
      rcases Outcome.bind_eq_ok.mp success with ⟨released, releases, later⟩
      exact ih later (Scopes.gone_release releases gone)

namespace Counted

variable {scopes : Scopes} {states : List VmState} {address : ℕ} {chain : List ℕ}

/-- Without the saved states, the open scopes are still counted. -/
theorem release_states {extra : ℕ}
    (counts : Counted scopes (topsOf states) address chain extra) :
    ∃ after, releaseStates states scopes = .ok after ∧ Counted after [] address chain extra := by
  induction states generalizing scopes with
  | nil => exact ⟨scopes, rfl, counts⟩
  | cons state rest ih =>
      rcases counts.release_state with ⟨released, releases, counts⟩
      rcases ih counts with ⟨after, later, counts⟩
      refine ⟨after, ?_, counts⟩
      rw [releaseStates, List.foldlM_cons, releases]
      exact later

/-- The storage of a destroyed table is freed, or left as it is. -/
def leave (reclaims : Bool) (address : ℕ) (scopes : Scopes) : Scopes :=
  if reclaims then scopes.free address else scopes

theorem gone_leave {reclaims : Bool} {other : ℕ} (gone : scopes.Gone other) :
    (leave reclaims address scopes).Gone other := by
  cases reclaims with
  | false => exact gone
  | true => exact Scopes.gone_free gone

/-- Where no saved state returns to the current scope, its table is destroyed at once. -/
theorem end_own_scope {parent : ℕ} (outer : Counted scopes (topsOf states) parent chain 1)
    (nonzero : address ≠ 0) (fresh : address ∉ chain)
    (live : scopes address = some ⟨parent, 1⟩) (reclaims : Bool) :
    ∃ ended after, scopes.destroy address = .ok (0, ended) ∧
      releaseStates states (leave reclaims address ended) = .ok after ∧
      after.Gone address ∧ Counted after [] parent chain 0 := by
  rcases outer.destroy_scope nonzero fresh live with ⟨ended, destroyed, gone, counted⟩
  have left : Counted (leave reclaims address ended) (topsOf states) parent chain 0 := by
    apply counted
    intro other apart
    cases reclaims with
    | false => rfl
    | true => exact Function.update_of_ne apart _ _
  rcases left.release_states with ⟨after, releases, counted⟩
  exact ⟨ended, after, destroyed, releases, gone_releaseStates releases (gone_leave gone), counted⟩

/-- Ending the current scope and destroying the saved states destroys its table. Where saved
states return to it, the last of them does. -/
theorem end_and_release (counts : Counted scopes (topsOf states) address chain 0)
    (nonzero : address ≠ 0) (reclaims : Bool) :
    ∃ parent references rest status ended after, chain = address :: rest ∧
      scopes address = some ⟨parent, references⟩ ∧ scopes.destroy address = .ok (status, ended) ∧
      releaseStates states (leave (reclaims && status = 0) address ended) = .ok after ∧
      after.Gone address ∧ Counted after [] parent rest 0 := by
  induction states generalizing scopes reclaims with
  | nil =>
      rcases counts.current_cases nonzero with ⟨parent, rest, rfl, fresh, live, outer⟩ | ⟨_, _, same⟩
      · rcases end_own_scope outer nonzero fresh live reclaims with
          ⟨ended, after, destroyed, releases, gone, counted⟩
        exact ⟨parent, 1, rest, 0, ended, after, rfl, live, destroyed, by simpa using releases, gone,
          counted⟩
      · simp [topsOf] at same
  | cons state states ih =>
      rcases counts.current_cases nonzero with
        ⟨parent, rest, rfl, fresh, live, outer⟩ | ⟨weight, tops, same⟩
      · rcases end_own_scope outer nonzero fresh live reclaims with
          ⟨ended, after, destroyed, releases, gone, counted⟩
        exact ⟨parent, 1, rest, 0, ended, after, rfl, live, destroyed, by simpa using releases, gone,
          counted⟩
      · rcases Prod.mk.inj (List.cons.inj same).1 with ⟨returns, _⟩
        rw [topsOf, List.map_cons, returns] at counts
        rcases counts.destroy_shared nonzero with
          ⟨parent, references, live, destroyed, counted⟩
        -- the state's own reference then takes the place of the scope's
        rcases ih counted false with
          ⟨_, _, rest, status, ended, after, rfl, live', destroyed', releases, gone, counted'⟩
        rw [setReferences_self references live, Option.some.injEq, Scope.mk.injEq] at live'
        refine ⟨parent, _, rest, -1, _, after, rfl, live, destroyed, ?_, gone, live'.1 ▸ counted'⟩
        have released : (scopes.setReferences address references).release address = .ok ended := by
          rw [Scopes.release, if_neg nonzero, destroyed']
          rfl
        rw [releaseStates, List.foldlM_cons, returns]
        simpa [leave, released, releaseStates] using releases

end Counted

namespace VmContext

variable {context : VmContext} {chain : List ℕ}

/-- Without saved states, the current table is destroyed, and its storage freed. -/
theorem destroy_last {scopes : Scopes} {address : ℕ} (nonzero : address ≠ 0)
    (counts : Counted scopes [] address chain 0) :
    ∃ parent rest ended, chain = address :: rest ∧ scopes.destroy address = .ok (0, ended) ∧
      (ended.free address).Gone address ∧ Counted (ended.free address) [] parent rest 0 := by
  rcases counts.current_cases nonzero with ⟨parent, rest, rfl, fresh, live, outer⟩ | ⟨_, _, same⟩
  · rcases outer.destroy_scope nonzero fresh live with ⟨ended, destroyed, gone, counted⟩
    refine ⟨parent, rest, ended, rfl, destroyed, Scopes.gone_free gone, counted _ ?_⟩
    intro other apart
    exact Function.update_of_ne apart _ _
  · contradiction

/-- The end of `vm_execute` destroys the two innermost scopes and leaves the others. -/
theorem Encloses.finish_eq_ok (encloses : context.Encloses chain) :
    ∃ scopes, context.finish = .ok scopes ∧
      ∀ address, scopes.Gone address ↔ address ∉ chain.drop 2 := by
  rcases Nat.eq_zero_or_pos context.symboltable with zero | positive
  · rcases encloses.counted.chain_cases with ⟨_, rfl⟩ | ⟨nonzero, _⟩
    · rcases encloses.counted.release_states with ⟨after, releases, _⟩
      refine ⟨after, ?_, ?_⟩
      · simp [finish, contextDestroy, zero, destroy_states encloses.stack, releases]
      · intro address
        have unused := encloses.stored address List.not_mem_nil
        simp [gone_releaseStates releases (Scopes.gone_of_eq_none unused)]
    · exact absurd zero nonzero
  · have nonzero := Nat.ne_of_gt positive
    rcases encloses.counted.end_and_release nonzero true with
      ⟨parent, references, rest, status, ended, after, rfl, live, destroyed, releases, gone,
        counted⟩
    have endScope : context.endScope = .ok { context with
        symboltable := parent
        scopes := Counted.leave (true && status = 0) context.symboltable ended } := by
      rw [VmContext.endScope, Outcome.assertThat_of nonzero, Outcome.ok_bind,
        Counted.read_of nonzero live, Outcome.ok_bind, destroyed]
      simp [Counted.leave]
    have keeps : ∀ address, context.scopes.Gone address → after.Gone address := by
      intro address gone
      exact gone_releaseStates releases (Counted.gone_leave (Scopes.gone_destroy destroyed gone))
    have outside : ∀ address, address ∉ rest → after.Gone address := by
      intro address apart
      by_cases current : address = context.symboltable
      · exact current ▸ gone
      · apply keeps
        apply Scopes.gone_of_eq_none
        apply encloses.stored
        simp [current, apart]
    rw [finish, if_pos nonzero, endScope, Outcome.ok_bind, contextDestroy,
      destroy_states encloses.stack, releases, Outcome.ok_bind]
    by_cases noParent : parent = 0
    · rcases counted.chain_cases with ⟨_, rfl⟩ | ⟨nonzero', _⟩
      · refine ⟨after, if_pos noParent, ?_⟩
        intro address
        simp [outside address List.not_mem_nil]
      · exact absurd noParent nonzero'
    · rcases destroy_last noParent counted with
        ⟨grandparent, outer, ended', rfl, destroyed', gone', counted'⟩
      refine ⟨ended'.free parent, ?_, ?_⟩
      · rw [if_neg noParent, destroyed']
        rfl
      · intro address
        constructor
        · intro isGone mem
          exact counted'.not_gone_of_mem mem isGone
        · intro apart
          by_cases isParent : address = parent
          · exact isParent ▸ gone'
          · apply Scopes.gone_free
            apply Scopes.gone_destroy destroyed'
            apply outside
            simpa [isParent] using apart

theorem Encloses.parent_zero (encloses : context.Encloses chain) : context.parent 0 = 0 := by
  have outside : 0 ∉ chain := fun mem => encloses.counted.ne_zero_of_mem mem rfl
  simp [parent, encloses.stored 0 outside]

/-- A context is shallow if and only if at most two scopes are open. -/
theorem Encloses.shallow_iff (encloses : context.Encloses chain) :
    context.Shallow ↔ chain.drop 2 = [] := by
  unfold Shallow
  rcases Nat.eq_zero_or_pos context.symboltable with zero | positive
  · have empty := encloses.counted.eq_nil_iff.mp zero
    simp [zero, encloses.parent_zero, empty]
  · rcases encloses.counted.enclosing (Nat.ne_of_gt positive) with
      ⟨first, _, rest, rfl, live, _, _, counted⟩
    have parent : context.parent context.symboltable = first := by simp [VmContext.parent, live]
    rw [parent, List.drop_succ_cons]
    rcases Nat.eq_zero_or_pos first with rfl | positive'
    · simp [encloses.parent_zero, counted.eq_nil_iff.mp rfl]
    · rcases counted.enclosing (Nat.ne_of_gt positive') with
        ⟨second, _, outer, rfl, live', _, _, counted'⟩
      have parent' : context.parent first = second := by simp [VmContext.parent, live']
      rw [parent', List.drop_succ_cons, List.drop_zero]
      exact counted'.eq_nil_iff

end VmContext

end Dang
