import Dang.Machine.Branches
import Dang.Machine.Finish

/-!
# Open calls

A context in which every call has found room for its frame and storage for its symbol table. Each
saved state then returns to the table of the call around it, so that the open calls and the open
scopes are one list, and returning takes one of them away.
-/

namespace Dang

/-- The table that each of some nested calls returns to. -/
def outerScopes : List ℕ → List ℕ
  | [] => []
  | _ :: rest => rest.headD 0 :: outerScopes rest

@[simp]
theorem length_outerScopes (chain : List ℕ) : (outerScopes chain).length = chain.length := by
  induction chain with
  | nil => rfl
  | cons table rest ih => rw [outerScopes, List.length_cons, List.length_cons, ih]

/-- The open calls of a context are these, each with its own table. -/
structure VmContext.Open (context : VmContext) (chain : List ℕ) : Prop
    extends context.Encloses chain where
  tops : context.states.map VmState.symboltableTop = outerScopes chain

namespace VmContext.Open

variable {context : VmContext} {chain : List ℕ} {answers : Answers} {position table : ℕ}

theorem valid (isOpen : context.Open chain) : context.Valid :=
  ⟨isOpen.stack, chain, isOpen.counted⟩

/-- The current table is that of the innermost call. -/
theorem symboltable (isOpen : context.Open chain) : context.symboltable = chain.headD 0 := by
  rcases isOpen.counted.chain_cases with ⟨zero, rfl⟩ | ⟨_, rest, rfl, _⟩
  · exact zero
  · rfl

theorem setCounter (isOpen : context.Open chain) (counter : ℕ) :
    ({ context with counter := counter } : VmContext).Open chain where
  stack := isOpen.stack
  counted := isOpen.counted
  stored := isOpen.stored
  tops := isOpen.tops

theorem setFlags (isOpen : context.Open chain) (flags : Flags32) :
    ({ context with flags := flags } : VmContext).Open chain where
  stack := isOpen.stack
  counted := isOpen.counted
  stored := isOpen.stored
  tops := isOpen.tops

/-- A table that is not one of the open calls' is not in use. -/
theorem fresh_iff (isOpen : context.Open chain) (nonzero : answers.table ≠ 0) :
    answers.Fresh context ↔ answers.table ∉ chain := by
  refine ⟨?_, ?_⟩
  · intro fresh mem
    exact isOpen.counted.live_of_mem mem (fresh nonzero)
  · intro outside _
    exact isOpen.stored _ outside

/-- Before its first call a context has none open. -/
theorem init (start : ℕ) (flags : Flags32) : (VmContext.init start flags).Open [] where
  toEncloses := VmContext.encloses_init start flags
  tops := rfl

/-- A call with room for its frame and storage for its table opens one. -/
theorem enter {saved called : VmContext} (isOpen : context.Open chain)
    (fresh : answers.Fresh context) (nonzero : answers.table ≠ 0)
    (room : context.HasRoom answers) (saves : context.saveState answers position = .ok saved)
    (starts : saved.startScope answers = .ok called) :
    called.Open (answers.table :: chain) ∧
      called.states = ⟨position, 0, chain.headD 0⟩ :: context.states ∧
      called.counter = context.counter := by
  rcases saveState_eq_ok isOpen.stack isOpen.counted saves with
    ⟨stack, counted, counter, _, unused, ⟨_, states⟩ | ⟨refused, _⟩⟩
  · rcases startScope_eq_ok counted (fun nonzero => unused _ (fresh nonzero)) starts with
      ⟨counter', sameStack, ⟨zero, _⟩ | ⟨_, counted', unused'⟩⟩
    · exact absurd zero nonzero
    · have calledStates : called.states = ⟨position, 0, chain.headD 0⟩ :: context.states := by
        rw [VmContext.states, sameStack, ← isOpen.symboltable]
        exact states
      refine ⟨⟨⟨sameStack ▸ stack, counted', ?_⟩, ?_⟩, calledStates, counter'.trans counter⟩
      · intro address outside
        simp only [List.mem_cons, not_or] at outside
        exact unused' address outside.1 (unused address (isOpen.stored address outside.2))
      · rw [calledStates, List.map_cons, isOpen.tops]
        rfl
  · exact absurd room refused

/-- Calls are always answered. -/
theorem exists_enter (isOpen : context.Open chain) (fresh : answers.Fresh context)
    (position : ℕ) :
    ∃ saved called, context.saveState answers position = .ok saved ∧
      saved.startScope answers = .ok called := by
  rcases isOpen.valid.exists_saveState answers position with ⟨saved, saves⟩
  rcases saveState_eq_ok isOpen.stack isOpen.counted saves with ⟨stack, counts, _, _, unused, _⟩
  have validSaved : saved.Valid := ⟨stack, chain, counts⟩
  have freshSaved : answers.Fresh saved := fun nonzero => unused _ (fresh nonzero)
  rcases validSaved.exists_startScope freshSaved with ⟨called, starts⟩
  exact ⟨saved, called, saves, starts⟩

/-- With ample storage there is room for a frame, unless calls are nested deeper than storage can
be addressed. -/
theorem hasRoom (isOpen : context.Open chain) (ample : answers.memory = .ample)
    (shallow : chain.length < 2 ^ 58) : context.HasRoom answers := by
  have depth : context.returnStack.count = chain.length := by
    have lengths := congrArg List.length isOpen.tops
    rw [List.length_map, length_outerScopes, VmContext.states,
      Stack.length_contents isOpen.stack] at lengths
    exact lengths
  have grown := nextupow2_le (x := context.returnStack.count + 1) (by omega) (by omega)
  rw [VmContext.HasRoom, Stack.HasRoom, Stack.reserve, ample]
  split
  · rfl
  · have supplied : nextupow2 (context.returnStack.count + 1) * 24 ≤ sizeMax := by
      unfold sizeMax
      omega
    rw [if_pos]
    exact decide_eq_true supplied

/-- Ending the scope of the innermost call is all that `inst_RETURN` does about scopes: its loop
goes round once. -/
theorem endScopes_of {top : ℕ} {tops : Tops}
    (counts : Counted context.scopes ((top, 0) :: tops) context.symboltable (table :: chain) 0)
    (outer : top = chain.headD 0) (fuel : ℕ) :
    ∃ after, (∀ more, endScopes top (fuel + 2 + more) context = .ok after) ∧
      Counted after.scopes tops after.symboltable chain 0 ∧
      (∀ address, address = table ∨ context.scopes address = none →
        after.scopes address = none) ∧
      after.flags = context.flags ∧ after.counter = context.counter ∧
      after.returnStack = context.returnStack := by
  rcases counts.chain_cases with ⟨_, impossible⟩ | ⟨nonzero, rest, same, outside⟩
  · cases impossible
  · rw [List.cons.injEq] at same
    rcases same with ⟨isTable, rfl⟩
    have apart : context.symboltable ≠ top := by
      intro same
      rw [outer] at same
      cases chain with
      | nil => exact nonzero same
      | cons head rest => exact outside (same ▸ List.mem_cons_self)
    rcases endScope_eq_ok counts nonzero apart with
      ⟨ended, others, ends, sameChain, counted, gone, unused, flags, counter, stack⟩
    rw [List.cons.injEq] at sameChain
    rcases sameChain.2 with rfl
    have atTop : ended.symboltable = top := by
      rw [outer]
      rcases counted.chain_cases with ⟨zero, rfl⟩ | ⟨_, rest, rfl, _⟩
      · exact zero
      · rfl
    refine ⟨ended, ?_, ?_, ?_, flags, counter, stack⟩
    · intro more
      have rounds : fuel + 2 + more = fuel + more + 1 + 1 := by omega
      rw [rounds, endScopes, if_pos ⟨nonzero, apart⟩, ends, Outcome.ok_bind, endScopes, if_neg]
      exact fun inside => inside.2 atTop
    · rw [atTop] at counted ⊢
      exact counted.returned
    · rintro address (rfl | free)
      · rw [isTable]
        exact gone
      · exact unused address free

/-- Returning goes back to the position of the innermost state, and to the call around it. -/
theorem returns {state : VmState} {rest : List VmState} (isOpen : context.Open (table :: chain))
    (states : context.states = state :: rest) :
    ∃ after, (∀ fuel, context.instRETURN (fuel + 2) = .ok (context.jump state.position, after)) ∧
      after.Open chain ∧ after.states = rest ∧ after.counter = context.counter := by
  have tops := isOpen.tops
  rw [states, List.map_cons, outerScopes, List.cons.injEq] at tops
  have counts := isOpen.counted
  rw [states] at counts
  rcases counts.retain_top with ⟨copied, copies, counts⟩
  rcases counts.release_top with ⟨dropped, drops, counts⟩
  rcases counts.release_top with ⟨released, releases, counts⟩
  have clears : Stack.Clears VmState.functions := by
    intro item heap slot after destroyed
    rcases Outcome.bind_eq_ok.mp destroyed with ⟨_, _, same⟩
    exact (Prod.mk.inj (Except.ok.inj same)).1.symm
  have moved : Stack.moveItems VmState.functions ([VmState.functions.zero].zip [state])
      context.scopes = .ok ([⟨state.position, 0, state.symboltableTop⟩], dropped) := by
    simp [Stack.moveItems, VmState.functions, VmState.clone, VmState.destroy, copies, drops]
  have split : context.returnStack.contents = [state] ++ rest := states
  have popped : ∃ next, context.returnStack.pop VmState.functions [VmState.functions.zero]
      context.scopes = .ok ([⟨state.position, 0, state.symboltableTop⟩], next, dropped) ∧
      next.contents = rest ∧ next.Valid VmState.functions := by
    apply Stack.pop_of clears isOpen.stack split
    · exact Nat.one_pos
    · rfl
    · exact moved
  rcases popped with ⟨next, pops, contents, validNext⟩
  rcases @endScopes_of { context with flags := 0, returnStack := next, scopes := released }
      _ _ _ _ counts tops.1 0 with
    ⟨after, ends, counted, unused, flags, counter, stack⟩
  have afterStates : after.states = rest := by
    rw [VmContext.states, stack]
    exact contents
  refine ⟨after, ?_, ⟨⟨stack ▸ validNext, afterStates ▸ counted, ?_⟩, ?_⟩, afterStates, counter⟩
  · intro fuel
    have rounds : fuel + 2 = 0 + 2 + fuel := by omega
    simp only [instRETURN, pops, Outcome.ok_bind, List.headD_cons, VmState.destroy, releases, rounds,
      ends, jump, counter]
  · intro address outside
    by_cases isTable : address = table
    · exact unused address (Or.inl isTable)
    · apply unused address
      right
      have free := isOpen.stored address (by simp [isTable, outside])
      exact Scopes.release_eq_none releases
        (Scopes.release_eq_none drops (Scopes.retain_eq_none copies free))
  · rw [afterStates]
    exact tops.2

end VmContext.Open

end Dang
