import Dang.Assembler.Agreement
import Dang.Machine.Frames

/-!
# Branches

Where a branch goes to that the assembler has stored: the offset or the position of a label is
read back from the bytecode, returned as an `int` and added to the counter. Returning zero trips
an assertion, so a branch must not lead to itself.
-/

namespace Dang

namespace VmContext

variable {context : VmContext} {answers : Answers}

/-- Saving a state returns, whether or not there is room for it. -/
theorem Valid.exists_saveState (valid : context.Valid) (answers : Answers) (position : ℕ) :
    ∃ after, context.saveState answers position = .ok after := by
  rcases valid.counted with ⟨chain, counts⟩
  rcases counts.retain_current with ⟨initial, inits, counts⟩
  by_cases room : context.returnStack.HasRoom VmState.functions answers.memory
  · rcases counts.retain_current with ⟨copied, copies, counts⟩
    rcases counts.release_current with ⟨released, releases, counts⟩
    have copy : Stack.copyItems VmState.functions
        [⟨position, context.flags, context.symboltable⟩].reverse initial =
          .ok ([⟨position, 0, context.symboltable⟩], copied) := by
      simp [Stack.copyItems, VmState.functions, VmState.clone, copies]
    have object : 1 * VmState.functions.size ≤ sizeMax := by decide
    have some : 0 < [(⟨position, context.flags, context.symboltable⟩ : VmState)].length :=
      Nat.one_pos
    rcases Stack.push_of valid.stack (by decide) some object room copy with ⟨next, pushed, _, _⟩
    refine ⟨{ context with returnStack := next, scopes := released }, ?_⟩
    simp [saveState, VmState.init, VmState.destroy, inits, pushed, releases]
  · rcases counts.release_current with ⟨released, releases, counts⟩
    have refused := Stack.reserve_refused room
    refine ⟨{ context with scopes := released }, ?_⟩
    simp [saveState, VmState.init, VmState.destroy, inits, Stack.push, Outcome.assertThat, refused,
      releases]

/-- Starting a scope returns. -/
theorem Valid.exists_startScope (valid : context.Valid) (fresh : answers.Fresh context) :
    ∃ after, context.startScope answers = .ok after := by
  rcases valid.counted with ⟨chain, counts⟩
  unfold startScope
  split
  case isTrue => exact ⟨context, rfl⟩
  case isFalse nonzero =>
    rcases counts.init_table nonzero (fresh nonzero) with ⟨scopes, inits, _⟩
    exact ⟨_, Outcome.bind_eq_ok.mpr ⟨scopes, inits, rfl⟩⟩

/-- A call returns the distance to where its operand says. -/
theorem Valid.instCALL_of {bytecode : Bytes} {jumpDest : ℕ} (valid : context.Valid)
    (fresh : answers.Fresh context)
    (reads : loadNumber bytecode (context.counter + 1) 8 = .ok jumpDest) :
    ∃ called, context.instCALL bytecode answers = .ok (context.jump jumpDest, called) := by
  rcases valid.counted with ⟨chain, counts⟩
  rcases valid.exists_saveState answers (context.counter + 1 + 8) with ⟨saved, saves⟩
  rcases saveState_eq_ok valid.stack counts saves with ⟨stack, counts, counter, _, unused, _⟩
  have validSaved : saved.Valid := ⟨stack, chain, counts⟩
  have freshSaved : answers.Fresh saved := fun nonzero => unused _ (fresh nonzero)
  rcases validSaved.exists_startScope freshSaved with ⟨called, starts⟩
  rcases startScope_eq_ok counts freshSaved starts with ⟨counter', _, _⟩
  refine ⟨called, ?_⟩
  simp [instCALL, reads, saves, starts, jump, counter', counter]

/-- Going on from an instruction that returns something else than zero. -/
theorem advance_of {fuel : ℕ} {bytecode : Bytes} {instruction : Instruction} {incr : ℤ}
    {executed : VmContext} (notNOOP : instruction ≠ .NOOP)
    (returns : context.execute fuel bytecode answers instruction = .ok (incr, executed))
    (nonzero : incr ≠ 0) : context.advance fuel bytecode answers instruction =
      .ok { executed with counter := sizeOfInt (context.counter + incr) } := by
  rw [advance, if_neg notNOOP]
  refine Outcome.bind_eq_ok.mpr ⟨(incr, executed), returns, ?_⟩
  exact Outcome.bind_eq_ok.mpr ⟨(), Outcome.assertThat_of nonzero, rfl⟩

end VmContext

/-- A line with the instruction and these parameters branches to the label. -/
inductive BranchesTo (label : LabelName) : Instruction → List SourceParam → Prop
  | jump {instruction : Instruction} (rest : List SourceParam)
      (kind : instruction = .JMP ∨ instruction = .JMP0 ∨ instruction = .JMPU) :
      BranchesTo label instruction (.labelOff label :: rest)
  | call (rest : List SourceParam) : BranchesTo label .CALL (.labelLoc label :: rest)

/-- Wherever `vm_execute` takes the branch at a position, the assertion holds and the counter is
the target next. -/
def Lands (bytecode : Bytes) (instruction : Instruction) (position target : ℕ) : Prop :=
  ∀ (context : VmContext) (answers : Answers) (fuel : ℕ), context.Valid →
    answers.Fresh context → context.counter = position → answers.branches = true →
    context.fetch bytecode = some instruction ∧
      ∃ after, context.advance fuel bytecode answers instruction = .ok after ∧
        after.counter = target

section Landing

variable {bytecode : Bytes} {instruction : Instruction} {position target : ℕ}

/-- Answers to a context that has no storage left and takes each branch. -/
def branching : Answers where
  memory := .exhausted
  table := 0
  branches := true
  function := 0
  fills := false

theorem intOfSize_zero : intOfSize 0 = 0 := by
  unfold intOfSize
  simp only [Nat.cast_zero, Int.zero_bmod]

theorem sizeSub_self (fits : target < 2 ^ 64) : sizeSub target target = 0 := by
  rw [sizeSub_eq (Nat.le_refl target) fits, Nat.sub_self]

/-- A branch that returns the distance to its target lands there exactly if that is neither zero
nor too large for an `int`. -/
theorem lands_iff_of_execute (notNOOP : instruction ≠ .NOOP) (positionFits : position < 2 ^ 64)
    (targetFits : target < 2 ^ 64)
    (fetches : ∀ context : VmContext, context.counter = position →
      context.fetch bytecode = some instruction)
    (executes : ∀ (context : VmContext) (answers : Answers) (fuel : ℕ), context.Valid →
      answers.Fresh context → context.counter = position → answers.branches = true →
      ∃ after, context.execute fuel bytecode answers instruction =
        .ok (intOfSize (sizeSub target position), after)) :
    Lands bytecode instruction position target ↔
      target ≠ position ∧ FitsInt (sizeSub target position) := by
  have distance := sizeOfInt_add_distance position target positionFits targetFits
  have nowhere : intOfSize (sizeSub target position) = 0 → FitsInt (sizeSub target position) →
      target = position := by
    intro zero fits
    have arrives := distance.mpr fits
    rw [zero, Int.add_zero, sizeOfInt_natCast positionFits] at arrives
    exact arrives.symm
  constructor
  · intro lands
    rcases lands (VmContext.init position 0) branching 0 (VmContext.valid_init position 0)
      (fun _ => rfl) rfl rfl with ⟨_, after, advances, arrives⟩
    rcases VmContext.advance_eq_ok notNOOP advances with ⟨incr, executed, returns, nonzero, rfl⟩
    rcases executes (VmContext.init position 0) branching 0 (VmContext.valid_init position 0)
      (fun _ => rfl) rfl rfl with ⟨other, returns'⟩
    rw [returns', Except.ok.injEq, Prod.mk.injEq] at returns
    rcases returns with ⟨rfl, rfl⟩
    simp only [VmContext.init] at arrives
    refine ⟨?_, distance.mp arrives⟩
    intro same
    rw [same, sizeSub_self positionFits] at nonzero
    exact nonzero intOfSize_zero
  · rintro ⟨apart, fits⟩ context answers fuel valid fresh here taken
    rcases executes context answers fuel valid fresh here taken with ⟨executed, returns⟩
    have nonzero : intOfSize (sizeSub target position) ≠ 0 := fun zero => apart (nowhere zero fits)
    have arrives := distance.mpr fits
    generalize intOfSize (sizeSub target position) = incr at returns nonzero arrives
    refine ⟨fetches context here, _, VmContext.advance_of notNOOP returns nonzero, ?_⟩
    rw [here]
    exact arrives

end Landing

section Source

variable {source : List SourceLine} {output : AssemblerOutput} {lines : List Line} {len : ℕ}
  {entry : Placed} {instruction : Instruction} {params : List SourceParam} {label : LabelName}
  {last : Option Bytes}

/-- The line that defines a label, in an accepted program. -/
theorem Accepted.definition_unique (accepted : Accepted lines output len) {first second : Placed}
    {key : Bytes} (memFirst : first ∈ place 1 lines) (memSecond : second ∈ place 1 lines)
    (definesFirst : first.line.label = some key) (definesSecond : second.line.label = some key) :
    first = second := by
  have labels := accepted.nodup
  rw [defined, ← map_line_place 1 lines, List.filterMap_map, List.Nodup,
    List.pairwise_filterMap] at labels
  rcases List.getElem_of_mem memFirst with ⟨i, _, rfl⟩
  rcases List.getElem_of_mem memSecond with ⟨j, _, rfl⟩
  have differ := List.pairwise_iff_getElem.mp labels
  rcases Nat.lt_trichotomy i j with before | rfl | after
  · exact absurd rfl (differ i j _ _ before key definesFirst key definesSecond)
  · rfl
  · exact absurd rfl (differ j i _ _ after key definesSecond key definesFirst)

/-- A branch stores the way to the line that defines its label. -/
theorem Accepted.load_branch (accepted : Accepted lines output len) (mem : entry ∈ place 1 lines)
    (given : entry.line.instruction = some instruction)
    (written : entry.line.params = params.map (SourceParam.parse last))
    (branches : BranchesTo label instruction params) :
    ∃ definition ∈ place 1 lines, definition.line.label = some (label.parse last) ∧
      output.bytecode[entry.position]? = some instruction.opcode ∧
      loadNumber output.bytecode (entry.position + 1) 8 =
        .ok (if instruction = .CALL then definition.position
          else sizeSub definition.position entry.position) := by
  rcases accepted.load_line mem given with ⟨block, operands, encodes, fits, loaded⟩
  have opcode : output.bytecode[entry.position]? = some instruction.opcode := by
    have taken := congrArg (fun bytes : Bytes => bytes[0]?) (Buffer.load_eq_ok.mp loaded).2
    simp only [List.cons_append, List.getElem?_cons_zero] at taken
    rw [List.getElem?_take_of_lt (by omega), List.getElem?_drop, Nat.add_zero] at taken
    exact taken.symm
  have word : ∀ stored, block = littleEndian 8 stored → stored < 256 ^ 8 →
      loadNumber output.bytecode (entry.position + 1) 8 = .ok stored := by
    intro stored shape small
    have shaped : Buffer.load output.bytecode entry.position entry.length =
        .ok ([instruction.opcode] ++ littleEndian 8 stored ++
          List.replicate (entry.length - (1 + block.length)) Instruction.NOOP.opcode) := by
      rw [loaded, shape]
      rfl
    have read := loadNumber_littleEndian 8 stored shaped
    rw [Nat.mod_eq_of_lt small] at read
    exact read
  have defines : ∀ target, labelPosition (place 1 lines) (label.parse last) = some target →
      ∃ definition ∈ place 1 lines, definition.line.label = some (label.parse last) ∧
        definition.position = target ∧ target < 2 ^ 64 := by
    intro target found
    have small := accepted.labelPosition_lt found
    rcases Option.map_eq_some_iff.mp found with ⟨definition, isFirst, rfl⟩
    have matched := List.find?_some isFirst
    exact ⟨definition, List.mem_of_find?_eq_some isFirst, of_decide_eq_true matched, rfl, small⟩
  rw [written] at encodes
  cases branches with
  | jump rest kind =>
      have notCALL : instruction ≠ .CALL := by
        rcases kind with rfl | rfl | rfl <;> decide
      rw [List.map_cons, SourceParam.parse] at encodes
      cases encodes with
      | offset key rest kind found =>
          rcases defines _ found with ⟨definition, memDefinition, atLabel, rfl, small⟩
          refine ⟨definition, memDefinition, atLabel, opcode, ?_⟩
          rw [if_neg notCALL]
          exact word _ rfl (Nat.mod_lt _ (by decide))
      | symclone => rcases kind with kind | kind | kind <;> cases kind
      | plain params none => rcases kind with rfl | rfl | rfl <;> cases none
  | call rest =>
      rw [List.map_cons, SourceParam.parse] at encodes
      cases encodes with
      | handle key rest kind found =>
          rcases defines _ found with ⟨definition, memDefinition, atLabel, rfl, small⟩
          refine ⟨definition, memDefinition, atLabel, opcode, ?_⟩
          rw [if_pos rfl]
          exact word _ rfl small
      | plain params none => cases none

/-- The position of a line of the source, and the one of the line that defines a label which is
named there. -/
def IsWay (source : List SourceLine) (index : ℕ) (label : LabelName) (position target : ℕ) : Prop :=
  ∃ entry definition, (place 1 (parse none source))[index]? = some entry ∧
    definition ∈ place 1 (parse none source) ∧
    definition.line.label = some (label.parse (lastLabelDefined none (source.take (index + 1)))) ∧
    position = entry.position ∧ target = definition.position

/-- In an accepted program there is one way from each branch to its label, and the branch lands
there exactly if it does not lead to itself and is not too long for an `int`. -/
theorem lands_iff_apart {index : ℕ} {line : SourceLine}
    (accepted : assemble (parse none source) = .ok (some output))
    (given : source[index]? = some line) (written : line.inst = some (instruction, params))
    (branches : BranchesTo label instruction params) :
    ∃ position target, IsWay source index label position target ∧
      (∀ position' target', IsWay source index label position' target' →
        position' = position ∧ target' = target) ∧
      (Lands output.bytecode instruction position target ↔
        target ≠ position ∧ FitsInt (sizeSub target position)) := by
  rcases accepted_of_assemble accepted with ⟨len, accepted⟩
  rcases exists_placed given written with ⟨entry, placed, lineInstruction, lineParams⟩
  have mem := List.mem_of_getElem? placed
  rcases accepted.load_branch mem lineInstruction lineParams branches with
    ⟨definition, memDefinition, defines, opcode, reads⟩
  refine ⟨entry.position, definition.position,
    ⟨entry, definition, placed, memDefinition, defines, rfl, rfl⟩, ?_, ?_⟩
  · rintro _ _ ⟨other, otherDefinition, otherPlaced, memOther, definesOther, rfl, rfl⟩
    rcases Option.some.inj (placed.symm.trans otherPlaced) with rfl
    rw [accepted.definition_unique memOther memDefinition definesOther defines]
    exact ⟨rfl, rfl⟩
  · have room := accepted.fits
    have inside := accepted.inside mem
    have insideDefinition := accepted.inside memDefinition
    unfold sizeofAssemblerOutput sizeMax at room
    apply lands_iff_of_execute
    · cases branches with
      | jump rest kind => rcases kind with rfl | rfl | rfl <;> decide
      | call rest => decide
    · omega
    · omega
    · intro context here
      rw [VmContext.fetch, here, opcode]
      exact Instruction.ofOpcode_opcode instruction
    · intro context answers fuel valid fresh here taken
      rw [← here] at reads
      cases branches with
      | jump rest kind =>
          refine ⟨context, ?_⟩
          rw [← here]
          rcases kind with rfl | rfl | rfl
          · simp [VmContext.execute, reads]
          · simp [VmContext.execute, reads, taken]
          · simp [VmContext.execute, reads, taken]
      | call rest =>
          rcases valid.instCALL_of fresh reads with ⟨called, returns⟩
          refine ⟨called, ?_⟩
          rw [← here]
          exact returns

end Source

section Examples

/-- `main` -/
def mainName : Name := ⟨109, [97, 105, 110], by decide, by simp [isalnum, isalpha]⟩

/-- `main: NOOP` and `JMP ~main`. -/
def loopSource : List SourceLine :=
  [⟨.primOnly mainName, some (.NOOP, [])⟩, ⟨.empty, some (.JMP, [.labelOff (.primOnly mainName)])⟩]

/-- The bytecode of the loop. -/
def loopOutput : AssemblerOutput :=
  ⟨1, [0, 1, 1, 15, 254, 255, 255, 255, 255, 255, 255, 255, 0]⟩

theorem lands_iff_apart_loop :
    ∃ position target, IsWay loopSource 1 (.primOnly mainName) position target ∧
      (∀ position' target', IsWay loopSource 1 (.primOnly mainName) position' target' →
        position' = position ∧ target' = target) ∧
      (Lands loopOutput.bytecode .JMP position target ↔
        target ≠ position ∧ FitsInt (sizeSub target position)) :=
  lands_iff_apart (by decide) rfl rfl (.jump [] (Or.inl rfl))

/-- `main: JMP ~main` -/
def selfSource : List SourceLine :=
  [⟨.primOnly mainName, some (.JMP, [.labelOff (.primOnly mainName)])⟩]

/-- Its bytecode, with an offset of zero. -/
def selfOutput : AssemblerOutput := ⟨3, [0, 1, 1, 15, 0, 0, 0, 0, 0, 0, 0, 0, 0]⟩

/-- A line that branches to itself is accepted, and trips the assertion. -/
theorem self_not_lands :
    assemble (parse none selfSource) = .ok (some selfOutput) ∧
      IsWay selfSource 0 (.primOnly mainName) 3 3 ∧ ¬ Lands selfOutput.bytecode .JMP 3 3 := by
  refine ⟨by decide, ⟨_, _, rfl, List.mem_singleton_self _, rfl, rfl, rfl⟩, ?_⟩
  intro lands
  rcases lands (VmContext.init 3 0) branching 0 (VmContext.valid_init 3 0) (fun _ => rfl) rfl rfl
    with ⟨_, after, advances, _⟩
  rcases VmContext.advance_eq_ok (by decide) advances with ⟨incr, executed, returns, nonzero, _⟩
  have reads : loadNumber selfOutput.bytecode 4 8 = .ok 0 := by decide
  rcases Outcome.bind_eq_ok.mp returns with ⟨offset, loaded, result⟩
  have zero : offset = 0 := Except.ok.inj (loaded.symm.trans reads)
  rw [zero, Except.ok.injEq, Prod.mk.injEq, intOfSize_zero] at result
  exact nonzero result.1.symm

end Examples

end Dang
