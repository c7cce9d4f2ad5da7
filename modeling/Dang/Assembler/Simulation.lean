import Dang.Assembler.Preservation

/-!
# Assembled code does what its source means

A run of `vm_execute` on assembled bytecode is a run of the source program, but for the `NOOP`s
that the assembler has put in, and ends where the source program does. The other way round, every
run of a source program is one of its bytecode, as long as no line leads back to itself.
-/

namespace Dang

variable {Data : Type} {effects : Effects Data} {source : List SourceLine}
  {output : AssemblerOutput}

/-- A step that executes no line, but one of the bytes before it. -/
def isPadding (source : List SourceLine) (state : VmContext × Data) : VmEvent → Bool
  | .instruction _ => decide (∀ entry ∈ place 1 (parse none source),
      entry.line.instruction ≠ none → entry.position ≠ state.1.counter)
  | .signal _ _ => false

/-- A context with its data is where a source program is. -/
def Follows (source : List SourceLine) (execution : VmContext × Data) (state : SourceState Data) :
    Prop :=
  Mirrors source execution.1 state.line state.frames ∧ execution.2 = state.data

/-- A step has room for a frame and storage for a symbol table, and what it takes for a function
leads to a line. -/
def Supplied (source : List SourceLine) (bytecode : Bytes) (execution : VmContext × Data)
    (event : VmEvent) : Prop :=
  event.answers.table ≠ 0 ∧ execution.1.HasRoom event.answers ∧
    match event with
    | .instruction answers =>
        execution.1.fetch bytecode = some .FRCALL → lineAt source answers.function ≠ none
    | .signal _ handler => lineAt source handler ≠ none

section Forward

variable {context after : VmContext} {answers : Answers} {frames : List SourceFrame} {line : ℕ}
  {instruction : Instruction} {params : List SourceParam} {entry : Placed}
  {operands : List Operand}

theorem endScopes_mono {top fuel : ℕ} (more : ℕ)
    (success : VmContext.endScopes top fuel context = .ok after) :
    VmContext.endScopes top (fuel + more) context = .ok after := by
  induction fuel generalizing context with
  | zero => simp [VmContext.endScopes] at success
  | succ fuel ih =>
      rw [Nat.add_right_comm]
      simp only [VmContext.endScopes] at success ⊢
      split at success
      case isTrue inside =>
        rw [if_pos inside]
        rcases Outcome.bind_eq_ok.mp success with ⟨ended, ends, later⟩
        apply Outcome.bind_eq_ok.mpr
        exact ⟨ended, ends, ih later⟩
      case isFalse outside =>
        rw [if_neg outside]
        exact success

/-- More fuel changes nothing. -/
theorem execute_mono {bytecode : Bytes} {fuel : ℕ} {incr : ℤ} (more : ℕ)
    (success : context.execute fuel bytecode answers instruction = .ok (incr, after)) :
    context.execute (fuel + more) bytecode answers instruction = .ok (incr, after) := by
  by_cases isRETURN : instruction = .RETURN
  · subst isRETURN
    simp only [VmContext.execute, VmContext.instRETURN, Outcome.bind_eq_ok] at success ⊢
    rcases success with ⟨popped, pops, released, releases, ended, ends, same⟩
    exact ⟨popped, pops, released, releases, ended, endScopes_mono more ends, same⟩
  · unfold VmContext.execute at success ⊢
    split at success
    case h_5 => contradiction
    all_goals exact success

/-- A line that is executed leads somewhere. -/
theorem flow_ne_none (assembled : Assembled source output)
    (read : ReadLine source output line instruction params entry operands)
    (mirrors : Mirrors source context (some line) frames) {fuel : ℕ} {incr : ℤ}
    (success : context.execute fuel output.bytecode answers instruction = .ok (incr, after))
    (moves : incr ≠ 0) (notEND : instruction ≠ .END)
    (functions : instruction = .FRCALL → lineAt source answers.function ≠ none) :
    flow source line answers frames instruction params ≠ none := by
  have fits := read.fits
  unfold flow
  split
  case h_1 => exact absurd rfl notEND
  case h_2 label =>
    rcases read.labelLine assembled (.jump [] (Or.inl rfl)) with ⟨target, _, found, _⟩
    simp [found]
  case h_3 label =>
    rcases read.labelLine assembled (.jump [] (Or.inr (Or.inl rfl))) with ⟨target, _, found, _⟩
    split
    · simp [found]
    · simp
  case h_4 label =>
    rcases read.labelLine assembled (.jump [] (Or.inr (Or.inr rfl))) with ⟨target, _, found, _⟩
    split
    · simp [found]
    · simp
  case h_5 label =>
    rcases read.labelLine assembled (.call []) with ⟨target, _, found, _⟩
    simp [found]
  case h_6 others | h_7 others | h_8 others | h_9 others =>
    rcases fits with ⟨label, same⟩
    exact absurd same (others label)
  case h_10 =>
    intro nowhere
    exact functions rfl (Option.map_eq_none_iff.mp nowhere)
  case h_11 =>
    split
    case h_2 => simp
    case h_1 =>
      have isOpen := mirrors.isOpen
      rcases VmContext.instRETURN_eq_ok isOpen.stack isOpen.counted success with
        ⟨state, _, states, _⟩
      have returns := mirrors.returns
      rw [states] at returns
      cases returns
  case h_12 | h_13 =>
    split
    case isTrue => simp
    case isFalse full =>
      rw [VmContext.execute, if_neg full, Except.ok.injEq, Prod.mk.injEq] at success
      exact absurd success.1.symm moves
  case h_14 => simp

/-- The instruction that `vm_execute` fetches where a program is. -/
inductive Fetches (source : List SourceLine) (output : AssemblerOutput) (context : VmContext)
    (next : Option ℕ) : Prop
  /-- A guard, before the first line or behind the last one. -/
  | guard (fetched : context.fetch output.bytecode = some .END)
      (finished : ∀ index, next = some index → nextInstruction source index = none)
      (outside : ∀ entry ∈ place 1 (parse none source), entry.line.instruction ≠ none →
        entry.position ≠ context.counter)
  /-- Padding before the next line. -/
  | padding {index line : ℕ} {instruction : Instruction} {params : List SourceParam}
      (isNext : next = some index)
      (reads : nextInstruction source index = some (line, instruction, params))
      (fetched : context.fetch output.bytecode = some .NOOP)
      (onwards : Approaches (parse none source) (some line) (context.counter + 1))
      (outside : ∀ entry ∈ place 1 (parse none source), entry.line.instruction ≠ none →
        entry.position ≠ context.counter)
  /-- The next line's instruction. -/
  | line {index line : ℕ} {instruction : Instruction} {params : List SourceParam} {entry : Placed}
      {operands : List Operand} (isNext : next = some index)
      (reads : nextInstruction source index = some (line, instruction, params))
      (read : ReadLine source output line instruction params entry operands)
      (here : context.counter = entry.position)

/-- No line's instruction is at a guard. -/
theorem Accepted.outside_guard {lines : List Line} {len counter : ℕ}
    (accepted : Accepted lines output len) (guard : counter = 0 ∨ counter = len) :
    ∀ entry ∈ place 1 lines, entry.line.instruction ≠ none → entry.position ≠ counter := by
  intro entry mem given same
  have inside := accepted.inside mem
  have long := entry.line.length_pos_iff.mpr given
  rw [← length_of_mem_place mem] at long
  omega

theorem Mirrors.fetches {next : Option ℕ} (assembled : Assembled source output)
    (mirrors : Mirrors source context next frames) : Fetches source output context next := by
  rcases accepted_of_assemble assembled.accepted with ⟨len, accepted⟩
  have position := mirrors.position
  have guarded : context.counter = 0 ∨ context.counter = len →
      context.fetch output.bytecode = some .END := by
    intro guard
    rw [VmContext.fetch, accepted.guard guard]
    exact Instruction.ofOpcode_opcode .END
  cases next with
  | none =>
      have front : context.counter = 0 ∨ context.counter = len := Or.inl position
      refine .guard (guarded front) ?_ (accepted.outside_guard front)
      intro index same
      cases same
  | some index =>
      cases reads : nextInstruction source index with
      | none =>
          have behind : context.counter = 0 ∨ context.counter = len := by
            rw [settle, reads, Option.map_none, Option.getD_none] at position
            have nothing : nextInstruction source source.length = none := by
              rw [nextInstruction, List.drop_length]
              rfl
            rw [position.behind nothing, accepted.startOf_length]
            exact Or.inr rfl
          refine .guard (guarded behind) ?_ (accepted.outside_guard behind)
          rintro _ same
          rcases Option.some.inj same with rfl
          exact reads
      | some inst =>
          rcases inst with ⟨line, instruction, params⟩
          rw [settle, reads, Option.map_some, Option.getD_some] at position
          have start : Approaches (parse none source) (some index) (positionOf _ index) :=
            approaches_positionOf _ index
          rcases start.next reads with ⟨_, sourceLine, sourceHere, inst⟩
          rcases assembled.readLine sourceHere inst with ⟨entry, operands, read⟩
          have given : entry.line.instruction ≠ none := by
            rw [read.given]
            exact Option.some_ne_none _
          by_cases here : context.counter = entry.position
          · exact .line rfl reads read here
          · have finish := position.2
            rw [positionOf_of_getElem? read.found] at finish
            refine .padding rfl reads ?_ ?_ ?_
            · rw [VmContext.fetch, accepted.padding read.found position.1 (by omega)]
              exact Instruction.ofOpcode_opcode .NOOP
            · refine ⟨Nat.le_succ_of_le position.1, ?_⟩
              rw [positionOf_of_getElem? read.found]
              omega
            · intro other mem otherGiven same
              rcases List.getElem_of_mem mem with ⟨k, inside, rfl⟩
              have found := List.getElem?_eq_getElem inside
              rcases position.unique found same.symm otherGiven read.found given with rfl
              rcases Option.some.inj (found.symm.trans read.found) with rfl
              exact here same.symm

end Forward

section Steps

variable {execution target : VmContext × Data} {state : SourceState Data} {event : VmEvent}

/-- What is decoded is the instruction that is fetched. -/
theorem fetch_of_decode {bytecode : Bytes} {context : VmContext} {instruction : Instruction}
    {operands : List Operand}
    (decoded : decode bytecode context.counter = .ok (instruction, operands)) :
    context.fetch bytecode = some instruction := by
  rcases Outcome.bind_eq_ok.mp decoded with ⟨opcode, loads, found⟩
  rcases Outcome.bind_eq_ok.mp loads with ⟨block, loaded, same⟩
  rcases Buffer.load_eq_ok.mp loaded with ⟨inside, taken⟩
  have here : context.counter < bytecode.length := inside
  rw [List.drop_eq_getElem_cons here, List.take_succ_cons, List.take_zero] at taken
  rw [taken] at same
  have value : opcode = bytecode[context.counter].val := by
    rw [← Except.ok.inj same]
    simp [ofLittleEndian]
  rw [value] at found
  rw [VmContext.fetch, List.getElem?_eq_getElem here]
  split at found
  case h_1 => contradiction
  case h_2 other isOther =>
    rcases Outcome.bind_eq_ok.mp found with ⟨_, _, same⟩
    rw [Except.ok.injEq, Prod.mk.injEq] at same
    rw [← same.1, ← isOther]
    simp

/-- A program is at a line just as it is at the line before that has no instruction. -/
theorem Mirrors.at_line {context : VmContext} {frames : List SourceFrame} {index line : ℕ}
    {instruction : Instruction} {params : List SourceParam}
    (mirrors : Mirrors source context (some index) frames)
    (reads : nextInstruction source index = some (line, instruction, params)) :
    Mirrors source context (some line) frames := by
  rcases (approaches_positionOf _ index).next reads with ⟨_, sourceLine, here, inst⟩
  refine ⟨?_, mirrors.isOpen, mirrors.returns⟩
  have position := mirrors.position
  simp only [settle, reads, nextInstruction_self here inst] at position ⊢
  exact position

/-- Padding leads on to the next line. -/
theorem Follows.stutters (assembled : Assembled source output)
    (follows : Follows source execution state) (hides : isPadding source execution event = true)
    (step : ProgramStep effects output.bytecode execution event target) :
    Follows source target state := by
  rcases follows with ⟨mirrors, sameData⟩
  rcases step with ⟨step, does⟩
  cases event with
  | signal answers handler => cases hides
  | instruction answers =>
      have outside := of_decide_eq_true hides
      rcases step with ⟨_, instruction, fuel, fetched, notEND, success⟩
      rcases does with ⟨decodedInstruction, operands, decoded, does⟩
      rcases Option.some.inj (fetched.symm.trans (fetch_of_decode decoded)) with rfl
      cases mirrors.fetches assembled with
      | guard atGuard =>
          exact absurd (Option.some.inj (fetched.symm.trans atGuard)) notEND
      | line isNext reads read here =>
          have given : _ ≠ none := Option.ne_none_iff_exists'.mpr ⟨_, read.given⟩
          exact absurd here.symm (outside _ (List.mem_of_getElem? read.found) given)
      | @padding index line _ params isNext reads isNOOP onwards =>
          rcases Option.some.inj (fetched.symm.trans isNOOP) with rfl
          rw [VmContext.advance, if_pos rfl, Except.ok.injEq] at success
          rw [if_pos rfl] at does
          rcases accepted_of_assemble assembled.accepted with ⟨len, accepted⟩
          have short := assembled.small
          have lengths := accepted.length
          have inside := accepted.le_of_approaches onwards
          rw [sizeAdd_eq (by omega)] at success
          refine ⟨?_, does.trans sameData⟩
          rw [← success]
          refine ⟨?_, mirrors.isOpen.setCounter _, mirrors.returns⟩
          rw [isNext, settle, reads]
          exact onwards

/-- A step that is no padding is one of the source program. -/
theorem Follows.matched (assembled : Assembled source output)
    (follows : Follows source execution state)
    (supplied : Supplied source output.bytecode execution event)
    (shows : isPadding source execution event = false)
    (step : ProgramStep effects output.bytecode execution event target) :
    ∃ next, SourceStep effects source state event next ∧ Follows source target next := by
  rcases follows with ⟨mirrors, sameData⟩
  rcases step with ⟨step, does⟩
  rcases supplied with ⟨nonzero, room, functions⟩
  cases event with
  | signal answers handler =>
      rcases step with ⟨fresh, _, delivered⟩
      rcases Option.ne_none_iff_exists'.mp functions with ⟨line, handles⟩
      rcases lineAt_eq_some handles with ⟨definition, atLine, position⟩
      simp only [VmContext.deliver, Outcome.bind_eq_ok, Except.ok.injEq] at delivered
      rcases delivered with ⟨saved, saves, called, starts, delivered⟩
      have sets : answers.Sets state.frames :=
        ⟨nonzero, (mirrors.isOpen.fresh_iff nonzero).mp fresh⟩
      refine ⟨_, .signal handles sets, ?_, does.trans sameData⟩
      rw [← delivered]
      apply mirrors.call fresh nonzero room saves starts mirrors.position
      rw [← position, ← positionOf_of_getElem? atLine]
      exact approaches_positionOf _ line
  | instruction answers =>
      rcases step with ⟨fresh, instruction, fuel, fetched, notEND, success⟩
      rcases does with ⟨decodedInstruction, operands, decoded, does⟩
      rcases Option.some.inj (fetched.symm.trans (fetch_of_decode decoded)) with rfl
      have notOutside : ¬ ∀ entry ∈ place 1 (parse none source),
          entry.line.instruction ≠ none → entry.position ≠ execution.1.counter :=
        of_decide_eq_false shows
      cases mirrors.fetches assembled with
      | guard atGuard => exact absurd (Option.some.inj (fetched.symm.trans atGuard)) notEND
      | padding _ _ _ _ outside => exact absurd outside notOutside
      | @line index line other params entry otherOperands isNext reads read here =>
          rw [here, read.decoded, Except.ok.injEq, Prod.mk.injEq] at decoded
          rcases decoded with ⟨rfl, rfl⟩
          rw [isNext] at mirrors
          have atLine := mirrors.at_line reads
          have sets : answers.Sets state.frames :=
            ⟨nonzero, (mirrors.isOpen.fresh_iff nonzero).mp fresh⟩
          rw [sameData, mirrors.isOpen.symboltable, ← currentScope_eq] at does
          by_cases isNOOP : other = .NOOP
          · subst isNOOP
            rw [VmContext.advance, if_pos rfl, Except.ok.injEq] at success
            have small := read.small assembled
            rw [read.length_eq] at small
            rw [here, sizeAdd_eq (by simp only [stride, Instruction.size] at small; omega)]
              at success
            refine ⟨_, .instruction isNext reads read.written sets rfl does, ?_, rfl⟩
            rw [← success]
            exact atLine.go read.approaches
          · rcases VmContext.advance_eq_ok isNOOP success with
              ⟨incr, executed, executes, moves, after⟩
            have leadsOn := flow_ne_none assembled read atLine executes moves notEND
              (fun isFRCALL => functions (isFRCALL ▸ fetched))
            rcases Option.ne_none_iff_exists'.mp leadsOn with ⟨⟨next, frames⟩, flows⟩
            rcases leads_of_flow assembled read atLine here fresh nonzero room isNOOP flows with
              ⟨incr', executed', always, mirrorsNext⟩
            have same := (execute_mono 2 executes).symm.trans (always fuel)
            rw [Except.ok.injEq, Prod.mk.injEq] at same
            rcases same with ⟨rfl, rfl⟩
            refine ⟨_, .instruction isNext reads read.written sets flows does, ?_, rfl⟩
            rw [after]
            exact mirrorsNext

/-- A run of `vm_execute` is at its end exactly when the program that it follows is. -/
theorem Follows.ends_iff (assembled : Assembled source output)
    (follows : Follows source execution state) :
    execution.1.Ends output.bytecode ↔ state.Over source := by
  rcases accepted_of_assemble assembled.accepted with ⟨len, accepted⟩
  rcases follows with ⟨mirrors, _⟩
  have lengths := accepted.length
  have within := accepted.le_of_approaches mirrors.position
  have inside : ¬ output.bytecode.length ≤ execution.1.counter := by omega
  have ends : execution.1.Ends output.bytecode ↔
      execution.1.fetch output.bytecode = some .END := by
    simp [VmContext.Ends, inside]
  rw [ends]
  cases mirrors.fetches assembled with
  | guard fetched finished outside =>
      refine ⟨?_, fun _ => fetched⟩
      intro _ index isNext line instruction params reads
      rw [finished index isNext] at reads
      cases reads
  | @padding index line instruction params isNext reads fetched onwards outside =>
      refine ⟨?_, ?_⟩
      · intro isEND
        cases fetched.symm.trans isEND
      · intro finished
        rcases finished index isNext line instruction params reads with rfl
        rcases (approaches_positionOf _ index).next reads with ⟨_, sourceLine, here, inst⟩
        rcases assembled.readLine here inst with ⟨entry, operands, read⟩
        have position := mirrors.position
        rw [isNext, settle, reads, Option.map_some, Option.getD_some] at position
        have short := read.length_eq
        rw [length_of_mem_place (List.mem_of_getElem? read.found)] at short
        have unpadded : entry.position = startOf 1 (parse none source) line := by
          rw [position_of_place read.found, Line.position, if_neg]
          rw [short]
          simp [stride, Instruction.size, Instruction.extras, Instruction.OperandType.size]
        have start : startOf 1 (parse none source) line ≤ execution.1.counter := position.1
        have finish := onwards.2
        rw [positionOf_of_getElem? read.found] at finish
        omega
  | @line index line instruction params entry operands isNext reads read here =>
      rw [read.fetch here, Option.some.injEq]
      refine ⟨?_, fun finished => finished index isNext line instruction params reads⟩
      rintro rfl other isOther line' instruction' params' reads'
      rcases Option.some.inj (isNext.symm.trans isOther) with rfl
      have same := Option.some.inj (reads.symm.trans reads')
      exact (Prod.mk.inj (Prod.mk.inj same).2).1.symm

end Steps

section Runs

variable {start : VmContext} {data : Data} {answers : Answers} {flags : Flags32}

/-- The position of a label is that of the line that defines it. -/
theorem Accepted.labelPosition_eq {lines : List Line} {len : ℕ}
    (accepted : Accepted lines output len) (key : Bytes) :
    labelPosition (place 1 lines) key =
      (lines.findIdx? fun line => line.label = some key).map (positionOf lines) := by
  cases found : lines.findIdx? fun line => line.label = some key with
  | none =>
      rw [labelPosition, Option.map_none, Option.map_eq_none_iff, List.find?_eq_none]
      intro entry mem defines
      have inLines : entry.line ∈ lines := by
        rw [← map_line_place 1 lines]
        exact List.mem_map_of_mem mem
      have undefined := List.findIdx?_eq_none_iff.mp found entry.line inLines
      exact of_decide_eq_false undefined (of_decide_eq_true defines)
  | some index =>
      have first := List.of_findIdx?_eq_some found
      split at first
      case h_2 => cases first
      case h_1 line here =>
        rcases getElem?_place 1 here with ⟨entry, atLine, rfl⟩
        have defines := of_decide_eq_true first
        rcases exists_followLabel (List.mem_of_getElem? atLine) defines with
          ⟨other, mem, otherDefines, follows⟩
        rw [followLabel_eq_ok.mp follows, Option.map_some, positionOf_of_getElem? atLine,
          accepted.definition_unique mem (List.mem_of_getElem? atLine) otherDefines defines]

/-- `vm_execute` starts where the program does. -/
theorem follows_initial (assembled : Assembled source output) (nonzero : answers.table ≠ 0)
    (ample : answers.memory = .ample)
    (enters : (VmContext.init output.bytecodeStart flags).enter answers = .ok start) :
    Follows source (start, data) (.initial source answers.table data) := by
  rcases accepted_of_assemble assembled.accepted with ⟨len, accepted⟩
  rcases Outcome.bind_eq_ok.mp enters with ⟨saved, saves, starts⟩
  have isOpen := VmContext.Open.init output.bytecodeStart flags
  have room := isOpen.hasRoom ample (by decide)
  rcases isOpen.enter (fun _ => rfl) nonzero room saves starts with ⟨isOpen, states, counter⟩
  refine ⟨⟨?_, isOpen, ?_⟩, rfl⟩
  · apply Approaches.settle
    have atMain : start.counter = output.bytecodeStart := counter
    simp only [SourceState.initial]
    rw [atMain, accepted.start, mainLine, accepted.labelPosition_eq]
    generalize (parse none source).findIdx? _ = found
    cases found with
    | none =>
        refine ⟨?_, ?_⟩
        · simp
        · simp only [Option.map_none, Option.getD_none]
          exact le_trans (le_startOf 1 _ 0) (approaches_positionOf _ 0).1
    | some index => exact approaches_positionOf _ index
  · simp only [SourceState.initial]
    rw [states]
    apply List.Forall₂.cons
    · exact rfl
    · exact List.Forall₂.nil

/-- A run of assembled bytecode is a run of its source but for the padding, and is at its end when
that is. -/
theorem assembled_follows_source (assembled : Assembled source output)
    (nonzero : answers.table ≠ 0) (ample : answers.memory = .ample)
    (enters : (VmContext.init output.bytecodeStart flags).enter answers = .ok start)
    {steps : List (VmEvent × VmContext × Data)}
    (run : IsRun (ProgramStep effects output.bytecode) (start, data) steps)
    (supplied : StepsMeet (Supplied source output.bytecode) (start, data) steps) :
    ∃ lines : List (VmEvent × SourceState Data),
      IsRun (SourceStep effects source) (.initial source answers.table data) lines ∧
      lines.map Prod.fst = visibleLabels (isPadding source) (start, data) steps ∧
      Follows source (endOf (start, data) steps)
        (endOf (.initial source answers.table data) lines) ∧
      ((endOf (start, data) steps).1.Ends output.bytecode ↔
        (endOf (.initial source answers.table data) lines).Over source) := by
  have initially : Follows source (start, data) (.initial source answers.table data) :=
    follows_initial assembled nonzero ample enters
  have simulated : ∃ lines : List (VmEvent × SourceState Data),
      IsRun (SourceStep effects source) (.initial source answers.table data) lines ∧
      lines.map Prod.fst = visibleLabels (isPadding source) (start, data) steps ∧
      Follows source (endOf (start, data) steps)
        (endOf (.initial source answers.table data) lines) := by
    apply IsRun.simulates_visible (Supplied source output.bytecode) _ _ initially run supplied
    · intro execution event target state follows _ hides step
      exact follows.stutters assembled hides step
    · intro execution event target state follows meets shows step
      exact follows.matched assembled meets shows step
  rcases simulated with ⟨lines, isRun, labels, follows⟩
  exact ⟨lines, isRun, labels, follows, follows.ends_iff assembled⟩

end Runs

section Examples

/-- Answers with storage for a symbol table. -/
def loopAnswers (table : ℕ) : Answers where
  memory := .ample
  table := table
  branches := false
  function := 0
  fills := false

/-- Nothing is done to the data. -/
def idle : Effects Unit := fun _ _ _ _ _ _ => True

/-- The loop before its first round. -/
def loopStart : VmContext :=
  ((VmContext.init loopOutput.bytecodeStart 0).enter (loopAnswers 100)).toOption.getD
    (VmContext.init 0 0)

/-- The loop at a position. -/
def loopAt (counter : ℕ) : VmContext := { loopStart with counter := counter }

/-- One round of the loop: its `NOOP`, one byte of padding, and the `JMP`. -/
def loopRound : List (VmEvent × VmContext × Unit) :=
  [(.instruction (loopAnswers 101), loopAt 2, ()), (.instruction (loopAnswers 101), loopAt 3, ()),
    (.instruction (loopAnswers 101), loopAt 1, ())]

theorem loop_assembled : Assembled loopSource loopOutput where
  accepted := by decide
  fits := by
    intro line mem
    rcases List.mem_cons.mp mem with rfl | later
    · exact rfl
    · rcases List.mem_singleton.mp later with rfl
      exact ⟨_, rfl⟩
  small := by decide

theorem loop_jumps (answers : Answers) :
    (loopAt 3).advance 0 loopOutput.bytecode answers .JMP = .ok (loopAt 1) := by
  have reads : loadNumber loopOutput.bytecode ((loopAt 3).counter + 1) 8 = .ok (2 ^ 64 - 2) := by
    decide
  have back : intOfSize (2 ^ 64 - 2) = -2 := by decide
  have executes : (loopAt 3).execute 0 loopOutput.bytecode answers .JMP = .ok (-2, loopAt 3) := by
    rw [VmContext.execute, reads, Outcome.ok_bind, back]
  have arrives : sizeOfInt ((loopAt 3).counter + -2) = 1 := by decide
  rw [VmContext.advance_of (by decide) executes (by decide), arrives]
  rfl

theorem loop_isRun : IsRun (ProgramStep idle loopOutput.bytecode) (loopStart, ()) loopRound := by
  refine ⟨⟨⟨fun _ => rfl, .NOOP, 0, rfl, by decide, rfl⟩, .NOOP, [], by decide, rfl⟩,
    ⟨⟨fun _ => rfl, .NOOP, 0, rfl, by decide, rfl⟩, .NOOP, [], by decide, rfl⟩,
    ⟨⟨fun _ => rfl, .JMP, 0, rfl, by decide, loop_jumps _⟩, .JMP, [.position 1], by decide, trivial⟩,
    trivial⟩

theorem loop_supplied :
    StepsMeet (Supplied loopSource loopOutput.bytecode) (loopStart, ()) loopRound := by
  have room : ∀ counter, (loopAt counter).HasRoom (loopAnswers 101) := fun _ => rfl
  have fetches : ∀ counter, counter = 1 ∨ counter = 2 ∨ counter = 3 →
      (loopAt counter).fetch loopOutput.bytecode = some .FRCALL →
        lineAt loopSource (loopAnswers 101).function ≠ none := by
    rintro counter (rfl | rfl | rfl) isFRCALL
    · cases isFRCALL
    · cases isFRCALL
    · cases isFRCALL
  exact ⟨⟨by decide, room 1, fetches 1 (by decide)⟩, ⟨by decide, room 2, fetches 2 (by decide)⟩,
    ⟨by decide, room 3, fetches 3 (by decide)⟩, trivial⟩

theorem assembled_follows_source_loop :
    ∃ lines : List (VmEvent × SourceState Unit),
      IsRun (SourceStep idle loopSource) (.initial loopSource 100 ()) lines ∧
      lines.map Prod.fst = visibleLabels (isPadding loopSource) (loopStart, ()) loopRound ∧
      Follows loopSource (endOf (loopStart, ()) loopRound)
        (endOf (.initial loopSource 100 ()) lines) ∧
      ((endOf (loopStart, ()) loopRound).1.Ends loopOutput.bytecode ↔
        (endOf (.initial loopSource 100 ()) lines).Over loopSource) := by
  have enters : (VmContext.init loopOutput.bytecodeStart 0).enter (loopAnswers 100) =
      .ok loopStart := rfl
  exact assembled_follows_source loop_assembled (by decide) rfl enters loop_isRun loop_supplied

end Examples

end Dang
