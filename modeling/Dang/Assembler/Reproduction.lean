import Dang.Assembler.Simulation

/-!
# Source programs run as assembled code

Each step of a source program is made by its bytecode: `vm_execute` gets through the padding before
the line, executes the line's instruction, and is where the program is then. Only a line that leads
back to itself is lost, since its instruction returns zero.
-/

namespace Dang

variable {Data : Type} {effects : Effects Data} {source : List SourceLine}
  {output : AssemblerOutput} {execution target : VmContext × Data} {state next : SourceState Data}
  {event : VmEvent} {answers : Answers}

/-- A line is executed with ample storage, under calls that storage can address, and does not lead
back to itself. -/
def Progresses (source : List SourceLine) (state : SourceState Data) (event : VmEvent)
    (next : SourceState Data) : Prop :=
  (∃ answers, event = .instruction answers ∧ answers.memory = .ample) ∧
    state.frames.length < 2 ^ 58 ∧ settle source next.line ≠ settle source state.line

theorem decode_NOOP {bytecode : Bytes} {context : VmContext}
    (fetched : context.fetch bytecode = some .NOOP) :
    decode bytecode context.counter = .ok (.NOOP, []) := by
  rcases Option.bind_eq_some_iff.mp fetched with ⟨byte, here, isNOOP⟩
  rcases List.getElem?_eq_some_iff.mp here with ⟨inside, atCounter⟩
  have loaded : Buffer.load bytecode context.counter 1 = .ok [byte] := by
    apply Buffer.load_eq_ok.mpr
    refine ⟨inside, ?_⟩
    rw [List.drop_eq_getElem_cons inside, List.take_succ_cons, List.take_zero, atCounter]
  have value : ofLittleEndian [byte] = byte.val := by simp [ofLittleEndian]
  rw [decode, loadNumber_of_load loaded, Outcome.ok_bind, value, Fin.ofNat_val_eq_self, isNOOP]
  rfl

/-- One step through the padding before a line. -/
theorem Follows.exists_padding (assembled : Assembled source output)
    (follows : Follows source execution state) (sets : answers.Sets state.frames)
    (fetched : execution.1.fetch output.bytecode = some .NOOP)
    (hides : isPadding source execution (.instruction answers) = true) :
    ∃ target, ProgramStep effects output.bytecode execution (.instruction answers) target ∧
      Follows source target state ∧
      target.1.counter = sizeAdd execution.1.counter 1 := by
  have fresh := (follows.1.isOpen.fresh_iff sets.1).mpr sets.2
  have step : ProgramStep effects output.bytecode execution (.instruction answers)
      ({ execution.1 with counter := sizeAdd execution.1.counter 1 }, execution.2) := by
    refine ⟨⟨fresh, .NOOP, 0, fetched, by decide, ?_⟩, .NOOP, [], decode_NOOP fetched, ?_⟩
    · rw [VmContext.advance, if_pos rfl]
    · rw [if_pos rfl]
  exact ⟨_, step, follows.stutters assembled hides step, rfl⟩

/-- `vm_execute` gets to the instruction of the next line. -/
theorem Follows.reaches_line (assembled : Assembled source output)
    (follows : Follows source execution state) (sets : answers.Sets state.frames) {index line : ℕ}
    {instruction : Instruction} {params : List SourceParam} (at_line : state.line = some index)
    (reads : nextInstruction source index = some (line, instruction, params)) :
    ∃ steps entry operands, IsRun (ProgramStep effects output.bytecode) execution steps ∧
      visibleLabels (isPadding source) execution steps = [] ∧
      Follows source (endOf execution steps) state ∧
      ReadLine source output line instruction params entry operands ∧
      (endOf execution steps).1.counter = entry.position := by
  rcases accepted_of_assemble assembled.accepted with ⟨len, accepted⟩
  have short := assembled.small
  have lengths := accepted.length
  -- each step of padding leaves fewer bytes before the guard
  generalize left : len - execution.1.counter = bytes
  induction bytes using Nat.strong_induction_on generalizing execution with
  | _ bytes ih =>
      have within := accepted.le_of_approaches follows.1.position
      cases follows.1.fetches assembled with
      | guard fetched finished outside =>
          rw [finished index at_line] at reads
          cases reads
      | @line index' line' instruction' params' entry operands isNext reads' read here =>
          rcases Option.some.inj (at_line.symm.trans isNext) with rfl
          have same := Option.some.inj (reads.symm.trans reads')
          simp only [Prod.mk.injEq] at same
          rcases same with ⟨rfl, rfl, rfl⟩
          exact ⟨[], entry, operands, trivial, rfl, follows, read, here⟩
      | @padding index' line' instruction' params' isNext reads' fetched onwards outside =>
          have hides : isPadding source execution (.instruction answers) = true :=
            decide_eq_true outside
          have padded : ∃ target,
              ProgramStep effects output.bytecode execution (.instruction answers) target ∧
              Follows source target state ∧
              target.1.counter = sizeAdd execution.1.counter 1 :=
            follows.exists_padding assembled sets fetched hides
          rcases padded with ⟨target, step, followsNext, counter⟩
          have before := accepted.le_of_approaches onwards
          rw [sizeAdd_eq (by omega)] at counter
          rcases ih (len - target.1.counter) (by omega) followsNext rfl with
            ⟨steps, entry, operands, run, hidden, follows, read, here⟩
          refine ⟨(.instruction answers, target) :: steps, entry, operands, ⟨step, run⟩, ?_, follows,
            read, here⟩
          rw [visibleLabels, if_pos hides, hidden]

/-- A line that does not lead back to itself is executed in one step. -/
theorem Follows.executes_line (assembled : Assembled source output)
    (follows : Follows source execution state) {index line : ℕ} {instruction : Instruction}
    {params : List SourceParam} {entry : Placed} {operands : List Operand}
    {line' : Option ℕ} {frames' : List SourceFrame} {data' : Data}
    (at_line : state.line = some index)
    (reads : nextInstruction source index = some (line, instruction, params))
    (read : ReadLine source output line instruction params entry operands)
    (here : execution.1.counter = entry.position) (sets : answers.Sets state.frames)
    (room : execution.1.HasRoom answers)
    (flows : flow source line answers state.frames instruction params = some (line', frames'))
    (does : if instruction = .NOOP then data' = state.data
      else effects instruction operands (currentScope state.frames) state.data answers data')
    (onwards : settle source line' ≠ settle source state.line) :
    ∃ target, ProgramStep effects output.bytecode execution (.instruction answers) target ∧
      Follows source target ⟨line', frames', data'⟩ := by
  rcases follows with ⟨mirrors, sameData⟩
  have fresh := (mirrors.isOpen.fresh_iff sets.1).mpr sets.2
  have fetched := read.fetch here
  have decoded := read.decoded
  rw [← here] at decoded
  rw [← sameData, currentScope_eq, ← mirrors.isOpen.symboltable] at does
  have notEND : instruction ≠ .END := by
    rintro rfl
    cases flows
  have atLine : Mirrors source execution.1 (some line) state.frames := by
    rw [at_line] at mirrors
    exact mirrors.at_line reads
  have small := read.small assembled
  by_cases isNOOP : instruction = .NOOP
  · subst isNOOP
    rcases Prod.mk.inj (Option.some.inj flows) with ⟨rfl, rfl⟩
    rw [read.length_eq] at small
    refine ⟨({ execution.1 with counter := sizeAdd execution.1.counter 1 }, data'),
      ⟨⟨fresh, .NOOP, 0, fetched, notEND, by rw [VmContext.advance, if_pos rfl]⟩, _, _, decoded,
        does⟩, ?_, rfl⟩
    apply atLine.go
    rw [here, sizeAdd_eq (by simp only [stride, Instruction.size] at small; omega)]
    exact read.approaches
  · rcases leads_of_flow assembled read atLine here fresh sets.1 room isNOOP flows with
      ⟨incr, executed, always, mirrorsNext⟩
    have moves : incr ≠ 0 := by
      rintro rfl
      apply onwards
      -- the counter stays, and there is one line whose instruction is there
      have inside := read.inside assembled
      have stays : sizeOfInt (execution.1.counter + 0) = entry.position := by
        rw [Int.add_zero, here]
        exact sizeOfInt_natCast (by omega)
      have position := mirrorsNext.position
      simp only [stays] at position
      have settled : settle source state.line = some line := by
        rw [at_line, settle, reads]
        rfl
      rw [settled]
      have given : entry.line.instruction ≠ none := by
        rw [read.given]
        exact Option.some_ne_none _
      cases line' with
      | none =>
          have zero : entry.position = 0 := position
          omega
      | some other =>
          rw [settle] at position ⊢
          cases readsOther : nextInstruction source other with
          | none =>
              rw [readsOther, Option.map_none, Option.getD_none] at position
              have nothing : nextInstruction source source.length = none := by
                rw [nextInstruction, List.drop_length]
                rfl
              rcases accepted_of_assemble assembled.accepted with ⟨len, accepted⟩
              have behind := position.behind nothing
              have lengths := accepted.length
              have long := entry.line.length_pos_iff.mpr given
              rw [← length_of_mem_place (List.mem_of_getElem? read.found)] at long
              rw [accepted.startOf_length] at behind
              omega
          | some inst =>
              rcases inst with ⟨otherLine, otherInstruction, otherParams⟩
              rw [readsOther, Option.map_some, Option.getD_some] at position
              rcases (approaches_positionOf _ other).next readsOther with ⟨_, sourceLine, atOther, inst⟩
              rcases assembled.readLine atOther inst with ⟨otherEntry, _, otherRead⟩
              have otherGiven : otherEntry.line.instruction ≠ none := by
                rw [otherRead.given]
                exact Option.some_ne_none _
              rw [Option.map_some, Option.getD_some,
                position.unique read.found rfl given otherRead.found otherGiven]
    refine ⟨({ executed with counter := sizeOfInt (execution.1.counter + incr) }, data'),
      ⟨⟨fresh, instruction, 2, fetched, notEND, ?_⟩, _, _, decoded, does⟩, mirrorsNext, rfl⟩
    exact VmContext.advance_of isNOOP (always 0) moves

/-- `vm_execute` gets through a step of the source program. -/
theorem Follows.through (assembled : Assembled source output)
    (follows : Follows source execution state) (progresses : Progresses source state event next)
    (step : SourceStep effects source state event next) :
    ∃ steps, IsRun (ProgramStep effects output.bytecode) execution steps ∧
      visibleLabels (isPadding source) execution steps = [event] ∧
      Follows source (endOf execution steps) next := by
  rcases progresses with ⟨⟨answers, rfl, ample⟩, shallow, onwards⟩
  cases step with
  | @instruction index line instruction params operands _ line' frames' data' at_line reads written
      sets flows does =>
      have reached : ∃ steps entry operands,
          IsRun (ProgramStep effects output.bytecode) execution steps ∧
          visibleLabels (isPadding source) execution steps = [] ∧
          Follows source (endOf execution steps) state ∧
          ReadLine source output line instruction params entry operands ∧
          (endOf execution steps).1.counter = entry.position :=
        follows.reaches_line assembled sets at_line reads
      rcases reached with ⟨steps, entry, otherOperands, run, hidden, followsThere, read, here⟩
      have same : operands = otherOperands := by
        have both := written.trans read.written.symm
        exact List.map_injective_iff.mpr (Option.some_injective _) both
      subst same
      have room : (endOf execution steps).1.HasRoom answers :=
        followsThere.1.isOpen.hasRoom ample (by rw [List.length_map]; exact shallow)
      rcases followsThere.executes_line assembled at_line reads read here sets room flows does
        onwards with ⟨target, stepped, followsNext⟩
      have shows : isPadding source (endOf execution steps) (.instruction answers) = false := by
        apply decide_eq_false
        intro outside
        apply outside entry (List.mem_of_getElem? read.found)
        · rw [read.given]
          exact Option.some_ne_none _
        · exact here.symm
      refine ⟨steps ++ [(.instruction answers, target)], run.append ⟨stepped, trivial⟩, ?_, ?_⟩
      · rw [visibleLabels_append, hidden, visibleLabels, shows]
        rfl
      · rw [endOf_append]
        exact followsNext

/-- Every run of a source program that does not lead a line back to itself is a run of its
assembled bytecode. -/
theorem source_is_reproduced {start : VmContext} {data : Data} {flags : Flags32}
    (assembled : Assembled source output) (nonzero : answers.table ≠ 0)
    (ample : answers.memory = .ample)
    (enters : (VmContext.init output.bytecodeStart flags).enter answers = .ok start)
    {lines : List (VmEvent × SourceState Data)}
    (run : IsRun (SourceStep effects source) (.initial source answers.table data) lines)
    (progresses : ∀ transition ∈ transitions (.initial source answers.table data) lines,
      Progresses source transition.1 transition.2.1 transition.2.2) :
    ∃ steps : List (VmEvent × VmContext × Data),
      IsRun (ProgramStep effects output.bytecode) (start, data) steps ∧
      visibleLabels (isPadding source) (start, data) steps = lines.map Prod.fst ∧
      Follows source (endOf (start, data) steps)
        (endOf (.initial source answers.table data) lines) ∧
      ((endOf (start, data) steps).1.Ends output.bytecode ↔
        (endOf (.initial source answers.table data) lines).Over source) := by
  have initially : Follows source (start, data) (.initial source answers.table data) :=
    follows_initial assembled nonzero ample enters
  have reproduced : ∃ steps : List (VmEvent × VmContext × Data),
      IsRun (ProgramStep effects output.bytecode) (start, data) steps ∧
      visibleLabels (isPadding source) (start, data) steps = lines.map Prod.fst ∧
      Follows source (endOf (start, data) steps)
        (endOf (.initial source answers.table data) lines) := by
    apply IsRun.reproduces (Progresses source) _ initially run progresses
    intro execution state event next follows progresses step
    exact follows.through assembled progresses step
  rcases reproduced with ⟨steps, isRun, labels, follows⟩
  exact ⟨steps, isRun, labels, follows, follows.ends_iff assembled⟩

section Examples

/-- The loop at one of its lines. -/
def loopLine (line : ℕ) : SourceState Unit := ⟨some line, [⟨none, 100⟩], ()⟩

/-- One round of the loop, line by line. -/
def loopLines : List (VmEvent × SourceState Unit) :=
  [(.instruction (loopAnswers 101), loopLine 1), (.instruction (loopAnswers 101), loopLine 0)]

theorem loopLines_isRun :
    IsRun (SourceStep idle loopSource) (.initial loopSource 100 ()) loopLines := by
  have sets : ∀ line, (loopAnswers 101).Sets (loopLine line).frames := by
    intro line
    refine ⟨by decide, ?_⟩
    simp [loopLine, loopAnswers]
  have noOperands : ([] : List Operand).map some = ([] : List SourceParam).map (SourceParam.written
      (place 1 (parse none loopSource)) (lastLabelDefined none (loopSource.take 1))) := rfl
  have toMain : [Operand.position 1].map some = [SourceParam.labelOff (.primOnly mainName)].map
      (SourceParam.written (place 1 (parse none loopSource))
        (lastLabelDefined none (loopSource.take 2))) := by decide
  have first : SourceStep idle loopSource (loopLine 0) (.instruction (loopAnswers 101))
      (loopLine 1) := .instruction rfl rfl noOperands (sets 0) rfl rfl
  have second : SourceStep idle loopSource (loopLine 1) (.instruction (loopAnswers 101))
      (loopLine 0) := .instruction rfl rfl toMain (sets 1) rfl trivial
  exact ⟨first, second, trivial⟩

theorem source_is_reproduced_loop :
    ∃ steps : List (VmEvent × VmContext × Unit),
      IsRun (ProgramStep idle loopOutput.bytecode) (loopStart, ()) steps ∧
      visibleLabels (isPadding loopSource) (loopStart, ()) steps = loopLines.map Prod.fst ∧
      Follows loopSource (endOf (loopStart, ()) steps)
        (endOf (.initial loopSource 100 ()) loopLines) ∧
      ((endOf (loopStart, ()) steps).1.Ends loopOutput.bytecode ↔
        (endOf (.initial loopSource 100 ()) loopLines).Over loopSource) := by
  have enters : (VmContext.init loopOutput.bytecodeStart 0).enter (loopAnswers 100) =
      .ok loopStart := rfl
  apply source_is_reproduced loop_assembled (by decide) rfl enters loopLines_isRun
  intro transition mem
  simp only [loopLines, transitions, List.mem_cons, List.not_mem_nil, or_false] at mem
  rcases mem with rfl | rfl
  · exact ⟨⟨loopAnswers 101, rfl, rfl⟩, by decide, by decide⟩
  · exact ⟨⟨loopAnswers 101, rfl, rfl⟩, by decide, by decide⟩

end Examples

end Dang
