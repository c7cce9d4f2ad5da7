import Dang.Assembler.Approach
import Dang.Foundations.Stuttering
import Dang.Machine.OpenCalls

/-!
# Assembling preserves the meaning

One step of `vm_execute` on assembled bytecode against one step of the source program. A context
mirrors a source program that is at the same line, in the same open calls. From there the
instruction of a line leads the context to where the line leads the program.
-/

namespace Dang

/-- The context is where the source program is: at the next line or in the padding before it, with
a saved state for each open call, which leads to the line that the call returns to. -/
structure Mirrors (source : List SourceLine) (context : VmContext) (line : Option ℕ)
    (frames : List SourceFrame) : Prop where
  position : Approaches (parse none source) (settle source line) context.counter
  isOpen : context.Open (frames.map SourceFrame.scope)
  returns : List.Forall₂
    (fun frame state =>
      Approaches (parse none source) (settle source frame.returns) state.position)
    frames context.states

/-- The lengths and positions of a program that the assembler has accepted, small enough that every
distance is an `int`, with parameters that are read as they are written. -/
structure Assembled (source : List SourceLine) (output : AssemblerOutput) : Prop where
  accepted : assemble (parse none source) = .ok (some output)
  fits : ∀ line ∈ source, line.Fits
  small : output.bytecode.length < 2 ^ 31

theorem currentScope_eq (frames : List SourceFrame) :
    currentScope frames = (frames.map SourceFrame.scope).headD 0 := by
  cases frames with
  | nil => rfl
  | cons frame rest => rfl

section Distances

variable {source target : ℕ}

/-- In a small program no way is too long. -/
theorem fitsInt_of_small (sourceSmall : source < 2 ^ 31) (targetSmall : target < 2 ^ 31) :
    FitsInt (sizeSub target source) := by
  unfold FitsInt sizeSub
  omega

/-- A distance leads to where it was measured to. -/
theorem arrives_of_small (sourceSmall : source < 2 ^ 31) (targetSmall : target < 2 ^ 31) :
    sizeOfInt (source + intOfSize (sizeSub target source)) = target :=
  (sizeOfInt_add_distance source target (by omega) (by omega)).mpr
    (fitsInt_of_small sourceSmall targetSmall)

theorem arrives_of_length {size : ℕ} (small : source + size < 2 ^ 31) :
    sizeOfInt (source + (size : ℤ)) = source + size := by
  rw [← Int.natCast_add]
  exact sizeOfInt_natCast (by omega)

theorem intOfSize_of_small {value : ℕ} (small : value < 2 ^ 31) : intOfSize value = value := by
  unfold intOfSize Int.bmod
  dsimp only
  split
  case isTrue => omega
  case isFalse => omega

end Distances

section Layout

variable {lines : List Line} {output : AssemblerOutput} {len index other : ℕ} {entry : Placed}

/-- A line ends before each later one starts. -/
theorem end_le_startOf {next : ℕ} (found : (place next lines)[index]? = some entry)
    (before : index < other) : entry.position + entry.length ≤ startOf next lines other := by
  induction lines generalizing next index other with
  | nil => simp [place] at found
  | cons line rest ih =>
      cases other with
      | zero => simp at before
      | succ other =>
          cases index with
          | zero =>
              simp only [place, List.getElem?_cons_zero, Option.some.injEq] at found
              subst found
              exact le_startOf _ rest other
          | succ index => exact ih found (Nat.lt_of_succ_lt_succ before)

/-- Control gets to no other line's instruction where a line's own one is. -/
theorem Approaches.unique {counter : ℕ} {otherEntry : Placed}
    (approaches : Approaches lines (some other) counter)
    (found : (place 1 lines)[index]? = some entry) (here : counter = entry.position)
    (given : entry.line.instruction ≠ none)
    (otherFound : (place 1 lines)[other]? = some otherEntry)
    (otherGiven : otherEntry.line.instruction ≠ none) : other = index := by
  have long := entry.line.length_pos_iff.mpr given
  have otherLong := otherEntry.line.length_pos_iff.mpr otherGiven
  rw [← length_of_mem_place (List.mem_of_getElem? found)] at long
  rw [← length_of_mem_place (List.mem_of_getElem? otherFound)] at otherLong
  rcases approaches with ⟨start, finish⟩
  rw [positionOf_of_getElem? otherFound] at finish
  rcases Nat.lt_trichotomy other index with before | same | after
  · have ends := end_le_startOf otherFound before
    have starts := startOf_le found
    omega
  · exact same
  · have ends := end_le_startOf found after
    omega

/-- Control stays between the guards. -/
theorem Accepted.le_of_approaches (accepted : Accepted lines output len) {line : Option ℕ}
    {counter : ℕ} (approaches : Approaches lines line counter) : counter ≤ len := by
  cases line with
  | none =>
      have zero : counter = 0 := approaches
      omega
  | some index =>
      refine Nat.le_trans approaches.2 ?_
      cases found : (place 1 lines)[index]? with
      | some entry =>
          have inside := accepted.inside (List.mem_of_getElem? found)
          rw [positionOf_of_getElem? found]
          omega
      | none =>
          rw [positionOf, found, Option.map_none, Option.getD_none, startOf_of_length_le,
            accepted.startOf_length]
          rw [← length_place 1 lines]
          exact List.getElem?_eq_none_iff.mp found

end Layout

/-- What `vm_execute` reads at the position of a line. -/
structure ReadLine (source : List SourceLine) (output : AssemblerOutput) (line : ℕ)
    (instruction : Instruction) (params : List SourceParam) (entry : Placed)
    (operands : List Operand) : Prop where
  found : (place 1 (parse none source))[line]? = some entry
  given : entry.line.instruction = some instruction
  parsed : entry.line.params = params.map
    (SourceParam.parse (lastLabelDefined none (source.take (line + 1))))
  opcode : output.bytecode[entry.position]? = some instruction.opcode
  decoded : decode output.bytecode entry.position = .ok (instruction, operands)
  written : operands.map some = params.map (SourceParam.written (place 1 (parse none source))
    (lastLabelDefined none (source.take (line + 1))))
  fits : OperandsFit instruction params

/-- How far the next line's bytes are, unless control goes somewhere else. -/
def stride : Instruction → List Operand → ℕ
  | .STR, [.string str] => 1 + 1 + str.length
  | .STRING, [.string str] => 1 + 4 + str.length
  | instruction, _ => instruction.size

section Lines

variable {source : List SourceLine} {output : AssemblerOutput} {line : ℕ}
  {instruction : Instruction} {params : List SourceParam} {entry : Placed}
  {operands : List Operand}

theorem Accepted.opcode {lines : List Line} {len : ℕ} (accepted : Accepted lines output len)
    (mem : entry ∈ place 1 lines) (given : entry.line.instruction = some instruction) :
    output.bytecode[entry.position]? = some instruction.opcode := by
  rcases accepted.load_line mem given with ⟨block, operands, _, fits, loaded⟩
  have taken := congrArg (fun bytes : Bytes => bytes[0]?) (Buffer.load_eq_ok.mp loaded).2
  simp only [List.cons_append, List.getElem?_cons_zero] at taken
  rw [List.getElem?_take_of_lt (by omega), List.getElem?_drop, Nat.add_zero] at taken
  exact taken.symm

/-- A line of the source is read as it is written. -/
theorem Assembled.readLine (assembled : Assembled source output) {sourceLine : SourceLine}
    (here : source[line]? = some sourceLine) (inst : sourceLine.inst = some (instruction, params)) :
    ∃ entry operands, ReadLine source output line instruction params entry operands := by
  rcases accepted_of_assemble assembled.accepted with ⟨len, accepted⟩
  rcases exists_placed here inst with ⟨entry, found, given, parsed⟩
  have agree := (operandsAgree_iff_fits assembled.accepted).mpr assembled.fits
  rcases agree line sourceLine instruction params here inst with
    ⟨entry', operands, found', decoded, written⟩
  rcases Option.some.inj (found.symm.trans found') with rfl
  have fits := assembled.fits sourceLine (List.mem_of_getElem? here)
  rw [SourceLine.Fits, inst] at fits
  exact ⟨entry, operands, found, given, parsed,
    accepted.opcode (List.mem_of_getElem? found) given, decoded, written, fits⟩

theorem strlen_eq {text : Bytes} (nonzero : 0 ∉ text) : strlen text = text.length := by
  rw [strlen, List.takeWhile_eq_self_iff.mpr]
  intro byte mem
  have other : byte ≠ 0 := by
    rintro rfl
    exact nonzero mem
  simpa using other

namespace ReadLine

theorem readOperands (read : ReadLine source output line instruction params entry operands) :
    readOperands output.bytecode entry.position instruction = .ok operands := by
  rcases Outcome.bind_eq_ok.mp read.decoded with ⟨opcode, _, decoded⟩
  split at decoded
  case h_1 => contradiction
  case h_2 other _ =>
    rcases Outcome.bind_eq_ok.mp decoded with ⟨others, reads, same⟩
    rw [Except.ok.injEq, Prod.mk.injEq] at same
    rcases same with ⟨rfl, rfl⟩
    exact reads

/-- The instruction is fetched where its line is. -/
theorem fetch (read : ReadLine source output line instruction params entry operands)
    {context : VmContext} (here : context.counter = entry.position) :
    context.fetch output.bytecode = some instruction := by
  rw [VmContext.fetch, here, read.opcode]
  exact Instruction.ofOpcode_opcode instruction

/-- The operand of a string instruction is the text that is written. -/
theorem string (read : ReadLine source output line instruction params entry operands)
    (kind : instruction = .STR ∨ instruction = .STRING) :
    ∃ text, params = [.string text] ∧ operands = [.string text] ∧ 0 ∉ text := by
  have fits := read.fits
  have written := read.written
  have text : ∃ text, params = [.string text] ∧ 0 ∉ text := by
    rcases kind with rfl | rfl
    · rcases fits with ⟨text, same, nonzero, _⟩
      exact ⟨text, same, nonzero⟩
    · rcases fits with ⟨text, same, nonzero, _⟩
      exact ⟨text, same, nonzero⟩
  rcases text with ⟨text, rfl, nonzero⟩
  rw [List.map_cons, List.map_nil, SourceParam.written, List.map_eq_singleton_iff] at written
  rcases written with ⟨operand, rfl, same⟩
  rw [Option.some.inj same]
  exact ⟨text, rfl, rfl, nonzero⟩

/-- The bytes of a line are as many as its instruction goes on by. -/
theorem length_eq (read : ReadLine source output line instruction params entry operands) :
    entry.length = stride instruction operands := by
  have given := read.given
  have parsed := read.parsed
  rw [length_of_mem_place (List.mem_of_getElem? read.found)]
  by_cases kind : instruction = .STR ∨ instruction = .STRING
  · rcases read.string kind with ⟨text, rfl, rfl, nonzero⟩
    rw [length_of_string given kind parsed, strlen_eq nonzero]
    rcases kind with rfl | rfl
    · rfl
    · rfl
  · rw [not_or] at kind
    unfold Line.length stride
    split
    case h_1 absent => rw [given] at absent; cases absent
    case h_2 same _ => exact absurd (Option.some.inj (given.symm.trans same)) kind.1
    case h_3 same _ => exact absurd (Option.some.inj (given.symm.trans same)) kind.2
    case h_4 same _ _ =>
      rcases Option.some.inj (given.symm.trans same) with rfl
      split
      · exact absurd rfl kind.1
      · exact absurd rfl kind.2
      · rfl

/-- A line lies between the guards. -/
theorem inside (read : ReadLine source output line instruction params entry operands)
    (assembled : Assembled source output) :
    1 ≤ entry.position ∧ entry.position + entry.length < output.bytecode.length := by
  rcases accepted_of_assemble assembled.accepted with ⟨len, accepted⟩
  have inside := accepted.inside (List.mem_of_getElem? read.found)
  rw [accepted.length]
  exact ⟨inside.1, Nat.lt_succ_of_le inside.2⟩

end ReadLine

/-- The instruction leaves control to the next line. -/
structure Plain (answers : Answers) (instruction : Instruction) : Prop where
  stays : instruction ∉
    [.END, .NOOP, .CALL, .FRCALL, .RETURN, .JMP, .JMP0, .JMPU]
  fills : instruction = .ARFILL ∨ instruction = .HRFILL → answers.fills = true

theorem Plain.flow {answers : Answers} (plain : Plain answers instruction)
    (source : List SourceLine) (line : ℕ) (frames : List SourceFrame)
    (params : List SourceParam) :
    flow source line answers frames instruction params = some (some (line + 1), frames) := by
  rcases plain with ⟨stays, fills⟩
  unfold Dang.flow
  split
  case h_12 | h_13 => rw [if_pos (fills (by simp))]
  case h_14 => rfl
  all_goals simp at stays

theorem loadString_of_readOperands {bytecode : Bytes} {position size : ℕ}
    {operands : List Operand}
    (success : (do let str ← loadString bytecode position size; .ok [Operand.string str]) =
      .ok operands) : ∃ str, loadString bytecode position size = .ok str ∧
      operands = [.string str] := by
  rcases Outcome.bind_eq_ok.mp success with ⟨str, loaded, same⟩
  exact ⟨str, loaded, (Except.ok.inj same).symm⟩

/-- Such an instruction goes on by the bytes of its line. -/
theorem Plain.execute {answers : Answers} (plain : Plain answers instruction) {bytecode : Bytes}
    {context : VmContext} (fuel : ℕ)
    (reads : Dang.readOperands bytecode context.counter instruction = .ok operands)
    (small : stride instruction operands < 2 ^ 31) :
    context.execute fuel bytecode answers instruction =
      .ok ((stride instruction operands : ℤ), context) := by
  rcases plain with ⟨stays, fills⟩
  unfold VmContext.execute
  split
  case h_9 =>
    rcases loadString_of_readOperands reads with ⟨str, loaded, rfl⟩
    rw [stride] at small
    rw [loaded, Outcome.ok_bind, intOfSize_of_small small, stride]
  case h_10 =>
    rcases loadString_of_readOperands reads with ⟨str, loaded, rfl⟩
    rw [stride] at small
    rw [loaded, Outcome.ok_bind, intOfSize_of_small small, stride]
  case h_11 | h_12 => rw [if_pos (fills (by simp))]; rfl
  case h_13 notSTR notSTRING _ _ =>
    rw [reads, Outcome.ok_bind, stride]
    · exact fun _ same _ => notSTR same
    · exact fun _ same _ => notSTRING same
  all_goals simp at stays

/-- A label is defined on one line, and the way there is stored. -/
theorem ReadLine.labelLine (read : ReadLine source output line instruction params entry operands)
    (assembled : Assembled source output) {label : LabelName}
    (branches : BranchesTo label instruction params) :
    ∃ target definition, Dang.labelLine source line label = some target ∧
      (place 1 (parse none source))[target]? = some definition ∧
      loadNumber output.bytecode (entry.position + 1) 8 =
        .ok (if instruction = .CALL then definition.position
          else sizeSub definition.position entry.position) := by
  rcases accepted_of_assemble assembled.accepted with ⟨len, accepted⟩
  rcases accepted.load_branch (List.mem_of_getElem? read.found) read.given read.parsed branches with
    ⟨definition, mem, defines, _, loaded⟩
  have inLines : definition.line ∈ parse none source := by
    rw [← map_line_place 1 (parse none source)]
    exact List.mem_map_of_mem mem
  cases found : Dang.labelLine source line label with
  | none =>
      have undefined := List.findIdx?_eq_none_iff.mp found definition.line inLines
      exact absurd defines (of_decide_eq_false undefined)
  | some target =>
      have first := List.of_findIdx?_eq_some found
      split at first
      case h_2 => cases first
      case h_1 parsed here =>
        rcases getElem?_place 1 here with ⟨other, otherFound, rfl⟩
        have same := accepted.definition_unique mem (List.mem_of_getElem? otherFound) defines
          (of_decide_eq_true first)
        exact ⟨target, definition, rfl, same ▸ otherFound, loaded⟩

/-- A position is that of a line. -/
theorem lineAt_eq_some {position target : ℕ} (found : lineAt source position = some target) :
    ∃ entry, (place 1 (parse none source))[target]? = some entry ∧ entry.position = position := by
  have first := List.of_findIdx?_eq_some found
  split at first
  case h_2 => cases first
  case h_1 entry here => exact ⟨entry, here, of_decide_eq_true first⟩

end Lines

section Leading

variable {source : List SourceLine} {output : AssemblerOutput} {line : ℕ}
  {instruction : Instruction} {params : List SourceParam} {entry : Placed}
  {operands : List Operand} {context : VmContext} {answers : Answers}
  {frames frames' : List SourceFrame} {next : Option ℕ}

/-- The instruction of a line leads the context to where the line leads the program. -/
def Leads (source : List SourceLine) (bytecode : Bytes) (context : VmContext)
    (answers : Answers) (instruction : Instruction) (next : Option ℕ)
    (frames : List SourceFrame) : Prop :=
  ∃ incr executed,
    (∀ fuel, context.execute (fuel + 2) bytecode answers instruction = .ok (incr, executed)) ∧
      Mirrors source { executed with counter := sizeOfInt (context.counter + incr) } next frames

/-- Going on to a position, in the same calls. -/
theorem Mirrors.go (mirrors : Mirrors source context (some line) frames) {counter : ℕ}
    (approaches : Approaches (parse none source) next counter) :
    Mirrors source { context with counter := counter } next frames :=
  ⟨approaches.settle, mirrors.isOpen.setCounter counter, mirrors.returns⟩

theorem ReadLine.small (read : ReadLine source output line instruction params entry operands)
    (assembled : Assembled source output) : entry.position + entry.length < 2 ^ 31 :=
  Nat.lt_trans (read.inside assembled).2 assembled.small

/-- The next line comes next. -/
theorem ReadLine.approaches (read : ReadLine source output line instruction params entry operands) :
    Approaches (parse none source) (some (line + 1))
      (entry.position + stride instruction operands) := by
  rw [← read.length_eq]
  exact approaches_succ read.found

theorem leads_plain (assembled : Assembled source output)
    (read : ReadLine source output line instruction params entry operands)
    (mirrors : Mirrors source context (some line) frames) (here : context.counter = entry.position)
    (plain : Plain answers instruction) :
    Leads source output.bytecode context answers instruction (some (line + 1)) frames := by
  have small := read.small assembled
  rw [read.length_eq] at small
  have reads := read.readOperands
  rw [← here] at reads
  refine ⟨_, context, fun fuel => plain.execute (fuel + 2) reads (by omega), ?_⟩
  apply mirrors.go
  rw [here, arrives_of_length small]
  exact read.approaches

/-- A branch to a line. -/
theorem approaches_target (assembled : Assembled source output) {target : ℕ} {definition : Placed}
    (found : (place 1 (parse none source))[target]? = some definition)
    (read : ReadLine source output line instruction params entry operands) :
    Approaches (parse none source) (some target)
      (sizeOfInt (entry.position + intOfSize (sizeSub definition.position entry.position))) := by
  rcases accepted_of_assemble assembled.accepted with ⟨len, accepted⟩
  have inside := accepted.inside (List.mem_of_getElem? found)
  have lengths := accepted.length
  have short := assembled.small
  have small := read.small assembled
  rw [arrives_of_small (by omega) (by omega), ← positionOf_of_getElem? found]
  exact approaches_positionOf _ target

theorem leads_jump (assembled : Assembled source output)
    (read : ReadLine source output line instruction params entry operands)
    (mirrors : Mirrors source context (some line) frames) (here : context.counter = entry.position)
    {label : LabelName} (isParams : params = [.labelOff label])
    (kind : instruction = .JMP ∨ instruction = .JMP0 ∨ instruction = .JMPU)
    (taken : instruction ≠ .JMP → answers.branches = true) {target : ℕ}
    (found : labelLine source line label = some target) :
    Leads source output.bytecode context answers instruction (some target) frames := by
  subst isParams
  rcases read.labelLine assembled (.jump [] kind) with ⟨target', definition, found', atLine, loaded⟩
  rcases Option.some.inj (found.symm.trans found') with rfl
  have notCALL : instruction ≠ .CALL := by
    rcases kind with rfl | rfl | rfl
    · decide
    · decide
    · decide
  rw [if_neg notCALL, ← here] at loaded
  refine ⟨intOfSize (sizeSub definition.position context.counter), context, fun fuel => ?_,
    mirrors.go ?_⟩
  · rcases kind with rfl | rfl | rfl
    · simp [VmContext.execute, loaded]
    · simp [VmContext.execute, loaded, taken (by decide)]
    · simp [VmContext.execute, loaded, taken (by decide)]
  · rw [here]
    exact approaches_target assembled atLine read

/-- A conditional branch that is not taken. -/
theorem leads_on (assembled : Assembled source output)
    (read : ReadLine source output line instruction params entry operands)
    (mirrors : Mirrors source context (some line) frames) (here : context.counter = entry.position)
    {label : LabelName} (isParams : params = [.labelOff label])
    (kind : instruction = .JMP0 ∨ instruction = .JMPU) (stays : answers.branches = false) :
    Leads source output.bytecode context answers instruction (some (line + 1)) frames := by
  subst isParams
  have small := read.small assembled
  have approaches := read.approaches
  have size : stride instruction operands = 9 := by
    rcases kind with rfl | rfl
    · rfl
    · rfl
  rcases read.labelLine assembled (.jump [] (Or.inr kind)) with ⟨_, definition, _, _, loaded⟩
  rw [read.length_eq, size] at small
  rw [size] at approaches
  rw [← here] at loaded
  refine ⟨(9 : ℕ), context, fun fuel => ?_, mirrors.go ?_⟩
  · rcases kind with rfl | rfl
    · simp [VmContext.execute, loaded, stays]
    · simp [VmContext.execute, loaded, stays]
  · rw [here, arrives_of_length small]
    exact approaches

/-- A call saves a state that leads to the next line, and goes to a line. -/
theorem Mirrors.call {current : Option ℕ} (mirrors : Mirrors source context current frames)
    {position : ℕ}
    {saved called : VmContext} (fresh : answers.Fresh context) (nonzero : answers.table ≠ 0)
    (room : context.HasRoom answers) (saves : context.saveState answers position = .ok saved)
    (starts : saved.startScope answers = .ok called) {returns : Option ℕ}
    (back : Approaches (parse none source) (settle source returns) position) {counter : ℕ}
    (approaches : Approaches (parse none source) next counter) (flags : Flags32) :
    Mirrors source { called with counter := counter, flags := flags } next
      (⟨returns, answers.table⟩ :: frames) := by
  rcases mirrors.isOpen.enter fresh nonzero room saves starts with ⟨isOpen, states, _⟩
  refine ⟨approaches.settle, (isOpen.setFlags flags).setCounter counter, ?_⟩
  rw [VmContext.states] at states
  simp only [VmContext.states, states]
  exact List.Forall₂.cons back mirrors.returns

theorem leads_CALL (assembled : Assembled source output)
    (read : ReadLine source output line .CALL params entry operands)
    (mirrors : Mirrors source context (some line) frames) (here : context.counter = entry.position)
    (fresh : answers.Fresh context) (nonzero : answers.table ≠ 0) (room : context.HasRoom answers)
    {label : LabelName} (isParams : params = [.labelLoc label]) {target : ℕ}
    (found : labelLine source line label = some target) :
    Leads source output.bytecode context answers .CALL (some target)
      (⟨some (line + 1), answers.table⟩ :: frames) := by
  subst isParams
  rcases read.labelLine assembled (.call []) with ⟨target', definition, found', atLine, loaded⟩
  rcases Option.some.inj (found.symm.trans found') with rfl
  rw [if_pos rfl, ← here] at loaded
  rcases mirrors.isOpen.exists_enter fresh (context.counter + 1 + 8) with
    ⟨saved, called, saves, starts⟩
  rcases mirrors.isOpen.enter fresh nonzero room saves starts with ⟨_, _, counter⟩
  refine ⟨context.jump definition.position, called, fun fuel => ?_,
    mirrors.call fresh nonzero room saves starts ?_ ?_ called.flags⟩
  · simp [VmContext.execute, VmContext.instCALL, loaded, saves, starts, VmContext.jump, counter]
  · rw [here]
    exact read.approaches.settle
  · rw [VmContext.jump, here]
    exact approaches_target assembled atLine read

theorem leads_FRCALL (assembled : Assembled source output)
    (read : ReadLine source output line .FRCALL params entry operands)
    (mirrors : Mirrors source context (some line) frames) (here : context.counter = entry.position)
    (fresh : answers.Fresh context) (nonzero : answers.table ≠ 0) (room : context.HasRoom answers)
    {target : ℕ} (found : lineAt source answers.function = some target) :
    Leads source output.bytecode context answers .FRCALL (some target)
      (⟨some (line + 1), answers.table⟩ :: frames) := by
  rcases lineAt_eq_some found with ⟨definition, atLine, position⟩
  rcases mirrors.isOpen.exists_enter fresh (context.counter + 1) with
    ⟨saved, called, saves, starts⟩
  rcases mirrors.isOpen.enter fresh nonzero room saves starts with ⟨_, _, counter⟩
  refine ⟨context.jump answers.function, called, fun fuel => ?_,
    mirrors.call fresh nonzero room saves starts ?_ ?_ called.flags⟩
  · simp [VmContext.execute, VmContext.instFRCALL, saves, starts, VmContext.jump, counter]
  · rw [here]
    exact read.approaches.settle
  · rw [VmContext.jump, here, ← position]
    exact approaches_target assembled atLine read

theorem leads_RETURN (assembled : Assembled source output)
    (read : ReadLine source output line .RETURN params entry operands) {frame : SourceFrame}
    (mirrors : Mirrors source context (some line) (frame :: frames))
    (here : context.counter = entry.position) :
    Leads source output.bytecode context answers .RETURN frame.returns frames := by
  rcases accepted_of_assemble assembled.accepted with ⟨len, accepted⟩
  have returns := mirrors.returns
  cases states : context.states with
  | nil =>
      rw [states] at returns
      cases returns
  | cons state rest =>
      rw [states] at returns
      rcases List.forall₂_cons.mp returns with ⟨back, others⟩
      rcases mirrors.isOpen.returns states with ⟨after, returned, isOpen, afterStates, counter⟩
      have small := read.small assembled
      have short := assembled.small
      have lengths := accepted.length
      have target := accepted.le_of_approaches back
      refine ⟨context.jump state.position, after, returned, ?_, isOpen.setCounter _, ?_⟩
      · rw [VmContext.jump, here, arrives_of_small (by omega) (by omega)]
        exact back
      · rw [← afterStates] at others
        exact others

/-- Every instruction other than `NOOP` leads where the program goes. -/
theorem leads_of_flow (assembled : Assembled source output)
    (read : ReadLine source output line instruction params entry operands)
    (mirrors : Mirrors source context (some line) frames) (here : context.counter = entry.position)
    (fresh : answers.Fresh context) (nonzero : answers.table ≠ 0) (room : context.HasRoom answers)
    (notNOOP : instruction ≠ .NOOP)
    (flows : flow source line answers frames instruction params = some (next, frames')) :
    Leads source output.bytecode context answers instruction next frames' := by
  by_cases plain : Plain answers instruction
  · rw [plain.flow source line frames params, Option.some.injEq, Prod.mk.injEq] at flows
    rcases flows with ⟨rfl, rfl⟩
    exact leads_plain assembled read mirrors here plain
  unfold flow at flows
  split at flows
  case h_1 | h_6 | h_7 | h_8 | h_9 => contradiction
  case h_2 label =>
    rcases Option.map_eq_some_iff.mp flows with ⟨target, found, same⟩
    rcases Prod.mk.inj same with ⟨rfl, rfl⟩
    exact leads_jump assembled read mirrors here rfl (Or.inl rfl) (fun other => absurd rfl other)
      found
  case h_3 label =>
    split at flows
    case isTrue taken =>
      rcases Option.map_eq_some_iff.mp flows with ⟨target, found, same⟩
      rcases Prod.mk.inj same with ⟨rfl, rfl⟩
      exact leads_jump assembled read mirrors here rfl (Or.inr (Or.inl rfl)) (fun _ => taken) found
    case isFalse stays =>
      rcases Prod.mk.inj (Option.some.inj flows) with ⟨rfl, rfl⟩
      exact leads_on assembled read mirrors here rfl (Or.inl rfl) (Bool.eq_false_iff.mpr stays)
  case h_4 label =>
    split at flows
    case isTrue taken =>
      rcases Option.map_eq_some_iff.mp flows with ⟨target, found, same⟩
      rcases Prod.mk.inj same with ⟨rfl, rfl⟩
      exact leads_jump assembled read mirrors here rfl (Or.inr (Or.inr rfl)) (fun _ => taken) found
    case isFalse stays =>
      rcases Prod.mk.inj (Option.some.inj flows) with ⟨rfl, rfl⟩
      exact leads_on assembled read mirrors here rfl (Or.inr rfl) (Bool.eq_false_iff.mpr stays)
  case h_5 label =>
    rcases Option.map_eq_some_iff.mp flows with ⟨target, found, same⟩
    rcases Prod.mk.inj same with ⟨rfl, rfl⟩
    exact leads_CALL assembled read mirrors here fresh nonzero room rfl found
  case h_10 =>
    rcases Option.map_eq_some_iff.mp flows with ⟨target, found, same⟩
    rcases Prod.mk.inj same with ⟨rfl, rfl⟩
    exact leads_FRCALL assembled read mirrors here fresh nonzero room found
  case h_11 =>
    split at flows
    case h_1 => contradiction
    case h_2 =>
      rcases Prod.mk.inj (Option.some.inj flows) with ⟨rfl, rfl⟩
      exact leads_RETURN assembled read mirrors here
  case h_12 | h_13 =>
    split at flows
    case isTrue fills => exact absurd ⟨by simp, fun _ => fills⟩ plain
    case isFalse => contradiction
  case h_14 notEND notJMP notJMP0 notJMPU notCALL notFRCALL notRETURN notARFILL notHRFILL _ _ _ _ =>
    refine absurd ⟨?_, ?_⟩ plain
    · simp only [List.mem_cons, List.not_mem_nil, or_false]
      rintro (same | same | same | same | same | same | same | same)
      · exact notEND same
      · exact notNOOP same
      · exact notCALL same
      · exact notFRCALL same
      · exact notRETURN same
      · exact notJMP same
      · exact notJMP0 same
      · exact notJMPU same
    · rintro (same | same)
      · exact absurd same notARFILL
      · exact absurd same notHRFILL

end Leading

end Dang
