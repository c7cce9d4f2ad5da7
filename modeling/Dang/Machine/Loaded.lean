import Dang.Assembler.Assemble
import Dang.Machine.Context

/-!
# Bytecode files

What `read_bytecode_file` makes of a file, and what `vm_execute` then fetches. The loader
believes the length in the header and ignores how much it could read, and an instruction
fetches its operands wherever they are; so what is fetched was read from the file exactly
as long as no instruction is executed that the end of the file cuts off.
-/

namespace Dang

/-- `ENOMEM` -/
def ENOMEM : ℤ := 12

/-- The program handed over: the header, and the bytes that were read to `m_bytecode`. -/
structure LoadedProgram where
  bytecodeLength : ℕ
  bytecodeStart : ℕ
  bytecode : Bytes
  deriving DecidableEq

/-- `header` after `fread`: zero where the file was too short for it. -/
def headerBytes (file : Bytes) : Bytes :=
  let read := (file.drop 4).take sizeofAssemblerOutput
  read ++ List.replicate (sizeofAssemblerOutput - read.length) 0

/-- `header.m_bytecode_length` -/
def headerLength (file : Bytes) : ℕ := ofLittleEndian ((headerBytes file).take 8)

/-- `header.m_bytecode_start` -/
def headerStart (file : Bytes) : ℕ := ofLittleEndian ((headerBytes file).drop 8)

/-- The bytes that the last `fread` finds for `m_bytecode`. -/
def bytecodeRead (file : Bytes) : Bytes :=
  (file.drop (4 + sizeofAssemblerOutput)).take (headerLength file)

/-- `read_bytecode_file` of a file that can be opened. -/
def readBytecodeFile (memory : Memory) (file : Bytes) : Outcome (ℤ × Option LoadedProgram) := do
  Outcome.assertThat (file.take 4 = ascii "dong")
  let size := sizeAdd sizeofAssemblerOutput (headerLength file)
  if memory.calloc 1 size then
    -- The sum may have wrapped around, and the header is copied into whatever there is.
    if size < sizeofAssemblerOutput then .error .invalidAccess
    else .ok (0, some ⟨headerLength file, headerStart file, bytecodeRead file⟩)
  else .ok (ENOMEM, none)

/-- `write_bytecode_file` to a file that can be opened. -/
def writeBytecodeFile (program : AssemblerOutput) : Bytes :=
  ascii "dong" ++ (littleEndian 8 program.bytecode.length ++
    (littleEndian 8 program.bytecodeStart ++ program.bytecode))

/-- The number in some bytes, as far as they are there. -/
def numberAt (bytecode : Bytes) (position size : ℕ) : ℕ :=
  ofLittleEndian ((bytecode.drop position).take size)

/-- The instruction at a position. -/
def instructionAt (bytecode : Bytes) (counter : ℕ) : Option Instruction :=
  bytecode[counter]? >>= Instruction.ofOpcode

/-- The positions of the operands that the `inst_*` function of an instruction fetches. -/
def fetchedOperands (bytecode : Bytes) (counter : ℕ) : Instruction → List ℕ
  | .CALL | .CORO | .FUNLIT | .JMP | .JMP0 | .JMPU | .INT | .FLOAT | .SYMFIND | .SYMCLONE
  | .SYMUNDEF => List.range' (counter + 1) 8
  | .SYMDEF => List.range' (counter + 1) 4 ++ List.range' (counter + 1 + 4) 8
  | .BYTE | .OPEN => List.range' (counter + 1) 1
  | .STR => List.range' (counter + 1) 1 ++
      List.range' (counter + 1 + 1) (numberAt bytecode (counter + 1) 1)
  | .STRING => List.range' (counter + 1) 4 ++
      List.range' (counter + 1 + 4) (numberAt bytecode (counter + 1) 4)
  | _ => []

/-- The positions that a round of the loop of `vm_execute` fetches, the opcode first. -/
def fetched (bytecode : Bytes) (counter : ℕ) : List ℕ :=
  match instructionAt bytecode counter with
  | some instruction => counter :: fetchedOperands bytecode counter instruction
  | none => [counter]

/-- The length of the instruction at a position by the table of sizes, with the string behind
it if it has one. -/
def encodedLength (bytecode : Bytes) (counter : ℕ) : ℕ :=
  match instructionAt bytecode counter with
  | some .STR => Instruction.STR.size + numberAt bytecode (counter + 1) 1
  | some .STRING => Instruction.STRING.size + numberAt bytecode (counter + 1) 4
  | some instruction => instruction.size
  | none => 1

/-- The instruction at the counter ends where the bytes end, or before. -/
def Whole (bytecode : Bytes) (counter : ℕ) : Prop :=
  counter + encodedLength bytecode counter ≤ bytecode.length

instance (bytecode : Bytes) (counter : ℕ) : Decidable (Whole bytecode counter) :=
  inferInstanceAs (Decidable (_ ≤ _))

section Fetching

variable {bytecode : Bytes} {counter position size : ℕ}

theorem encodedLength_pos (bytecode : Bytes)
    (counter : ℕ) : 0 < encodedLength bytecode counter := by
  unfold encodedLength
  split
  · exact Nat.add_pos_left (Instruction.size_pos _) _
  · exact Nat.add_pos_left (Instruction.size_pos _) _
  · exact Instruction.size_pos _
  · exact Nat.one_pos

/-- What is fetched are the bytes of the instruction. -/
theorem fetched_eq (bytecode : Bytes) (counter : ℕ) :
    fetched bytecode counter = List.range' counter (encodedLength bytecode counter) := by
  unfold fetched encodedLength
  cases instructionAt bytecode counter with
  | none => rfl
  | some instruction =>
      have string : ∀ width length, counter :: (List.range' (counter + 1) width ++
          List.range' (counter + 1 + width) length) =
            List.range' counter (1 + width + length) := by
        intro width length
        rw [show 1 + width + length = width + length + 1 by omega, List.range'_succ,
          List.range'_append_1]
      cases instruction with
      | STR => exact string 1 _
      | STRING => exact string 4 _
      | _ => rfl

theorem forall_fetched_lt (bytecode : Bytes) (counter bound : ℕ) :
    (∀ position ∈ fetched bytecode counter, position < bound) ↔
      counter + encodedLength bytecode counter ≤ bound := by
  have positive := encodedLength_pos bytecode counter
  rw [fetched_eq]
  simp only [List.mem_range'_1]
  constructor
  · intro inside
    have last := inside (counter + encodedLength bytecode counter - 1) (by omega)
    omega
  · intro whole position place
    omega

theorem loadNumber_returns_iff :
    (∃ number, loadNumber bytecode position size = .ok number) ↔
      position + size ≤ bytecode.length := by
  by_cases inside : position + size ≤ bytecode.length
  · simp [loadNumber, Buffer.load, inside]
  · simp [loadNumber, Buffer.load, inside]

theorem loadNumber_eq_ok {number : ℕ} (success : loadNumber bytecode position size = .ok number) :
    position + size ≤ bytecode.length ∧ number = numberAt bytecode position size := by
  have inside := loadNumber_returns_iff.mp ⟨number, success⟩
  simp only [loadNumber, Buffer.load, inside, if_true, Outcome.ok_bind, Except.ok.injEq] at success
  exact ⟨inside, success.symm⟩

theorem loadString_inside {text : Bytes} (success : loadString bytecode position size = .ok text) :
    position + size + numberAt bytecode position size ≤ bytecode.length ∧
      text.length = numberAt bytecode position size := by
  simp only [loadString, Outcome.bind_eq_ok] at success
  rcases success with ⟨number, loaded, success⟩
  rcases loadNumber_eq_ok loaded with ⟨_, rfl⟩
  unfold Buffer.load at success
  split at success
  case isTrue inside =>
      simp only [Except.ok.injEq] at success
      refine ⟨inside, ?_⟩
      rw [← success, List.length_take, List.length_drop]
      omega
  case isFalse => cases success

/-- An instruction whose operands could be read lies inside the bytecode. -/
theorem whole_of_readOperands {instruction : Instruction} {operands : List Operand}
    (here : instructionAt bytecode counter = some instruction)
    (success : readOperands bytecode counter instruction = .ok operands) :
    Whole bytecode counter := by
  have opcode : counter < bytecode.length := by
    by_contra beyond
    rw [instructionAt, List.getElem?_eq_none (by omega)] at here
    cases here
  unfold Whole encodedLength
  rw [here]
  cases instruction with
  | CALL | CORO | FUNLIT | JMP | JMP0 | JMPU | INT | FLOAT | SYMFIND | SYMCLONE | SYMUNDEF | BYTE
  | OPEN =>
      simp only [readOperands, Outcome.bind_eq_ok] at success
      rcases success with ⟨_, loaded, _⟩
      exact (loadNumber_eq_ok loaded).1
  | SYMDEF =>
      simp only [readOperands, Outcome.bind_eq_ok] at success
      rcases success with ⟨_, _, _, loaded, _⟩
      exact (loadNumber_eq_ok loaded).1
  | STR =>
      simp only [readOperands, Outcome.bind_eq_ok] at success
      rcases success with ⟨_, loaded, _⟩
      have inside := (loadString_inside loaded).1
      have size : Instruction.STR.size = 2 := rfl
      simp only [size]
      omega
  | STRING =>
      simp only [readOperands, Outcome.bind_eq_ok] at success
      rcases success with ⟨_, loaded, _⟩
      have inside := (loadString_inside loaded).1
      have size : Instruction.STRING.size = 5 := rfl
      simp only [size]
      omega
  | _ => exact opcode

/-- Every `inst_*` function that returns has read its operands. -/
theorem readOperands_of_execute {fuel : ℕ} {answers : Answers} {context : VmContext}
    {instruction : Instruction} {result : ℤ × VmContext}
    (success : context.execute fuel bytecode answers instruction = .ok result) :
    ∃ operands, readOperands bytecode context.counter instruction = .ok operands := by
  cases instruction with
  | CALL =>
      simp only [VmContext.execute, VmContext.instCALL, Outcome.bind_eq_ok] at success
      rcases success with ⟨number, loaded, _⟩
      exact ⟨_, by rw [readOperands, loaded]; rfl⟩
  | JMP =>
      simp only [VmContext.execute, Outcome.bind_eq_ok] at success
      rcases success with ⟨number, loaded, _⟩
      exact ⟨_, by rw [readOperands, loaded]; rfl⟩
  | JMP0 | JMPU =>
      simp only [VmContext.execute, Outcome.bind_eq_ok] at success
      rcases success with ⟨number, loaded, _⟩
      exact ⟨_, by rw [readOperands, loaded]; rfl⟩
  | STR | STRING =>
      simp only [VmContext.execute, Outcome.bind_eq_ok] at success
      rcases success with ⟨text, loaded, _⟩
      exact ⟨_, by rw [readOperands, loaded]; rfl⟩
  | END | NOOP | RETURN | FRCALL | ARFILL | HRFILL => exact ⟨[], rfl⟩
  | _ =>
      simp only [VmContext.execute, Outcome.bind_eq_ok] at success
      rcases success with ⟨operands, read, _⟩
      exact ⟨operands, read⟩

/-- A round of the loop needs all that it fetches: without it, no step is made. -/
theorem whole_of_step {source target : VmContext} {answers : Answers}
    (step : VmStep bytecode source (.instruction answers) target) :
    Whole bytecode source.counter := by
  rcases step with ⟨_, instruction, fuel, here, _, advanced⟩
  by_cases noop : instruction = .NOOP
  · subst noop
    exact whole_of_readOperands here rfl
  · simp only [VmContext.advance, noop, if_false, Outcome.bind_eq_ok] at advanced
    rcases advanced with ⟨result, executed, _⟩
    rcases readOperands_of_execute executed with ⟨operands, read⟩
    exact whole_of_readOperands here read

theorem numberAt_append (junk : Bytes) (inside : position + size ≤ bytecode.length) :
    numberAt (bytecode ++ junk) position size = numberAt bytecode position size := by
  unfold numberAt
  rw [List.drop_append_of_le_length (by omega), List.take_append_of_le_length]
  rw [List.length_drop]
  omega

theorem instructionAt_append (junk : Bytes) (inside : counter < bytecode.length) :
    instructionAt (bytecode ++ junk) counter = instructionAt bytecode counter := by
  rw [instructionAt, List.getElem?_append_left inside, instructionAt]

/-- Whether an instruction ends inside some bytes does not depend on what lies behind them. -/
theorem whole_append (bytecode junk : Bytes) (counter : ℕ) :
    counter + encodedLength (bytecode ++ junk) counter ≤ bytecode.length ↔
      Whole bytecode counter := by
  rcases Nat.lt_or_ge counter bytecode.length with before | beyond
  · have string : ∀ width,
        counter + (1 + width + numberAt (bytecode ++ junk) (counter + 1) width) ≤
            bytecode.length ↔
          counter + (1 + width + numberAt bytecode (counter + 1) width) ≤ bytecode.length := by
      intro width
      rcases Nat.lt_or_ge bytecode.length (counter + 1 + width) with short | long
      · constructor
        · intro inside
          omega
        · intro inside
          omega
      · rw [numberAt_append junk long]
    unfold Whole encodedLength
    rw [instructionAt_append junk before]
    cases instructionAt bytecode counter with
    | none => exact Iff.rfl
    | some instruction =>
        cases instruction with
        | STR => exact string 1
        | STRING => exact string 4
        | _ => exact Iff.rfl
  · have first := encodedLength_pos (bytecode ++ junk) counter
    have second := encodedLength_pos bytecode counter
    unfold Whole
    constructor
    · intro inside
      omega
    · intro inside
      omega

end Fetching

/-- A context that executes the program of a file, and the positions it has fetched. -/
structure FetchState where
  context : VmContext
  /-- The instruction at the counter is fetched, and not yet executed. -/
  pending : Bool
  fetched : List ℕ

/-- What happens next in `vm_execute`. -/
inductive FetchEvent
  /-- The test of the loop succeeds, and the instruction and its operands are fetched. -/
  | fetch
  | execute (answers : Answers)
  | signal (answers : Answers) (handler : ℕ)

namespace FetchState

/-- A step of a context. Behind what was read, storage holds whatever it holds. -/
def Step (program : LoadedProgram) (junk : Bytes) (source : FetchState) (event : FetchEvent)
    (target : FetchState) : Prop :=
  match event with
  | .fetch => source.pending = false ∧ source.context.counter < program.bytecodeLength ∧
      target = { source with
        pending := true
        fetched := source.fetched ++ Dang.fetched (program.bytecode ++ junk) source.context.counter }
  | .execute answers => source.pending = true ∧ target.pending = false ∧
      target.fetched = source.fetched ∧
      VmStep (program.bytecode ++ junk) source.context (.instruction answers) target.context
  | .signal answers handler => source.pending = false ∧ target.pending = false ∧
      target.fetched = source.fetched ∧
      VmStep (program.bytecode ++ junk) source.context (.signal answers handler) target.context

/-- Any context, at the start of its loop. -/
def Initial (state : FetchState) : Prop :=
  VmStarts state.context ∧ state.pending = false ∧ state.fetched = []

/-- All that was fetched are bytes that were read from the file. -/
def FromFile (file : Bytes) (state : FetchState) : Prop :=
  ∀ position ∈ state.fetched, position < (bytecodeRead file).length

/-- An instruction is only fetched where the file has all of it. -/
def FetchesWhole (file : Bytes) (state : FetchState) (event : FetchEvent) : Prop :=
  match event with
  | .fetch => Whole (bytecodeRead file) state.context.counter
  | _ => True

variable {memory : Memory} {file junk : Bytes} {program : LoadedProgram}
  {source target : FetchState} {event : FetchEvent}

/-- A step fetches bytes of the file, if the instruction it fetches is whole there. -/
theorem fromFile_step (loaded : program.bytecode = bytecodeRead file)
    (fromFile : source.FromFile file) (step : source.Step program junk event target) :
    target.FromFile file ↔ source.FetchesWhole file event := by
  cases event with
  | fetch =>
      rcases step with ⟨_, _, rfl⟩
      have both : (∀ position ∈ source.fetched ++
            Dang.fetched (program.bytecode ++ junk) source.context.counter,
          position < (bytecodeRead file).length) ↔
          ∀ position ∈ Dang.fetched (program.bytecode ++ junk) source.context.counter,
            position < (bytecodeRead file).length := by
        simp only [List.mem_append]
        constructor
        · intro all position mem
          exact all position (Or.inr mem)
        · rintro new position (old | mem)
          · exact fromFile position old
          · exact new position mem
      rw [loaded] at both
      simp only [FromFile, FetchesWhole, loaded]
      rw [both, forall_fetched_lt, whole_append]
  | execute answers =>
      rcases step with ⟨_, _, same, _⟩
      simp only [FromFile, FetchesWhole, same, iff_true]
      exact fromFile
  | signal answers handler =>
      rcases step with ⟨_, _, same, _⟩
      simp only [FromFile, FetchesWhole, same, iff_true]
      exact fromFile

theorem headerLength_lt (file : Bytes) : headerLength file < 2 ^ 64 := by
  have size : ((headerBytes file).take 8).length = 8 := by
    simp only [headerBytes, sizeofAssemblerOutput, List.length_take, List.length_append,
      List.length_replicate]
    omega
  have bound : headerLength file < 256 ^ (((headerBytes file).take 8).map Fin.val).length := by
    apply Nat.ofDigits_lt_base_pow_length (by decide)
    intro digit mem
    rcases List.mem_map.mp mem with ⟨byte, _, rfl⟩
    exact byte.isLt
  rw [List.length_map, size] at bound
  exact bound

/-- The header is only too long for the block if the size of the block has wrapped around. -/
theorem size_lt_iff (file : Bytes) :
    sizeAdd sizeofAssemblerOutput (headerLength file) < sizeofAssemblerOutput ↔
      2 ^ 64 - sizeofAssemblerOutput ≤ headerLength file := by
  have word := headerLength_lt file
  unfold sizeAdd sizeofAssemblerOutput
  omega

theorem readBytecodeFile_faults_iff (memory : Memory) (file : Bytes) :
    readBytecodeFile memory file = .error .invalidAccess ↔
      file.take 4 = ascii "dong" ∧
        memory.calloc 1 (sizeAdd sizeofAssemblerOutput (headerLength file)) = true ∧
        2 ^ 64 - sizeofAssemblerOutput ≤ headerLength file := by
  rw [← size_lt_iff]
  unfold readBytecodeFile
  by_cases check : file.take 4 = ascii "dong"
  · rw [Outcome.assertThat_of check, Outcome.ok_bind]
    by_cases storage : memory.calloc 1 (sizeAdd sizeofAssemblerOutput (headerLength file)) = true
    · by_cases wrapped : sizeAdd sizeofAssemblerOutput (headerLength file) < sizeofAssemblerOutput
      · simp [check, storage, wrapped]
      · simp [storage, wrapped]
    · simp [storage]
  · simp [check, Outcome.assertThat]

theorem readBytecodeFile_eq_ok (loaded : readBytecodeFile memory file = .ok (0, some program)) :
    program = ⟨headerLength file, headerStart file, bytecodeRead file⟩ := by
  simp only [readBytecodeFile, Outcome.bind_eq_ok] at loaded
  rcases loaded with ⟨_, _, loaded⟩
  split at loaded
  case isTrue =>
      split at loaded
      case isTrue => cases loaded
      case isFalse =>
          simp only [Except.ok.injEq, Prod.mk.injEq, Option.some.injEq, true_and] at loaded
          exact loaded.symm
  case isFalse => simp at loaded

/-- A file that `write_bytecode_file` has written is read back whole. -/
theorem readBytecodeFile_writeBytecodeFile {output : AssemblerOutput}
    (small : sizeofAssemblerOutput + output.bytecode.length < 2 ^ 64)
    (start : output.bytecodeStart < 2 ^ 64)
    (storage : memory.calloc 1 (sizeofAssemblerOutput + output.bytecode.length) = true) :
    readBytecodeFile memory (writeBytecodeFile output) =
      .ok (0, some ⟨output.bytecode.length, output.bytecodeStart, output.bytecode⟩) := by
  have word : (littleEndian 8 output.bytecode.length).length = 8 := length_littleEndian _ _
  have next : (littleEndian 8 output.bytecodeStart).length = 8 := length_littleEndian _ _
  have check : (writeBytecodeFile output).take 4 = ascii "dong" := List.take_left' rfl
  have behind : (writeBytecodeFile output).drop 4 = littleEndian 8 output.bytecode.length ++
      (littleEndian 8 output.bytecodeStart ++ output.bytecode) := List.drop_left' rfl
  have header : headerBytes (writeBytecodeFile output) =
      littleEndian 8 output.bytecode.length ++ littleEndian 8 output.bytecodeStart := by
    have both : (littleEndian 8 output.bytecode.length ++
        littleEndian 8 output.bytecodeStart).length = sizeofAssemblerOutput := by
      rw [List.length_append, word, next]
      rfl
    rw [headerBytes, behind, ← List.append_assoc, List.take_left' both]
    simp only [both, Nat.sub_self, List.replicate_zero, List.append_nil]
  have length : headerLength (writeBytecodeFile output) = output.bytecode.length := by
    rw [headerLength, header, List.take_left' word, ofLittleEndian_littleEndian]
    apply Nat.mod_eq_of_lt
    unfold sizeofAssemblerOutput at small
    omega
  have startsAt : headerStart (writeBytecodeFile output) = output.bytecodeStart := by
    rw [headerStart, header, List.drop_left' word, ofLittleEndian_littleEndian]
    exact Nat.mod_eq_of_lt start
  have rest : bytecodeRead (writeBytecodeFile output) = output.bytecode := by
    rw [bytecodeRead, ← List.drop_drop, behind, ← List.append_assoc, List.drop_left', length,
      List.take_length]
    rw [List.length_append, word, next]
    rfl
  have size : ¬ sizeofAssemblerOutput + output.bytecode.length < sizeofAssemblerOutput := by omega
  simp only [readBytecodeFile, Outcome.assertThat_of check, Outcome.ok_bind, length, startsAt, rest,
    sizeAdd_eq small, storage, if_true, size, if_false]

/-- In a run of any context on a file that was accepted, all that was fetched was read from the
file exactly if each instruction that was fetched is whole there. The loader leaves its own
block only for a length whose block has a size beyond `SIZE_MAX`. -/
theorem fromFile_iff_fetchesWhole (memory : Memory) (file : Bytes) :
    (readBytecodeFile memory file = .error .invalidAccess ↔
      file.take 4 = ascii "dong" ∧
        memory.calloc 1 (sizeAdd sizeofAssemblerOutput (headerLength file)) = true ∧
        2 ^ 64 - sizeofAssemblerOutput ≤ headerLength file) ∧
    ∀ program, readBytecodeFile memory file = .ok (0, some program) →
      ∀ junk start steps, Initial start → IsRun (Step program junk) start steps →
        ((∀ state ∈ visited start steps, state.FromFile file) ↔
          StepsMeet (FetchesWhole file) start steps) := by
  refine ⟨readBytecodeFile_faults_iff memory file, ?_⟩
  intro program loaded junk start steps initial run
  have code : program.bytecode = bytecodeRead file := by rw [readBytecodeFile_eq_ok loaded]
  refine IsRun.forall_visited_iff (Step program junk) (FromFile file) ?_ (fun _ all => all) ?_ ?_ run
  · intro source event target fromFile meets step
    exact (fromFile_step code fromFile step).mpr meets
  · intro source event target fromFile step property
    exact (fromFile_step code fromFile step).mp property
  · intro position mem
    rw [initial.2.2] at mem
    cases mem

section Sample

/-- A file whose bytecode is the opcode of `BYTE`, without its operand. -/
def sampleFile : Bytes :=
  ascii "dong" ++ littleEndian 8 1 ++ littleEndian 8 0 ++ [Instruction.BYTE.opcode]

def sampleProgram : LoadedProgram := ⟨1, 0, [Instruction.BYTE.opcode]⟩

/-- A file that announces more bytecode than there can be. -/
def sampleHuge : Bytes := ascii "dong" ++ littleEndian 8 (2 ^ 64 - 1) ++ littleEndian 8 0

def sampleAnswers : Answers := ⟨.ample, 100, false, 0, true⟩

/-- The main context at the start of its loop. -/
def sampleStart : FetchState where
  context := ((VmContext.init 0 vmContextFlagSigManager).enter sampleAnswers).toOption.getD
    (.init 0 0)
  pending := false
  fetched := []

/-- The run that fetches the only instruction. -/
def sampleSteps : List (FetchEvent × FetchState) :=
  [(.fetch, { sampleStart with pending := true, fetched := [0, 1] })]

theorem sampleStart_initial : sampleStart.Initial :=
  ⟨⟨sampleAnswers, 0, vmContextFlagSigManager,
    Outcome.eq_ok_getD (.init 0 0) (by decide +kernel)⟩, rfl, rfl⟩

theorem sampleFile_loaded : readBytecodeFile .ample sampleFile = .ok (0, some sampleProgram) := by
  decide +kernel

theorem sampleSteps_isRun : IsRun (Step sampleProgram [0]) sampleStart sampleSteps := by
  have fetches : Dang.fetched (sampleProgram.bytecode ++ [0]) sampleStart.context.counter = [0, 1] := by
    decide +kernel
  have inLoop : sampleStart.context.counter < sampleProgram.bytecodeLength := by decide +kernel
  refine ⟨⟨rfl, inLoop, ?_⟩, trivial⟩
  rw [fetches]
  rfl

theorem fromFile_iff_fetchesWhole_sample :
    (∀ state ∈ visited sampleStart sampleSteps, state.FromFile sampleFile) ↔
      StepsMeet (FetchesWhole sampleFile) sampleStart sampleSteps :=
  (fromFile_iff_fetchesWhole .ample sampleFile).2 sampleProgram sampleFile_loaded [0] sampleStart
    sampleSteps sampleStart_initial sampleSteps_isRun

/-- The operand is fetched from behind the only byte there is; and a length beyond what can be
allocated makes the loader itself write outside its block. -/
theorem not_fromFile_sample :
    readBytecodeFile .ample sampleFile = .ok (0, some sampleProgram) ∧ sampleStart.Initial ∧
      IsRun (Step sampleProgram [0]) sampleStart sampleSteps ∧
      (∃ state ∈ visited sampleStart sampleSteps, ¬ state.FromFile sampleFile) ∧
      readBytecodeFile .ample sampleHuge = .error .invalidAccess := by
  refine ⟨sampleFile_loaded, sampleStart_initial, sampleSteps_isRun,
    ⟨{ sampleStart with pending := true, fetched := [0, 1] }, by simp [visited, sampleSteps], ?_⟩,
    by decide +kernel⟩
  intro fromFile
  have short : (bytecodeRead sampleFile).length = 1 := by decide +kernel
  have behind : 1 < (bytecodeRead sampleFile).length := fromFile 1 (by simp)
  omega

end Sample

end FetchState

end Dang
