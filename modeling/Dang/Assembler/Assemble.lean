import Dang.Assembler.Source
import Dang.Foundations.Buffer
import Dang.Memory

/-!
# Assembling

What `assemble` does once the source is parsed. A first pass over the lines gives
each a position and a length, and a second one stores each line's instruction and
operands at its position, into bytecode that is filled with `NOOP` beforehand.
-/

namespace Dang

/-- A line with its `m_position` and `m_length`. -/
structure Placed where
  line : Line
  position : ℕ
  length : ℕ
  deriving DecidableEq, Repr

/-- `assembler_output_t` -/
structure AssemblerOutput where
  bytecodeStart : ℕ
  bytecode : Bytes
  deriving DecidableEq, Repr

/-- `sizeof(assembler_output_t)` -/
def sizeofAssemblerOutput : ℕ := 16

/-- `strlen` of a parameter's string, in which zero bytes follow the text. -/
def strlen (text : Bytes) : ℕ := (text.takeWhile (· ≠ 0)).length

namespace Line

/-- The `m_length` of a line. -/
def length (line : Line) : ℕ :=
  match line.instruction, line.params with
  | none, _ => 0
  | some .STR, .string text :: _ => Instruction.STR.size + strlen text
  | some .STRING, .string text :: _ => Instruction.STRING.size + strlen text
  | some instruction, _ => instruction.size

/-- The `m_position` of a line, when the line before it ends at `next`: the first position at
or after that which is one before a multiple of four, if the line has to be aligned. -/
def position (line : Line) (next : ℕ) : ℕ :=
  if 2 < line.length ∧ line.instruction ≠ some .STR then next + (3 - next % 4)
  else next

end Line

/-- The first pass over the lines. -/
def place (next : ℕ) : List Line → List Placed
  | [] => []
  | line :: rest =>
      ⟨line, line.position next, line.length⟩ :: place (line.position next + line.length) rest

/-- The label a parameter refers to. -/
def Param.label : Param → Option Bytes
  | .labelLoc label | .labelOff label => some label
  | _ => none

/-- `g_labels`: the labels that are defined or referred to. -/
def labels (lines : List Line) : List Bytes :=
  lines.flatMap fun line => line.label.toList ++ line.params.filterMap Param.label

/-- The labels that are defined, line by line. -/
def defined (lines : List Line) : List Bytes := lines.filterMap Line.label

/-- The position of the label's `m_line`. -/
def labelPosition (placed : List Placed) (label : Bytes) : Option ℕ :=
  (placed.find? fun entry => entry.line.label = some label).map Placed.position

/-- The position found by following the `m_line` of a label. -/
def followLabel (placed : List Placed) (label : Bytes) : Outcome ℕ :=
  match labelPosition placed label with
  | some position => .ok position
  | none => .error .nullPointer

/-- The status is -1. -/
def failed : Outcome (Option Bytes) := .ok none

/-- A case that requires an integer parameter and stores `size` bytes of it. -/
def storeInteger (entry : Placed) (size : ℕ) (bytecode : Bytes) : Outcome (Option Bytes) :=
  match entry.line.params with
  | .integer i :: _ =>
      some <$> Buffer.store bytecode (entry.position + 1) (littleEndian size i.toNat)
  | _ => failed

/-- `case i_FLOAT` -/
def storeFloat (entry : Placed) (bytecode : Bytes) : Outcome (Option Bytes) :=
  match entry.line.params with
  | .float f :: _ => some <$> Buffer.store bytecode (entry.position + 1) (littleEndian 8 f.toNat)
  | _ => failed

/-- `case i_CALL`, `case i_CORO` and `case i_FUNLIT` -/
def storeLabelLoc (placed : List Placed) (entry : Placed) (bytecode : Bytes) :
    Outcome (Option Bytes) :=
  match entry.line.params with
  | .labelLoc label :: _ => do
      let handle ← followLabel placed label
      some <$> Buffer.store bytecode (entry.position + 1) (littleEndian 8 handle)
  | _ => failed

/-- `case i_JMP`, `case i_JMP0` and `case i_JMPU` -/
def storeLabelOff (placed : List Placed) (entry : Placed) (bytecode : Bytes) :
    Outcome (Option Bytes) :=
  match entry.line.params with
  | .labelOff label :: _ => do
      let target ← followLabel placed label
      let offset := sizeSub target entry.position
      some <$> Buffer.store bytecode (entry.position + 1) (littleEndian 8 offset)
  | _ => failed

/-- `case i_STR` and `case i_STRING`, whose length takes up the bytes that their
`instruction_sizes` have for operands. -/
def storeString (entry : Placed) (instruction : Instruction) (bytecode : Bytes) :
    Outcome (Option Bytes) :=
  match entry.line.params with
  | .string text :: _ => do
      let size := instruction.size - 1
      let length := (entry.length - instruction.size) % 256 ^ size
      let bytecode ← Buffer.store bytecode (entry.position + 1) (littleEndian size length)
      some <$> Buffer.store bytecode (entry.position + instruction.size) (text.take length)
  | _ => failed

/-- `case i_SYMDEF` -/
def storeSymdef (entry : Placed) (bytecode : Bytes) : Outcome (Option Bytes) :=
  match entry.line.params with
  | .integer flags :: .integer identifier :: _ => do
      let bytecode ← Buffer.store bytecode (entry.position + 1) (littleEndian 4 flags.toNat)
      some <$> Buffer.store bytecode (entry.position + 1 + 4) (littleEndian 8 identifier.toNat)
  | _ => failed

/-- The operands of a line with more than one byte. Casting an `intptr_t` to `uint8_t` or
`flags32_t` keeps its low bytes. -/
def storeOperands (placed : List Placed) (entry : Placed) (instruction : Instruction)
    (bytecode : Bytes) : Outcome (Option Bytes) :=
  match instruction with
  | .BYTE | .OPEN => storeInteger entry 1 bytecode
  | .CALL | .CORO | .FUNLIT => storeLabelLoc placed entry bytecode
  | .INT => storeInteger entry 8 bytecode
  | .FLOAT => storeFloat entry bytecode
  | .STR => storeString entry .STR bytecode
  | .STRING => storeString entry .STRING bytecode
  | .JMP | .JMP0 | .JMPU => storeLabelOff placed entry bytecode
  | .SYMDEF => storeSymdef entry bytecode
  | .SYMFIND | .SYMUNDEF => storeInteger entry 8 bytecode
  | _ => .ok (some bytecode)

/-- A line is reduced to bytecode. A line without an instruction has no bytes. -/
def storeLine (placed : List Placed) (entry : Placed) (bytecode : Bytes) :
    Outcome (Option Bytes) :=
  match entry.line.instruction with
  | none => .ok (some bytecode)
  | some instruction => do
      let bytecode ← Buffer.store bytecode entry.position [instruction.opcode]
      if 1 < entry.length then storeOperands placed entry instruction bytecode
      else .ok (some bytecode)

/-- The second pass over the lines. -/
def storeLines (placed : List Placed) : List Placed → Bytes → Outcome (Option Bytes)
  | [], bytecode => .ok (some bytecode)
  | entry :: rest, bytecode => do
      match ← storeLine placed entry bytecode with
      | some bytecode => storeLines placed rest bytecode
      | none => failed

/-- The bytecode before a line is stored, with a guard at either end. -/
def blankBytecode (len : ℕ) : Bytes :=
  ((List.replicate (len - 1) Instruction.NOOP.opcode ++ [Instruction.END.opcode]).set 0
    Instruction.END.opcode)

/-- `assemble`, from the lines that `yyparse` leaves. Storage runs out where the output would
be larger than an object can be, and `malloc`'s answer is not looked at. -/
def assemble (lines : List Line) : Outcome (Option AssemblerOutput) :=
  let placed := place 1 lines
  match placed.getLast? with
  | none => .error .nullPointer
  | some last =>
      let len := last.position + last.length + 1
      if sizeMax < sizeofAssemblerOutput + len then .error .nullPointer
      else if (defined lines).Nodup ∧ ∀ label ∈ labels lines, label ∈ defined lines then do
        match ← storeLines placed placed (blankBytecode len) with
        | none => .ok none
        | some bytecode =>
            .ok (some ⟨(labelPosition placed (ascii "main")).getD 1, bytecode⟩)
      else .ok none

end Dang
