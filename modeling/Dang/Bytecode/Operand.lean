import Dang.Bytecode.Instruction
import Dang.Foundations.Buffer
import Dang.Memory

/-!
# Operands in the bytecode

The operands that the `inst_*` functions read from the bytecode behind their
opcode, with the width and the sign each function gives them.
-/

namespace Dang

/-- An operand of an instruction. A position is where the instruction refers to. -/
inductive Operand
  | number (value : ℤ)
  | float (bits : BitVec 64)
  | string (bytes : Bytes)
  | position (position : ℕ)
  deriving DecidableEq, Repr

/-- An unsigned number of some bytes is read. -/
def loadNumber (bytecode : Bytes) (position size : ℕ) : Outcome ℕ := do
  let block ← Buffer.load bytecode position size
  .ok (ofLittleEndian block)

/-- The length of a string and the string itself, as `inst_STR` and `inst_STRING` read them. -/
def loadString (bytecode : Bytes) (position size : ℕ) : Outcome Bytes := do
  let len ← loadNumber bytecode position size
  Buffer.load bytecode (position + size) len

/-- What the `inst_*` function of an instruction at a position reads. -/
def readOperands (bytecode : Bytes) (counter : ℕ) : Instruction → Outcome (List Operand)
  | .CALL | .CORO | .FUNLIT => do
      let handle ← loadNumber bytecode (counter + 1) 8
      .ok [.position handle]
  | .JMP | .JMP0 | .JMPU => do
      let offset ← loadNumber bytecode (counter + 1) 8
      .ok [.position (sizeAdd counter offset)]
  | .SYMDEF => do
      let flags ← loadNumber bytecode (counter + 1) 4
      let identifier ← loadNumber bytecode (counter + 1 + 4) 8
      .ok [.number flags, .number identifier]
  | .SYMFIND | .SYMCLONE | .SYMUNDEF => do
      let identifier ← loadNumber bytecode (counter + 1) 8
      .ok [.number identifier]
  | .BYTE | .OPEN => do
      let byte ← loadNumber bytecode (counter + 1) 1
      .ok [.number byte]
  | .INT => do
      let lit ← loadNumber bytecode (counter + 1) 8
      .ok [.number (BitVec.ofNat 64 lit).toInt]
  | .FLOAT => do
      let lit ← loadNumber bytecode (counter + 1) 8
      .ok [.float (BitVec.ofNat 64 lit)]
  | .STR => do
      let str ← loadString bytecode (counter + 1) 1
      .ok [.string str]
  | .STRING => do
      let str ← loadString bytecode (counter + 1) 4
      .ok [.string str]
  | _ => .ok []

/-- The instruction at a position and its operands. -/
def decode (bytecode : Bytes) (counter : ℕ) : Outcome (Instruction × List Operand) := do
  let opcode ← loadNumber bytecode counter 1
  match Instruction.ofOpcode (Fin.ofNat 256 opcode) with
  | none => .error .assertion
  | some instruction => do
      let operands ← readOperands bytecode counter instruction
      .ok (instruction, operands)

section Loaded

variable {bytecode front back : Bytes} {position size : ℕ}

theorem loadNumber_of_load {block : Bytes}
    (loaded : Buffer.load bytecode position size = .ok block) :
    loadNumber bytecode position size = .ok (ofLittleEndian block) := by
  rw [loadNumber, loaded]
  rfl

/-- A number is read as it was stored, up to what its bytes cannot hold. -/
theorem loadNumber_littleEndian (width number : ℕ)
    (loaded : Buffer.load bytecode position size =
      .ok (front ++ littleEndian width number ++ back)) :
    loadNumber bytecode (position + front.length) width = .ok (number % 256 ^ width) := by
  have part := Buffer.load_middle loaded
  rw [length_littleEndian] at part
  rw [loadNumber_of_load part, ofLittleEndian_littleEndian]

/-- A string is read as it was stored, if its length fits. -/
theorem loadString_littleEndian (width : ℕ) {text : Bytes} (fits : text.length < 256 ^ width)
    (loaded : Buffer.load bytecode position size =
      .ok (front ++ (littleEndian width text.length ++ text) ++ back)) :
    loadString bytecode (position + front.length) width = .ok text := by
  have atLength : Buffer.load bytecode position size =
      .ok (front ++ littleEndian width text.length ++ (text ++ back)) := by
    rw [loaded]
    simp only [List.append_assoc]
  have atText : Buffer.load bytecode position size =
      .ok (front ++ littleEndian width text.length ++ text ++ back) := by
    rw [loaded]
    simp only [List.append_assoc]
  have part := Buffer.load_middle atText
  rw [List.length_append, length_littleEndian, ← Nat.add_assoc] at part
  rw [loadString, loadNumber_littleEndian width text.length atLength, Nat.mod_eq_of_lt fits,
    Outcome.ok_bind]
  exact part

end Loaded

end Dang
