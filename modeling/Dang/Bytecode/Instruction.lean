import Dang.Bytes
import Mathlib.Algebra.GroupWithZero.Nat
import Mathlib.Data.Nat.Notation

/-!
# The instructions

`instruction_t` in the order of its values, and what `make_instruction_table.pl`
generates from it. The types of an instruction's operands stand in the comment
after its name in the enumeration, and only the generated table of sizes uses
them.
-/

namespace Dang

/-- `instruction_t` -/
inductive Instruction
  | END | NOOP | CALL | CORO | RETURN | DROP | SWAP | DUP | OVER | ROT | TOR | AND | OR | XOR
  | NOT | JMP | JMP0 | JMPU | SCALAR | ARRAY | HASH | CHANNEL | STREAM | SYMDEF | SYMFIND
  | SYMCLONE | SYMUNDEF | SRLOCK | SRUNLOCK | SRREAD | SRWRITE | ARLEN | ARINDEX | ARSLICE
  | ARLIST | ARFILL | ARPUSH | ARUNSHFT | ARPOP | ARSHFT | HRLEN | HRINDEX | HRSLICE | HRLISTK
  | HRLISTV | HRLISTP | HRFILL | HRKEYEX | HRKEYDEL | CRTRYRD | CRREAD | CRWRITE | FRCALL
  | FRCORO | BYTE | INT | ADD | SUBT | MULT | DIV | MOD | LT0 | GT0 | INCR | DECR | STR
  | STRING | LEN | XPLOD | CAT | FLOAT | ADDF | SUBTF | MULTF | DIVF | MODF | LT0F | GT0F
  | FUNLIT | OPEN | CLOSE | OUT | OUTL | IN | INL | CHOMP | UNDEF | STDIN | STDOUT | STDERR
  | CHR | ORD | REV | SIG
  deriving DecidableEq, Repr

namespace Instruction

/-- The instructions in the order of their values. -/
def table : List Instruction :=
  [.END, .NOOP, .CALL, .CORO, .RETURN, .DROP, .SWAP, .DUP, .OVER, .ROT, .TOR, .AND, .OR, .XOR,
   .NOT, .JMP, .JMP0, .JMPU, .SCALAR, .ARRAY, .HASH, .CHANNEL, .STREAM, .SYMDEF, .SYMFIND,
   .SYMCLONE, .SYMUNDEF, .SRLOCK, .SRUNLOCK, .SRREAD, .SRWRITE, .ARLEN, .ARINDEX, .ARSLICE,
   .ARLIST, .ARFILL, .ARPUSH, .ARUNSHFT, .ARPOP, .ARSHFT, .HRLEN, .HRINDEX, .HRSLICE, .HRLISTK,
   .HRLISTV, .HRLISTP, .HRFILL, .HRKEYEX, .HRKEYDEL, .CRTRYRD, .CRREAD, .CRWRITE, .FRCALL,
   .FRCORO, .BYTE, .INT, .ADD, .SUBT, .MULT, .DIV, .MOD, .LT0, .GT0, .INCR, .DECR, .STR, .STRING,
   .LEN, .XPLOD, .CAT, .FLOAT, .ADDF, .SUBTF, .MULTF, .DIVF, .MODF, .LT0F, .GT0F, .FUNLIT, .OPEN,
   .CLOSE, .OUT, .OUTL, .IN, .INL, .CHOMP, .UNDEF, .STDIN, .STDOUT, .STDERR, .CHR, .ORD, .REV,
   .SIG]

/-- The value of an instruction. -/
def opcode (instruction : Instruction) : Byte := Fin.ofNat 256 (table.idxOf instruction)

/-- The instruction a byte stands for, if it is below `i__MAX`. -/
def ofOpcode (byte : Byte) : Option Instruction := table[byte.val]?

/-- `instruction_names` -/
def names : List String :=
  ["end", "noop", "call", "coro", "return", "drop", "swap", "dup", "over", "rot", "tor", "and",
   "or", "xor", "not", "jmp", "jmp0", "jmpu", "scalar", "array", "hash", "channel", "stream",
   "symdef", "symfind", "symclone", "symundef", "srlock", "srunlock", "srread", "srwrite", "arlen",
   "arindex", "arslice", "arlist", "arfill", "arpush", "arunshft", "arpop", "arshft", "hrlen",
   "hrindex", "hrslice", "hrlistk", "hrlistv", "hrlistp", "hrfill", "hrkeyex", "hrkeydel",
   "crtryrd", "crread", "crwrite", "frcall", "frcoro", "byte", "int", "add", "subt", "mult", "div",
   "mod", "lt0", "gt0", "incr", "decr", "str", "string", "len", "xplod", "cat", "float", "addf",
   "subtf", "multf", "divf", "modf", "lt0f", "gt0f", "funlit", "open", "close", "out", "outl",
   "in", "inl", "chomp", "undef", "stdin", "stdout", "stderr", "chr", "ord", "rev", "sig"]

/-- The instruction with this name: the first, in the order of their values. -/
def ofName (text : Bytes) : Option Instruction :=
  ((names.zip table).find? fun entry => ascii entry.1 = text).map Prod.snd

theorem ofOpcode_opcode (instruction : Instruction) :
    ofOpcode instruction.opcode = some instruction := by
  cases instruction <;> rfl

/-- The types that operands have in the comments of the enumeration. -/
inductive OperandType
  | uint8_t | uint32_t | intptr_t | floatptr_t | flags8_t | flags32_t | identifier_t
  | function_handle_t

/-- `sizeof` of the type of an operand. -/
def OperandType.size : OperandType → ℕ
  | .uint8_t => 1
  | .uint32_t => 4
  | .intptr_t => 8
  | .floatptr_t => 8
  | .flags8_t => 1
  | .flags32_t => 4
  | .identifier_t => 8
  | .function_handle_t => 8

/-- The comment after the instruction in the enumeration. -/
def extras : Instruction → List OperandType
  | .CALL | .CORO | .FUNLIT => [.function_handle_t]
  | .JMP | .JMP0 | .JMPU | .INT => [.intptr_t]
  | .SYMDEF => [.flags32_t, .identifier_t]
  | .SYMFIND | .SYMCLONE | .SYMUNDEF => [.identifier_t]
  | .BYTE | .STR => [.uint8_t]
  | .STRING => [.uint32_t]
  | .FLOAT => [.floatptr_t]
  | .OPEN => [.flags8_t]
  | _ => []

/-- `instruction_sizes` -/
def size (instruction : Instruction) : ℕ :=
  OperandType.uint8_t.size + (instruction.extras.map OperandType.size).sum

theorem size_pos (instruction : Instruction) : 0 < instruction.size :=
  Nat.add_pos_left Nat.one_pos _

theorem OperandType.size_pos (type : OperandType) : 0 < type.size := by
  cases type <;> exact Nat.succ_pos _

/-- An instruction of one byte has no operands. -/
theorem extras_eq_nil {instruction : Instruction} (short : instruction.size ≤ 1) :
    instruction.extras = [] := by
  unfold size at short
  cases extras : instruction.extras with
  | nil => rfl
  | cons type rest =>
      have opcode := OperandType.uint8_t.size_pos
      have first := type.size_pos
      rw [extras, List.map_cons, List.sum_cons] at short
      omega

end Instruction

end Dang
