import Dang.Assembler.Encoding
import Mathlib.Data.List.TakeDrop
import Mathlib.Data.List.TakeWhile

/-!
# Agreement of assembler and interpreter on operands

Whether the operands that the interpreter reads at a line are the ones written in
the source. The theorem gives the lines for which they are: the parameters must
be as many as the instruction reads, and each must fit where it is stored. The
assembler checks neither, and stores nothing for a `SYMCLONE`.
-/

namespace Dang

namespace Number

/-- What an integer parameter is read back as. -/
inductive Field
  /-- The operand of `BYTE` and `OPEN`. -/
  | byte
  /-- The operand of `INT`. -/
  | int
  /-- The first operand of `SYMDEF`. -/
  | flags
  /-- The identifier of a symbol. -/
  | identifier
  deriving DecidableEq, Repr

/-- The number that the bytes stored for an `intptr_t` are read back as. -/
def Field.read (value : BitVec 64) : Field → ℤ
  | .byte => (value.toNat % 2 ^ 8 : ℕ)
  | .int => value.toInt
  | .flags => (value.toNat % 2 ^ 32 : ℕ)
  | .identifier => value.toNat

/-- The integers whose literals of a kind fit. A hexadecimal or octal literal goes through
an `int`, which gives the largest identifier its value back by accident. -/
def Fits (number : Number) (field : Field) : Prop :=
  match field, number with
  | .byte, _ => number.written < 2 ^ 8
  | .int, .decimal _ => number.written < 2 ^ 63
  | .flags, .decimal _ => number.written < 2 ^ 32
  | .identifier, .decimal _ => number.written < 2 ^ 64
  | _, .character _ => number.written < 2 ^ 7
  | .int, _ => number.written < 2 ^ 31
  | .flags, _ => number.written < 2 ^ 32
  | .identifier, _ => number.written < 2 ^ 31 ∨ number.written = 2 ^ 64 - 1

/-- Sign extension of a number that was cut to some bits. -/
theorem toNat_signExtend (width : ℕ) (narrow : width ≤ 64) (value : ℕ) :
    ((BitVec.ofNat width value).signExtend 64).toNat =
      if 2 ^ (width - 1) ≤ value % 2 ^ width then value % 2 ^ width + (2 ^ 64 - 2 ^ width)
      else value % 2 ^ width := by
  have small : value % 2 ^ width < 2 ^ 64 :=
    Nat.lt_of_lt_of_le (Nat.mod_lt _ (Nat.two_pow_pos width))
      (Nat.pow_le_pow_right Nat.two_pos narrow)
  rw [BitVec.toNat_signExtend, BitVec.msb_eq_decide, BitVec.toNat_setWidth, BitVec.toNat_ofNat,
    Nat.mod_eq_of_lt small]
  split
  case isTrue negative => rw [if_pos (of_decide_eq_true negative)]
  case isFalse positive => rw [if_neg (fun negative => positive (decide_eq_true negative))]; rfl

/-- Which numbers survive `strtol` and the `int` that its result is returned as. -/
theorem read_strtol {base : ℕ} (digits : List (Fin base)) (field : Field) :
    field.read ((strtol digits).signExtend 64) = ofSpelled digits ↔
      match field with
      | .byte => ofSpelled digits < 2 ^ 8
      | .int => ofSpelled digits < 2 ^ 31
      | .flags => ofSpelled digits < 2 ^ 32
      | .identifier => ofSpelled digits < 2 ^ 31 ∨ ofSpelled digits = 2 ^ 64 - 1 := by
  have lexed := toNat_signExtend 32 (by omega) (min (ofSpelled digits) (2 ^ 63 - 1))
  rw [← strtol] at lexed
  generalize (strtol digits).signExtend 64 = value at lexed ⊢
  generalize ofSpelled digits = number at lexed ⊢
  rcases Nat.le_total number (2 ^ 63 - 1) with small | large
  · rw [Nat.min_eq_left small] at lexed
    split at lexed <;> cases field <;>
      simp only [Field.read, BitVec.toInt_eq_toNat_cond, lexed] <;> omega
  · rw [Nat.min_eq_right large] at lexed
    split at lexed <;> cases field <;>
      simp only [Field.read, BitVec.toInt_eq_toNat_cond, lexed] <;> omega

/-- Exactly the integers that fit are read back. -/
theorem read_ival (number : Number) (field : Field) :
    field.read number.ival = number.written ↔ number.Fits field := by
  cases number with
  | decimal digits =>
      rw [ival_decimal]
      cases field <;>
        simp only [Field.read, written, Fits, BitVec.toNat_ofNat, BitVec.toInt_eq_toNat_cond] <;>
        omega
  | hexadecimal digits short => exact (read_strtol digits field).trans (by cases field <;> rfl)
  | octal digits short => exact (read_strtol digits field).trans (by cases field <;> rfl)
  | character code =>
      have lexed := toNat_signExtend 8 (by omega) code.val
      have byte := code.isLt
      split at lexed <;> cases field <;>
        simp only [Field.read, ival, written, Fits, BitVec.toInt_eq_toNat_cond, lexed] <;> omega

end Number

section Reading

variable {placed : List Placed} {position size : ℕ} {instruction : Instruction}
  {params : List Param} {block : Bytes} {operands : List Operand} {bytecode : Bytes}

theorem sizeAdd_sizeSub {target position : ℕ} (targetFits : target < 2 ^ 64)
    (positionFits : position < 2 ^ 64) : sizeAdd position (sizeSub target position) = target := by
  unfold sizeAdd sizeSub
  omega

theorem strlen_le (text : Bytes) : strlen text ≤ text.length :=
  (List.takeWhile_prefix _).length_le

theorem readOperands_of_plain (plain : instruction.extras = []) :
    readOperands bytecode position instruction = .ok [] := by
  cases instruction <;> first | rfl | contradiction

/-- The operands that a line stores are read back from its bytes. -/
theorem readOperands_of_encodes
    (encodes : Encodes placed position instruction params block operands)
    (fits : 1 + block.length ≤ size) (long : instruction.size ≤ size)
    (labelFits : ∀ label target, labelPosition placed label = some target → target < 2 ^ 64)
    (positionFits : position < 2 ^ 64)
    (loaded : Buffer.load bytecode position size = .ok (instruction.opcode :: block ++
      List.replicate (size - (1 + block.length)) Instruction.NOOP.opcode)) :
    readOperands bytecode position instruction = .ok operands := by
  have number : ∀ front width stored back, block = front ++ littleEndian width stored ++ back →
      loadNumber bytecode (position + (1 + front.length)) width = .ok (stored % 256 ^ width) := by
    intro front width stored back shape
    have shaped : Buffer.load bytecode position size = .ok ((instruction.opcode :: front) ++
        littleEndian width stored ++ (back ++
          List.replicate (size - (1 + block.length)) Instruction.NOOP.opcode)) := by
      rw [loaded]
      simp only [shape, List.cons_append, List.append_assoc]
    rw [Nat.add_comm 1]
    exact loadNumber_littleEndian width stored shaped
  have word : ∀ stored, block = littleEndian 8 stored → stored < 256 ^ 8 →
      loadNumber bytecode (position + 1) 8 = .ok stored := by
    intro stored shape small
    have read := number [] 8 stored [] (by simpa using shape)
    rw [Nat.mod_eq_of_lt small] at read
    exact read
  cases encodes with
  | byte i rest kind =>
      have byte := number [] 1 i.toNat [] (by simp)
      rcases kind with rfl | rfl
      · exact Outcome.bind_eq_ok.mpr ⟨_, byte, rfl⟩
      · exact Outcome.bind_eq_ok.mpr ⟨_, byte, rfl⟩
  | handle label rest kind found =>
      have handle := word _ rfl (labelFits label _ found)
      rcases kind with rfl | rfl | rfl
      · exact Outcome.bind_eq_ok.mpr ⟨_, handle, rfl⟩
      · exact Outcome.bind_eq_ok.mpr ⟨_, handle, rfl⟩
      · exact Outcome.bind_eq_ok.mpr ⟨_, handle, rfl⟩
  | int i rest =>
      refine Outcome.bind_eq_ok.mpr ⟨_, word _ rfl i.isLt, ?_⟩
      rw [BitVec.ofNat_toNat, BitVec.setWidth_eq]
  | float f rest =>
      refine Outcome.bind_eq_ok.mpr ⟨_, word _ rfl f.isLt, ?_⟩
      rw [BitVec.ofNat_toNat, BitVec.setWidth_eq]
  | string text rest kind =>
      have taken : (text.take (strlen text % 256 ^ (instruction.size - 1))).length =
          strlen text % 256 ^ (instruction.size - 1) := by
        rw [List.length_take]
        exact Nat.min_eq_left (Nat.le_trans (Nat.mod_le _ _) (strlen_le text))
      have sized : strlen text % 256 ^ (instruction.size - 1) < 256 ^ (instruction.size - 1) :=
        Nat.mod_lt _ (Nat.pow_pos (by omega))
      have shaped : ∃ back, Buffer.load bytecode position size = .ok ([instruction.opcode] ++
          (littleEndian (instruction.size - 1)
              (text.take (strlen text % 256 ^ (instruction.size - 1))).length ++
            text.take (strlen text % 256 ^ (instruction.size - 1))) ++ back) := by
        rw [taken]
        exact ⟨_, loaded⟩
      rcases shaped with ⟨back, shaped⟩
      have read := loadString_littleEndian (instruction.size - 1) (by rw [taken]; exact sized) shaped
      rcases kind with rfl | rfl
      · exact Outcome.bind_eq_ok.mpr ⟨_, read, rfl⟩
      · exact Outcome.bind_eq_ok.mpr ⟨_, read, rfl⟩
  | offset label rest kind found =>
      have offset := word _ rfl (Nat.mod_lt _ (Nat.two_pow_pos 64))
      have target := sizeAdd_sizeSub (labelFits label _ found) positionFits
      rcases kind with rfl | rfl | rfl
      · exact Outcome.bind_eq_ok.mpr ⟨_, offset, by rw [target]⟩
      · exact Outcome.bind_eq_ok.mpr ⟨_, offset, by rw [target]⟩
      · exact Outcome.bind_eq_ok.mpr ⟨_, offset, by rw [target]⟩
  | symdef flags identifier rest =>
      have flagged := number [] 4 flags.toNat (littleEndian 8 identifier.toNat) rfl
      have identified := number (littleEndian 4 flags.toNat) 8 identifier.toNat []
        (List.append_nil _).symm
      have fitsWord : identifier.toNat < 256 ^ 8 := identifier.isLt
      rw [Nat.mod_eq_of_lt fitsWord] at identified
      refine Outcome.bind_eq_ok.mpr ⟨_, flagged, ?_⟩
      exact Outcome.bind_eq_ok.mpr ⟨_, identified, rfl⟩
  | identifier identifier rest kind =>
      have identified := word _ rfl identifier.isLt
      rcases kind with rfl | rfl
      · exact Outcome.bind_eq_ok.mpr ⟨_, identified, rfl⟩
      · exact Outcome.bind_eq_ok.mpr ⟨_, identified, rfl⟩
  | symclone =>
      have wide : 9 ≤ size := long
      have blank : Buffer.load bytecode (position + 1) 8 =
          .ok (List.replicate 8 Instruction.NOOP.opcode) := by
        rw [Buffer.load_part loaded (by omega), List.cons_append, List.drop_succ_cons,
          List.nil_append, List.drop_zero, List.take_replicate, List.length_nil,
          Nat.min_eq_left (by omega)]
      exact Outcome.bind_eq_ok.mpr ⟨_, loadNumber_of_load blank, rfl⟩
  | plain _ plain => exact readOperands_of_plain plain

/-- A line is decoded as its instruction with these operands. -/
theorem decode_of_encodes (encodes : Encodes placed position instruction params block operands)
    (fits : 1 + block.length ≤ size) (long : instruction.size ≤ size)
    (labelFits : ∀ label target, labelPosition placed label = some target → target < 2 ^ 64)
    (positionFits : position < 2 ^ 64)
    (loaded : Buffer.load bytecode position size = .ok (instruction.opcode :: block ++
      List.replicate (size - (1 + block.length)) Instruction.NOOP.opcode)) :
    decode bytecode position = .ok (instruction, operands) := by
  have opcode : loadNumber bytecode position 1 = .ok instruction.opcode.val := by
    have first : Buffer.load bytecode (position + 0) 1 = .ok [instruction.opcode] :=
      Buffer.load_part loaded (by omega)
    exact loadNumber_of_load first
  have operandsRead := readOperands_of_encodes encodes fits long labelFits positionFits loaded
  refine Outcome.bind_eq_ok.mpr ⟨_, opcode, ?_⟩
  rw [show Fin.ofNat 256 instruction.opcode.val = instruction.opcode from Fin.ofNat_val_eq_self _,
    Instruction.ofOpcode_opcode]
  exact Outcome.bind_eq_ok.mpr ⟨operands, operandsRead, rfl⟩

end Reading

/-- The operand that a parameter is written for. -/
def SourceParam.written (placed : List Placed) (last : Option Bytes) :
    SourceParam → Option Operand
  | .integer number => some (.number number.written)
  | .float bits => some (.float bits)
  | .string text => some (.string text)
  | .labelLoc label | .labelOff label =>
      (labelPosition placed (label.parse last)).map Operand.position

/-- The parameters are one integer, and it fits. -/
def OneInteger (field : Number.Field) (params : List SourceParam) : Prop :=
  ∃ number, params = [.integer number] ∧ number.Fits field

/-- The parameters are one string, of which no byte is zero, and its length fits. -/
def OneString (limit : ℕ) (params : List SourceParam) : Prop :=
  ∃ text, params = [.string text] ∧ 0 ∉ text ∧ text.length < limit

/-- The parameters are as many as the instruction reads, and each fits where it is stored. A
`SYMCLONE` reads the eight `NOOP`s behind it. -/
def OperandsFit (instruction : Instruction) (params : List SourceParam) : Prop :=
  match instruction with
  | .BYTE | .OPEN => OneInteger .byte params
  | .CALL | .CORO | .FUNLIT => ∃ label, params = [.labelLoc label]
  | .INT => OneInteger .int params
  | .FLOAT => ∃ bits, params = [.float bits]
  | .STR => OneString (2 ^ 8) params
  | .STRING => OneString (2 ^ 32) params
  | .JMP | .JMP0 | .JMPU => ∃ label, params = [.labelOff label]
  | .SYMDEF => ∃ flags identifier, params = [.integer flags, .integer identifier] ∧
      flags.Fits .flags ∧ identifier.Fits .identifier
  | .SYMFIND | .SYMUNDEF => OneInteger .identifier params
  | .SYMCLONE => ∃ number, params = [.integer number] ∧ number.written = 0x0101010101010101
  | _ => params = []

/-- The parameters of a line are those its instruction reads, and fit. -/
def SourceLine.Fits (line : SourceLine) : Prop :=
  match line.inst with
  | none => True
  | some (instruction, params) => OperandsFit instruction params

/-- `g_last_label_defined` after some lines. -/
def lastLabelDefined (last : Option Bytes) (lines : List SourceLine) : Option Bytes :=
  lines.foldl (fun last line => (line.labeldef.parse last).2) last

/-- What the interpreter reads at the position of each line is the instruction and the
operands that are written there. -/
def OperandsAgree (source : List SourceLine) (output : AssemblerOutput) : Prop :=
  ∀ (index : ℕ) (line : SourceLine) (instruction : Instruction) (params : List SourceParam),
    source[index]? = some line → line.inst = some (instruction, params) →
    ∃ (entry : Placed) (operands : List Operand), (place 1 (parse none source))[index]? = some entry ∧
      decode output.bytecode entry.position = .ok (instruction, operands) ∧
      operands.map some = params.map
        (SourceParam.written (place 1 (parse none source))
          (lastLabelDefined none (source.take (index + 1))))

section Written

variable {placed : List Placed} {last : Option Bytes} {params : List SourceParam}
  {param : SourceParam}

theorem parse_eq_integer {i : BitVec 64} :
    param.parse last = .integer i ↔ ∃ number, param = .integer number ∧ number.ival = i := by
  cases param <;> simp [SourceParam.parse]

theorem parse_eq_float {f : BitVec 64} : param.parse last = .float f ↔ param = .float f := by
  cases param <;> simp [SourceParam.parse]

theorem parse_eq_string {text : Bytes} :
    param.parse last = .string text ↔ param = .string text := by
  cases param <;> simp [SourceParam.parse]

theorem parse_eq_labelLoc {label : Bytes} :
    param.parse last = .labelLoc label ↔ ∃ name, param = .labelLoc name ∧ name.parse last = label := by
  cases param <;> simp [SourceParam.parse]

theorem parse_eq_labelOff {label : Bytes} :
    param.parse last = .labelOff label ↔ ∃ name, param = .labelOff name ∧ name.parse last = label := by
  cases param <;> simp [SourceParam.parse]

/-- The bytes of a string that are stored are the whole string exactly if it fits. -/
theorem take_strlen_eq_self {text : Bytes} {limit : ℕ} (positive : 0 < limit) :
    text.take (strlen text % limit) = text ↔ 0 ∉ text ∧ text.length < limit := by
  have less := Nat.mod_lt (strlen text) positive
  have short := strlen_le text
  have cut := Nat.mod_le (strlen text) limit
  rw [List.take_eq_self_iff]
  refine ⟨?_, ?_⟩
  · intro whole
    have same : text.takeWhile (· ≠ 0) = text :=
      (List.takeWhile_prefix _).eq_of_length_le (by unfold strlen at *; omega)
    refine ⟨?_, by omega⟩
    intro zero
    simpa using List.takeWhile_eq_self_iff.mp same 0 zero
  · rintro ⟨nonzero, fits⟩
    have same : text.takeWhile (· ≠ 0) = text := by
      apply List.takeWhile_eq_self_iff.mpr
      intro byte mem
      have other : byte ≠ 0 := by
        rintro rfl
        exact nonzero mem
      simpa using other
    rw [strlen, same, Nat.mod_eq_of_lt fits]

theorem singleton_eq_written_iff {operand : Operand} {tail : List SourceParam} :
    [operand].map some = (param :: tail).map (SourceParam.written placed last) ↔
      tail = [] ∧ param.written placed last = some operand := by
  simp only [List.map_cons, List.map_nil, List.cons.injEq, List.nil_eq, List.map_eq_nil_iff]
  rw [and_comm, eq_comm (a := some operand)]

theorem operandsFit_of_plain {instruction : Instruction} (plain : instruction.extras = []) :
    OperandsFit instruction params ↔ params = [] := by
  cases instruction <;> first | exact Iff.rfl | contradiction

theorem oneInteger_cons {number : Number} {tail : List SourceParam} {field : Number.Field} :
    OneInteger field (.integer number :: tail) ↔ tail = [] ∧ number.Fits field := by
  simp [OneInteger]

theorem oneString_cons {text : Bytes} {tail : List SourceParam} {limit : ℕ} :
    OneString limit (.string text :: tail) ↔ tail = [] ∧ 0 ∉ text ∧ text.length < limit := by
  simp [OneString, and_comm]

/-- One integer is read back as it is written exactly if it is the only parameter and fits. -/
theorem number_eq_written_iff (placed : List Placed) {i : BitVec 64} {rest : List Param}
    (field : Number.Field)
    (parsed : params.map (SourceParam.parse last) = .integer i :: rest) :
    [Operand.number (field.read i)].map some = params.map (SourceParam.written placed last) ↔
      OneInteger field params := by
  rcases List.map_eq_cons_iff.mp parsed with ⟨param, tail, rfl, first, _⟩
  rcases parse_eq_integer.mp first with ⟨number, rfl, rfl⟩
  rw [singleton_eq_written_iff, oneInteger_cons, SourceParam.written, Option.some.injEq,
    Operand.number.injEq, eq_comm (a := (number.written : ℤ)), Number.read_ival]

/-- A string is read back as it is written exactly if it is the only parameter and fits. -/
theorem string_eq_written_iff (placed : List Placed) {text : Bytes} {rest : List Param} {limit : ℕ}
    (positive : 0 < limit) (parsed : params.map (SourceParam.parse last) = .string text :: rest) :
    [Operand.string (text.take (strlen text % limit))].map some =
        params.map (SourceParam.written placed last) ↔ OneString limit params := by
  rcases List.map_eq_cons_iff.mp parsed with ⟨param, tail, rfl, first, _⟩
  rcases parse_eq_string.mp first with rfl
  rw [singleton_eq_written_iff, oneString_cons, SourceParam.written, Option.some.injEq,
    Operand.string.injEq, eq_comm (a := text), take_strlen_eq_self positive]

/-- A label is read back as it is written exactly if it is the only parameter. -/
theorem labelLoc_eq_written_iff {label : Bytes} {rest : List Param} {target : ℕ}
    (found : labelPosition placed label = some target)
    (parsed : params.map (SourceParam.parse last) = .labelLoc label :: rest) :
    [Operand.position target].map some = params.map (SourceParam.written placed last) ↔
      ∃ name, params = [.labelLoc name] := by
  rcases List.map_eq_cons_iff.mp parsed with ⟨param, tail, rfl, first, _⟩
  rcases parse_eq_labelLoc.mp first with ⟨name, rfl, rfl⟩
  rw [singleton_eq_written_iff, SourceParam.written, found]
  simp

theorem labelOff_eq_written_iff {label : Bytes} {rest : List Param} {target : ℕ}
    (found : labelPosition placed label = some target)
    (parsed : params.map (SourceParam.parse last) = .labelOff label :: rest) :
    [Operand.position target].map some = params.map (SourceParam.written placed last) ↔
      ∃ name, params = [.labelOff name] := by
  rcases List.map_eq_cons_iff.mp parsed with ⟨param, tail, rfl, first, _⟩
  rcases parse_eq_labelOff.mp first with ⟨name, rfl, rfl⟩
  rw [singleton_eq_written_iff, SourceParam.written, found]
  simp

/-- The operands read back are the ones that are written exactly if the parameters fit. -/
theorem operands_eq_written_iff {position : ℕ} {instruction : Instruction} {block : Bytes}
    {operands : List Operand}
    (encodes : Encodes placed position instruction (params.map (SourceParam.parse last)) block
      operands) :
    operands.map some = params.map (SourceParam.written placed last) ↔
      OperandsFit instruction params := by
  generalize parsed : params.map (SourceParam.parse last) = list at encodes
  cases encodes with
  | byte i rest kind =>
      have read := number_eq_written_iff placed .byte parsed
      rcases kind with rfl | rfl
      · exact read
      · exact read
  | handle label rest kind found =>
      have read := labelLoc_eq_written_iff found parsed
      rcases kind with rfl | rfl | rfl
      · exact read
      · exact read
      · exact read
  | int i rest => exact number_eq_written_iff placed .int parsed
  | float f rest =>
      rcases List.map_eq_cons_iff.mp parsed with ⟨param, tail, rfl, first, _⟩
      rcases parse_eq_float.mp first with rfl
      rw [singleton_eq_written_iff]
      simp [OperandsFit, SourceParam.written]
  | string text rest kind =>
      rcases kind with rfl | rfl
      · exact string_eq_written_iff placed (Nat.two_pow_pos 8) parsed
      · exact string_eq_written_iff placed (Nat.two_pow_pos 32) parsed
  | offset label rest kind found =>
      have read := labelOff_eq_written_iff found parsed
      rcases kind with rfl | rfl | rfl
      · exact read
      · exact read
      · exact read
  | symdef flags identifier rest =>
      rcases List.map_eq_cons_iff.mp parsed with ⟨param, tail, rfl, first, others⟩
      rcases List.map_eq_cons_iff.mp others with ⟨second, tail, rfl, next, _⟩
      rcases parse_eq_integer.mp first with ⟨flagNumber, rfl, rfl⟩
      rcases parse_eq_integer.mp next with ⟨identifierNumber, rfl, rfl⟩
      have flagged := flagNumber.read_ival .flags
      have identified := identifierNumber.read_ival .identifier
      refine ⟨?_, ?_⟩
      · intro same
        simp only [List.map_cons, List.map_nil, SourceParam.written, List.cons.injEq,
          Option.some.injEq, Operand.number.injEq, List.nil_eq, List.map_eq_nil_iff] at same
        rcases same with ⟨sameFlags, sameIdentifier, rfl⟩
        exact ⟨_, _, rfl, flagged.mp sameFlags, identified.mp sameIdentifier⟩
      · rintro ⟨_, _, same, flagsFit, identifierFits⟩
        simp only [List.cons.injEq, SourceParam.integer.injEq] at same
        rcases same with ⟨rfl, rfl, rfl⟩
        have sameFlags := flagged.mpr flagsFit
        have sameIdentifier := identified.mpr identifierFits
        simp only [Number.Field.read] at sameFlags sameIdentifier
        simp only [List.map_cons, List.map_nil, SourceParam.written, sameFlags, sameIdentifier]
  | identifier identifier rest kind =>
      have read := number_eq_written_iff placed .identifier parsed
      rcases kind with rfl | rfl
      · exact read
      · exact read
  | symclone =>
      cases params with
      | nil => simp [OperandsFit]
      | cons param tail =>
          rw [singleton_eq_written_iff]
          cases param with
          | integer number =>
              simp only [OperandsFit, SourceParam.written, Option.some.injEq,
                Operand.number.injEq, List.cons.injEq, SourceParam.integer.injEq]
              refine ⟨?_, ?_⟩
              · rintro ⟨rfl, same⟩
                exact ⟨number, ⟨rfl, rfl⟩, by omega⟩
              · rintro ⟨_, ⟨rfl, rfl⟩, same⟩
                exact ⟨rfl, by omega⟩
          | float bits => simp [OperandsFit, SourceParam.written]
          | string text => simp [OperandsFit, SourceParam.written]
          | labelLoc label => simp [OperandsFit, SourceParam.written]
          | labelOff label => simp [OperandsFit, SourceParam.written]
  | plain _ plain =>
      rw [operandsFit_of_plain plain, List.map_nil, List.nil_eq, List.map_eq_nil_iff]

end Written

section Source

variable {source : List SourceLine} {index : ℕ} {line : SourceLine}

theorem getElem?_parse (last : Option Bytes) (given : source[index]? = some line) :
    (parse last source)[index]? =
      some (line.parse (lastLabelDefined last (source.take index))) := by
  induction source generalizing last index with
  | nil => simp at given
  | cons head rest ih =>
      cases index with
      | zero =>
          rw [List.getElem?_cons_zero, Option.some.injEq] at given
          subst given
          rfl
      | succ index =>
          rw [List.getElem?_cons_succ] at given
          simp only [parse, List.getElem?_cons_succ, List.take_succ_cons, ih _ given]
          rfl

theorem lastLabelDefined_take_succ (last : Option Bytes) (given : source[index]? = some line) :
    lastLabelDefined last (source.take (index + 1)) =
      (line.labeldef.parse (lastLabelDefined last (source.take index))).2 := by
  rw [List.take_add_one, given]
  simp [lastLabelDefined]

theorem getElem?_place (next : ℕ) {lines : List Line} {parsed : Line}
    (given : lines[index]? = some parsed) :
    ∃ entry, (place next lines)[index]? = some entry ∧ entry.line = parsed := by
  rw [← map_line_place next lines, List.getElem?_map] at given
  exact Option.map_eq_some_iff.mp given

variable {output : AssemblerOutput} {instruction : Instruction} {params : List SourceParam}

theorem Accepted.labelPosition_lt {lines : List Line} {len : ℕ}
    (accepted : Accepted lines output len) {label : Bytes} {target : ℕ}
    (found : labelPosition (place 1 lines) label = some target) : target < 2 ^ 64 := by
  rcases Option.map_eq_some_iff.mp found with ⟨entry, isFirst, rfl⟩
  have inside := accepted.inside (List.mem_of_find?_eq_some isFirst)
  have fits := accepted.fits
  unfold sizeofAssemblerOutput sizeMax at fits
  omega

/-- A line of the source is placed with its instruction and its parameters. -/
theorem exists_placed (given : source[index]? = some line)
    (written : line.inst = some (instruction, params)) :
    ∃ entry, (place 1 (parse none source))[index]? = some entry ∧
      entry.line.instruction = some instruction ∧
      entry.line.params = params.map
        (SourceParam.parse (lastLabelDefined none (source.take (index + 1)))) := by
  rcases getElem?_place 1 (getElem?_parse none given) with ⟨entry, placed, parsed⟩
  refine ⟨entry, placed, ?_, ?_⟩
  · rw [parsed]
    simp [SourceLine.parse, written]
  · rw [parsed, lastLabelDefined_take_succ none given]
    simp [SourceLine.parse, written]

/-- A line is decoded as its instruction, with the operands that are written if these fit. -/
theorem decode_line (accepted : assemble (parse none source) = .ok (some output))
    (given : source[index]? = some line) (written : line.inst = some (instruction, params)) :
    ∃ entry operands, (place 1 (parse none source))[index]? = some entry ∧
      decode output.bytecode entry.position = .ok (instruction, operands) ∧
      (operands.map some = params.map
          (SourceParam.written (place 1 (parse none source))
            (lastLabelDefined none (source.take (index + 1)))) ↔
        OperandsFit instruction params) := by
  rcases accepted_of_assemble accepted with ⟨len, accepted⟩
  rcases exists_placed given written with ⟨entry, placed, lineInstruction, lineParams⟩
  have mem := List.mem_of_getElem? placed
  rcases accepted.load_line mem lineInstruction with ⟨block, operands, encodes, fits, loaded⟩
  rw [lineParams] at encodes
  have inside := accepted.inside mem
  have room := accepted.fits
  have long : instruction.size ≤ entry.length := by
    rw [length_of_mem_place mem]
    exact size_le_length lineInstruction
  have positionFits : entry.position < 2 ^ 64 := by
    unfold sizeofAssemblerOutput sizeMax at room
    omega
  refine ⟨entry, operands, placed, ?_, operands_eq_written_iff encodes⟩
  apply decode_of_encodes encodes fits long
  · intro label target found
    exact accepted.labelPosition_lt found
  · exact positionFits
  · exact loaded

/-- In an accepted program the interpreter reads the operands that are written exactly if each
line has the parameters that its instruction reads, and they fit. -/
theorem operandsAgree_iff_fits (accepted : assemble (parse none source) = .ok (some output)) :
    OperandsAgree source output ↔ ∀ line ∈ source, line.Fits := by
  refine ⟨?_, ?_⟩
  · intro agree line mem
    rcases List.getElem?_of_mem mem with ⟨index, given⟩
    unfold SourceLine.Fits
    split
    case h_1 => trivial
    case h_2 instruction params written =>
      rcases agree index line instruction params given written
        with ⟨entry, operands, placed, decoded, same⟩
      rcases decode_line accepted given written with ⟨entry', operands', placed', decoded', iff⟩
      rcases Option.some.inj (placed.symm.trans placed') with rfl
      have operandsEq := Except.ok.inj (decoded.symm.trans decoded')
      simp only [Prod.mk.injEq, true_and] at operandsEq
      exact iff.mp (operandsEq ▸ same)
  · intro fits index line instruction params given written
    rcases decode_line accepted given written with ⟨entry, operands, placed, decoded, iff⟩
    refine ⟨entry, operands, placed, decoded, iff.mpr ?_⟩
    have lineFits := fits line (List.mem_of_getElem? given)
    unfold SourceLine.Fits at lineFits
    rw [written] at lineFits
    exact lineFits

end Source

section Examples

/-- `byte 200` and `str "ab"`. -/
def literalSource : List SourceLine :=
  [⟨.empty, some (.BYTE, [.integer (.decimal [2, 0, 0])])⟩,
    ⟨.empty, some (.STR, [.string (ascii "ab")])⟩]

theorem operandsAgree_iff_fits_literal :
    OperandsAgree literalSource ⟨1, [0, 54, 200, 65, 2, 97, 98, 0]⟩ ↔
      ∀ line ∈ literalSource, line.Fits :=
  operandsAgree_iff_fits (by decide)

/-- `symclone 7` -/
def symcloneSource : List SourceLine := [⟨.empty, some (.SYMCLONE, [.integer (.decimal [7])])⟩]

/-- The bytecode of `symclone 7`. -/
def symcloneOutput : AssemblerOutput := ⟨1, [0, 1, 1, 25, 1, 1, 1, 1, 1, 1, 1, 1, 0]⟩

/-- `symclone 7` is accepted, and its operand is left out. -/
theorem symclone_not_operandsAgree :
    assemble (parse none symcloneSource) = .ok (some symcloneOutput) ∧
      ¬ OperandsAgree symcloneSource symcloneOutput := by
  refine ⟨by decide, ?_⟩
  intro agree
  rcases agree 0 _ .SYMCLONE [.integer (.decimal [7])] rfl rfl
    with ⟨entry, operands, placed, decoded, same⟩
  have position : entry.position = 3 := by
    rcases Option.some.inj placed with rfl
    rfl
  rw [position] at decoded
  have blank : decode symcloneOutput.bytecode 3 =
      .ok (.SYMCLONE, [.number 0x0101010101010101]) := by decide
  have operandsEq := Except.ok.inj (blank.symm.trans decoded)
  simp only [Prod.mk.injEq, true_and] at operandsEq
  subst operandsEq
  simp [SourceParam.written, Number.written, Number.ofSpelled] at same

end Examples

end Dang
