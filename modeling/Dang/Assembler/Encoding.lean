import Dang.Assembler.Layout
import Dang.Bytecode.Operand

/-!
# What the second pass leaves in the bytecode

The bytes that the operands of a line are stored as. No line overwrites another,
so the bytes of a line in the finished bytecode are its opcode, its operands, and
the `NOOP`s that nothing was stored over.
-/

namespace Dang

/-- The operands of an instruction are stored as these bytes behind its opcode, and read back as
these operands. -/
inductive Encodes (placed : List Placed) (position : ℕ) :
    Instruction → List Param → Bytes → List Operand → Prop
  | byte {instruction : Instruction} (i : BitVec 64) (rest : List Param)
      (kind : instruction = .BYTE ∨ instruction = .OPEN) :
      Encodes placed position instruction (.integer i :: rest) (littleEndian 1 i.toNat)
        [.number (i.toNat % 2 ^ 8 : ℕ)]
  | handle {instruction : Instruction} {target : ℕ} (label : Bytes) (rest : List Param)
      (kind : instruction = .CALL ∨ instruction = .CORO ∨ instruction = .FUNLIT)
      (found : labelPosition placed label = some target) :
      Encodes placed position instruction (.labelLoc label :: rest) (littleEndian 8 target)
        [.position target]
  | int (i : BitVec 64) (rest : List Param) :
      Encodes placed position .INT (.integer i :: rest) (littleEndian 8 i.toNat)
        [.number i.toInt]
  | float (f : BitVec 64) (rest : List Param) :
      Encodes placed position .FLOAT (.float f :: rest) (littleEndian 8 f.toNat) [.float f]
  | string {instruction : Instruction} (text : Bytes) (rest : List Param)
      (kind : instruction = .STR ∨ instruction = .STRING) :
      Encodes placed position instruction (.string text :: rest)
        (littleEndian (instruction.size - 1) (strlen text % 256 ^ (instruction.size - 1)) ++
          text.take (strlen text % 256 ^ (instruction.size - 1)))
        [.string (text.take (strlen text % 256 ^ (instruction.size - 1)))]
  | offset {instruction : Instruction} {target : ℕ} (label : Bytes) (rest : List Param)
      (kind : instruction = .JMP ∨ instruction = .JMP0 ∨ instruction = .JMPU)
      (found : labelPosition placed label = some target) :
      Encodes placed position instruction (.labelOff label :: rest)
        (littleEndian 8 (sizeSub target position)) [.position target]
  | symdef (flags identifier : BitVec 64) (rest : List Param) :
      Encodes placed position .SYMDEF (.integer flags :: .integer identifier :: rest)
        (littleEndian 4 flags.toNat ++ littleEndian 8 identifier.toNat)
        [.number (flags.toNat % 2 ^ 32 : ℕ), .number identifier.toNat]
  | identifier {instruction : Instruction} (identifier : BitVec 64) (rest : List Param)
      (kind : instruction = .SYMFIND ∨ instruction = .SYMUNDEF) :
      Encodes placed position instruction (.integer identifier :: rest)
        (littleEndian 8 identifier.toNat) [.number identifier.toNat]
  | symclone (params : List Param) :
      Encodes placed position .SYMCLONE params [] [.number 0x0101010101010101]
  | plain {instruction : Instruction} (params : List Param) (none : instruction.extras = []) :
      Encodes placed position instruction params [] []

variable {placed : List Placed} {entry : Placed} {instruction : Instruction}
  {bytecode stored : Bytes}

/-- The first line of a label that is defined is found. -/
theorem exists_followLabel {placed : List Placed} {entry : Placed} {label : Bytes}
    (mem : entry ∈ placed) (labelled : entry.line.label = some label) :
    ∃ first ∈ placed, first.line.label = some label ∧
      followLabel placed label = .ok first.position := by
  unfold followLabel labelPosition
  cases found : placed.find? fun entry => entry.line.label = some label with
  | none => exact absurd (decide_eq_true labelled) (List.find?_eq_none.mp found entry mem)
  | some first =>
      exact ⟨first, List.mem_of_find?_eq_some found, by simpa using List.find?_some found, rfl⟩

theorem followLabel_eq_ok {label : Bytes} {position : ℕ} :
    followLabel placed label = .ok position ↔ labelPosition placed label = some position := by
  unfold followLabel
  split
  case h_1 found => simp [found]
  case h_2 missing => simp [missing]

theorem map_some_eq_ok {outcome : Outcome Bytes} :
    some <$> outcome = .ok (some stored) ↔ outcome = .ok stored := by
  cases outcome with
  | error fault => simp
  | ok result => simp

theorem storeInteger_eq_ok {size : ℕ}
    (success : storeInteger entry size bytecode = .ok (some stored)) :
    ∃ i rest, entry.line.params = .integer i :: rest ∧
      Buffer.store bytecode (entry.position + 1) (littleEndian size i.toNat) = .ok stored := by
  unfold storeInteger at success
  split at success
  case h_1 i rest given => exact ⟨i, rest, given, map_some_eq_ok.mp success⟩
  case h_2 => simp [failed] at success

theorem storeFloat_eq_ok (success : storeFloat entry bytecode = .ok (some stored)) :
    ∃ f rest, entry.line.params = .float f :: rest ∧
      Buffer.store bytecode (entry.position + 1) (littleEndian 8 f.toNat) = .ok stored := by
  unfold storeFloat at success
  split at success
  case h_1 f rest given => exact ⟨f, rest, given, map_some_eq_ok.mp success⟩
  case h_2 => simp [failed] at success

theorem storeLabelLoc_eq_ok (success : storeLabelLoc placed entry bytecode = .ok (some stored)) :
    ∃ label rest target, entry.line.params = .labelLoc label :: rest ∧
      labelPosition placed label = some target ∧
      Buffer.store bytecode (entry.position + 1) (littleEndian 8 target) = .ok stored := by
  unfold storeLabelLoc at success
  split at success
  case h_1 label rest given =>
    rcases Outcome.bind_eq_ok.mp success with ⟨target, found, written⟩
    exact ⟨label, rest, target, given, followLabel_eq_ok.mp found, map_some_eq_ok.mp written⟩
  case h_2 => simp [failed] at success

theorem storeLabelOff_eq_ok (success : storeLabelOff placed entry bytecode = .ok (some stored)) :
    ∃ label rest target, entry.line.params = .labelOff label :: rest ∧
      labelPosition placed label = some target ∧
      Buffer.store bytecode (entry.position + 1) (littleEndian 8 (sizeSub target entry.position)) =
        .ok stored := by
  unfold storeLabelOff at success
  split at success
  case h_1 label rest given =>
    rcases Outcome.bind_eq_ok.mp success with ⟨target, found, written⟩
    exact ⟨label, rest, target, given, followLabel_eq_ok.mp found, map_some_eq_ok.mp written⟩
  case h_2 => simp [failed] at success

theorem length_of_string {text : Bytes} {rest : List Param}
    (given : entry.line.instruction = some instruction)
    (kind : instruction = .STR ∨ instruction = .STRING)
    (params : entry.line.params = .string text :: rest) :
    entry.line.length = instruction.size + strlen text := by
  unfold Line.length
  rw [given, params]
  rcases kind with rfl | rfl
  · rfl
  · rfl

theorem storeString_eq_ok (measured : entry.length = entry.line.length)
    (given : entry.line.instruction = some instruction)
    (kind : instruction = .STR ∨ instruction = .STRING)
    (success : storeString entry instruction bytecode = .ok (some stored)) :
    ∃ text rest, entry.line.params = .string text :: rest ∧
      Buffer.store bytecode (entry.position + 1)
        (littleEndian (instruction.size - 1) (strlen text % 256 ^ (instruction.size - 1)) ++
          text.take (strlen text % 256 ^ (instruction.size - 1))) = .ok stored := by
  unfold storeString at success
  split at success
  case h_1 text rest params =>
    have length := length_of_string given kind params
    have positive := instruction.size_pos
    rw [measured, length, Nat.add_sub_cancel_left] at success
    rcases Outcome.bind_eq_ok.mp success with ⟨sized, first, written⟩
    refine ⟨text, rest, params, ?_⟩
    rw [← Buffer.store_append, length_littleEndian]
    refine Outcome.bind_eq_ok.mpr ⟨sized, first, ?_⟩
    rw [show entry.position + 1 + (instruction.size - 1) = entry.position + instruction.size by
      omega]
    exact map_some_eq_ok.mp written
  case h_2 => simp [failed] at success

theorem storeSymdef_eq_ok (success : storeSymdef entry bytecode = .ok (some stored)) :
    ∃ flags identifier rest,
      entry.line.params = .integer flags :: .integer identifier :: rest ∧
      Buffer.store bytecode (entry.position + 1)
        (littleEndian 4 flags.toNat ++ littleEndian 8 identifier.toNat) = .ok stored := by
  unfold storeSymdef at success
  split at success
  case h_1 flags identifier rest given =>
    rcases Outcome.bind_eq_ok.mp success with ⟨flagged, first, written⟩
    refine ⟨flags, identifier, rest, given, ?_⟩
    rw [← Buffer.store_append, length_littleEndian]
    exact Outcome.bind_eq_ok.mpr ⟨flagged, first, map_some_eq_ok.mp written⟩
  case h_2 => simp [failed] at success

/-- One store behind the opcode gives the bytecode that `storeOperands` gives. -/
theorem encodes_of_storeOperands (measured : entry.length = entry.line.length)
    (given : entry.line.instruction = some instruction)
    (inside : entry.position + 1 ≤ bytecode.length)
    (success : storeOperands placed entry instruction bytecode = .ok (some stored)) :
    ∃ block operands, Encodes placed entry.position instruction entry.line.params block operands ∧
      Buffer.store bytecode (entry.position + 1) block = .ok stored := by
  have integer : ∀ size, storeInteger entry size bytecode = .ok (some stored) →
      (∀ i rest, ∃ operands, Encodes placed entry.position instruction (.integer i :: rest)
        (littleEndian size i.toNat) operands) →
      ∃ block operands, Encodes placed entry.position instruction entry.line.params block operands ∧
        Buffer.store bytecode (entry.position + 1) block = .ok stored := by
    intro size success encodes
    rcases storeInteger_eq_ok success with ⟨i, rest, params, written⟩
    rcases encodes i rest with ⟨operands, encodes⟩
    exact ⟨_, operands, params ▸ encodes, written⟩
  have labelLoc : storeLabelLoc placed entry bytecode = .ok (some stored) →
      (instruction = .CALL ∨ instruction = .CORO ∨ instruction = .FUNLIT) →
      ∃ block operands, Encodes placed entry.position instruction entry.line.params block operands ∧
        Buffer.store bytecode (entry.position + 1) block = .ok stored := by
    intro success kind
    rcases storeLabelLoc_eq_ok success with ⟨label, rest, target, params, found, written⟩
    exact ⟨_, _, params ▸ Encodes.handle label rest kind found, written⟩
  have labelOff : storeLabelOff placed entry bytecode = .ok (some stored) →
      (instruction = .JMP ∨ instruction = .JMP0 ∨ instruction = .JMPU) →
      ∃ block operands, Encodes placed entry.position instruction entry.line.params block operands ∧
        Buffer.store bytecode (entry.position + 1) block = .ok stored := by
    intro success kind
    rcases storeLabelOff_eq_ok success with ⟨label, rest, target, params, found, written⟩
    exact ⟨_, _, params ▸ Encodes.offset label rest kind found, written⟩
  have string : storeString entry instruction bytecode = .ok (some stored) →
      (instruction = .STR ∨ instruction = .STRING) →
      ∃ block operands, Encodes placed entry.position instruction entry.line.params block operands ∧
        Buffer.store bytecode (entry.position + 1) block = .ok stored := by
    intro success kind
    rcases storeString_eq_ok measured given kind success with ⟨text, rest, params, written⟩
    exact ⟨_, _, params ▸ Encodes.string text rest kind, written⟩
  unfold storeOperands at success
  split at success
  case h_1 => exact integer 1 success fun i rest => ⟨_, .byte i rest (Or.inl rfl)⟩
  case h_2 => exact integer 1 success fun i rest => ⟨_, .byte i rest (Or.inr rfl)⟩
  case h_3 => exact labelLoc success (Or.inl rfl)
  case h_4 => exact labelLoc success (Or.inr (Or.inl rfl))
  case h_5 => exact labelLoc success (Or.inr (Or.inr rfl))
  case h_6 => exact integer 8 success fun i rest => ⟨_, .int i rest⟩
  case h_7 =>
    rcases storeFloat_eq_ok success with ⟨f, rest, params, written⟩
    exact ⟨_, _, params ▸ Encodes.float f rest, written⟩
  case h_8 => exact string success (Or.inl rfl)
  case h_9 => exact string success (Or.inr rfl)
  case h_10 => exact labelOff success (Or.inl rfl)
  case h_11 => exact labelOff success (Or.inr (Or.inl rfl))
  case h_12 => exact labelOff success (Or.inr (Or.inr rfl))
  case h_13 =>
    rcases storeSymdef_eq_ok success with ⟨flags, identifier, rest, params, written⟩
    exact ⟨_, _, params ▸ Encodes.symdef flags identifier rest, written⟩
  case h_14 => exact integer 8 success fun i rest => ⟨_, .identifier i rest (Or.inl rfl)⟩
  case h_15 => exact integer 8 success fun i rest => ⟨_, .identifier i rest (Or.inr rfl)⟩
  case h_16 =>
    have unstored : instruction.extras = [] ∨ instruction = .SYMCLONE := by
      cases instruction <;> first | exact Or.inl rfl | exact Or.inr rfl | contradiction
    rcases Option.some.inj (Except.ok.inj success) with rfl
    have written : Buffer.store bytecode (entry.position + 1) [] = .ok bytecode := by
      rw [Buffer.store_of_le inside]
      simp
    rcases unstored with plain | rfl
    · exact ⟨[], [], .plain _ plain, written⟩
    · exact ⟨[], _, .symclone _, written⟩

theorem size_le_length (given : entry.line.instruction = some instruction) :
    instruction.size ≤ entry.line.length := by
  unfold Line.length
  split
  case h_1 absent => simp [absent] at given
  case h_2 same _ =>
    rcases Option.some.inj (same.symm.trans given) with rfl
    exact Nat.le_add_right _ _
  case h_3 same _ =>
    rcases Option.some.inj (same.symm.trans given) with rfl
    exact Nat.le_add_right _ _
  case h_4 same _ _ =>
    rcases Option.some.inj (same.symm.trans given) with rfl
    exact Nat.le_refl _

/-- The stored bytes of a line stay among its own. -/
theorem length_of_encodes {block : Bytes} {operands : List Operand}
    (given : entry.line.instruction = some instruction)
    (encodes : Encodes placed entry.position instruction entry.line.params block operands) :
    1 + block.length ≤ entry.line.length := by
  have size := size_le_length given
  generalize params : entry.line.params = list at encodes
  cases encodes with
  | byte i rest kind => rcases kind with rfl | rfl <;> exact size
  | handle label rest kind found => rcases kind with rfl | rfl | rfl <;> exact size
  | int i rest => exact size
  | float f rest => exact size
  | string text rest kind =>
      rw [length_of_string given kind params, List.length_append, length_littleEndian,
        List.length_take]
      have positive := instruction.size_pos
      have less := Nat.mod_le (strlen text) (256 ^ (instruction.size - 1))
      omega
  | offset label rest kind found => rcases kind with rfl | rfl | rfl <;> exact size
  | symdef flags identifier rest => exact size
  | identifier identifier rest kind => rcases kind with rfl | rfl <;> exact size
  | symclone => exact Nat.le_trans (Instruction.size_pos _) size
  | plain => exact Nat.le_trans (Instruction.size_pos _) size

/-- One store gives the bytecode that `storeLine` gives. -/
theorem encodes_of_storeLine (measured : entry.length = entry.line.length)
    (given : entry.line.instruction = some instruction)
    (success : storeLine placed entry bytecode = .ok (some stored)) :
    ∃ block operands, Encodes placed entry.position instruction entry.line.params block operands ∧
      Buffer.store bytecode entry.position (instruction.opcode :: block) = .ok stored := by
  unfold storeLine at success
  rw [given] at success
  rcases Outcome.bind_eq_ok.mp success with ⟨opcoded, first, second⟩
  have inside : entry.position + 1 ≤ opcoded.length := by
    rw [Buffer.length_of_store first]
    exact (Buffer.store_eq_ok.mp first).1
  have combine : ∀ block, Buffer.store opcoded (entry.position + 1) block = .ok stored →
      Buffer.store bytecode entry.position (instruction.opcode :: block) = .ok stored := by
    intro block written
    rw [← List.singleton_append, ← Buffer.store_append]
    exact Outcome.bind_eq_ok.mpr ⟨opcoded, first, written⟩
  split at second
  case isTrue long =>
    rcases encodes_of_storeOperands measured given inside second with
      ⟨block, operands, encodes, written⟩
    exact ⟨block, operands, encodes, combine block written⟩
  case isFalse short =>
    rcases Option.some.inj (Except.ok.inj second) with rfl
    refine ⟨[], [], ?_, combine [] ?_⟩
    · have size := size_le_length given
      exact .plain _ (Instruction.extras_eq_nil (by omega))
    · rw [Buffer.store_of_le inside]
      simp

/-- A line's bytes are its opcode, its operands, and what nothing was stored over. -/
theorem getElem?_of_storeLine (measured : entry.length = entry.line.length)
    (given : entry.line.instruction = some instruction)
    (success : storeLine placed entry bytecode = .ok (some stored)) :
    ∃ block operands, Encodes placed entry.position instruction entry.line.params block operands ∧
      1 + block.length ≤ entry.length ∧
      ∀ index, stored[index]? =
        if entry.position ≤ index ∧ index < entry.position + (1 + block.length) then
          (instruction.opcode :: block)[index - entry.position]?
        else bytecode[index]? := by
  rcases encodes_of_storeLine measured given success with
    ⟨block, operands, encodes, written⟩
  refine ⟨block, operands, encodes, ?_, ?_⟩
  · rw [measured]
    exact length_of_encodes given encodes
  · intro index
    rw [Buffer.getElem?_of_store written, List.length_cons, Nat.add_comm block.length]

/-- A line leaves the bytes of the others alone. -/
theorem getElem?_of_storeLine_of_not_covers (measured : entry.length = entry.line.length)
    (success : storeLine placed entry bytecode = .ok (some stored)) {index : ℕ}
    (outside : ¬ entry.Covers index) : stored[index]? = bytecode[index]? := by
  cases given : entry.line.instruction with
  | none =>
      simp only [storeLine, given, Except.ok.injEq, Option.some.injEq] at success
      rw [success]
  | some instruction =>
      rcases getElem?_of_storeLine measured given success with ⟨block, _, _, fits, bytes⟩
      unfold Placed.Covers at outside
      rw [bytes, if_neg (by omega)]

theorem length_of_storeLine (success : storeLine placed entry bytecode = .ok (some stored))
    (measured : entry.length = entry.line.length) : stored.length = bytecode.length := by
  cases given : entry.line.instruction with
  | none =>
      simp only [storeLine, given, Except.ok.injEq, Option.some.injEq] at success
      rw [success]
  | some instruction =>
      rcases encodes_of_storeLine measured given success with ⟨block, _, _, written⟩
      exact Buffer.length_of_store written

theorem storeLines_cons_eq_ok {rest : List Placed} :
    storeLines placed (entry :: rest) bytecode = .ok (some stored) ↔
      ∃ after, storeLine placed entry bytecode = .ok (some after) ∧
        storeLines placed rest after = .ok (some stored) := by
  simp only [storeLines, Outcome.bind_eq_ok]
  refine ⟨?_, ?_⟩
  · rintro ⟨outcome, first, later⟩
    cases outcome with
    | none => simp [failed] at later
    | some after => exact ⟨after, first, later⟩
  · rintro ⟨after, first, later⟩
    exact ⟨some after, first, later⟩

theorem length_of_storeLines {entries : List Placed}
    (measured : ∀ entry ∈ entries, entry.length = entry.line.length)
    (success : storeLines placed entries bytecode = .ok (some stored)) :
    stored.length = bytecode.length := by
  induction entries generalizing bytecode with
  | nil =>
      simp only [storeLines, Except.ok.injEq, Option.some.injEq] at success
      rw [success]
  | cons entry rest ih =>
      rcases storeLines_cons_eq_ok.mp success with ⟨after, first, later⟩
      rw [ih (fun other mem => measured other (List.mem_cons_of_mem _ mem)) later]
      exact length_of_storeLine first (measured entry List.mem_cons_self)

/-- A byte of no line stays as it was. -/
theorem getElem?_of_storeLines_of_not_covers {entries : List Placed} {index : ℕ}
    (measured : ∀ entry ∈ entries, entry.length = entry.line.length)
    (success : storeLines placed entries bytecode = .ok (some stored))
    (outside : ∀ entry ∈ entries, ¬ entry.Covers index) : stored[index]? = bytecode[index]? := by
  induction entries generalizing bytecode with
  | nil =>
      simp only [storeLines, Except.ok.injEq, Option.some.injEq] at success
      rw [success]
  | cons entry rest ih =>
      rcases storeLines_cons_eq_ok.mp success with ⟨after, first, later⟩
      rw [ih (fun other mem => measured other (List.mem_cons_of_mem _ mem)) later
        (fun other mem => outside other (List.mem_cons_of_mem _ mem))]
      exact getElem?_of_storeLine_of_not_covers (measured entry List.mem_cons_self) first
        (outside entry List.mem_cons_self)

/-- The bytes of each line are as the line's own step has left them. -/
theorem getElem?_of_storeLines {entries : List Placed}
    (ordered : entries.Pairwise Placed.Before)
    (measured : ∀ entry ∈ entries, entry.length = entry.line.length)
    (success : storeLines placed entries bytecode = .ok (some stored))
    (mem : entry ∈ entries) (given : entry.line.instruction = some instruction) :
    ∃ block operands, Encodes placed entry.position instruction entry.line.params block operands ∧
      1 + block.length ≤ entry.length ∧
      ∀ offset, offset < entry.length → stored[entry.position + offset]? =
        if offset < 1 + block.length then (instruction.opcode :: block)[offset]?
        else bytecode[entry.position + offset]? := by
  induction entries generalizing bytecode with
  | nil => simp at mem
  | cons head rest ih =>
      rcases storeLines_cons_eq_ok.mp success with ⟨after, first, later⟩
      rcases List.pairwise_cons.mp ordered with ⟨ahead, orderedRest⟩
      have measuredRest : ∀ other ∈ rest, other.length = other.line.length :=
        fun other mem => measured other (List.mem_cons_of_mem _ mem)
      rcases List.mem_cons.mp mem with rfl | inRest
      · rcases getElem?_of_storeLine (measured entry List.mem_cons_self) given first
          with ⟨block, operands, encodes, fits, bytes⟩
        refine ⟨block, operands, encodes, fits, ?_⟩
        intro offset within
        rw [getElem?_of_storeLines_of_not_covers measuredRest later, bytes, Nat.add_sub_cancel_left]
        · congr 1
          simp only [Nat.le_add_right, true_and, Nat.add_lt_add_iff_left]
        · intro other memOther covers
          have before : entry.position + entry.length ≤ other.position := ahead other memOther
          exact absurd covers.1 (by omega)
      · rcases ih orderedRest measuredRest later inRest with ⟨block, operands, encodes, fits, bytes⟩
        refine ⟨block, operands, encodes, fits, ?_⟩
        intro offset within
        rw [bytes offset within]
        have before : head.position + head.length ≤ entry.position := ahead entry inRest
        have untouched : after[entry.position + offset]? = bytecode[entry.position + offset]? := by
          apply getElem?_of_storeLine_of_not_covers (measured head List.mem_cons_self) first
          intro covers
          exact absurd covers.2 (by omega)
        rw [untouched]

@[simp]
theorem length_blankBytecode (len : ℕ) : (blankBytecode (len + 1)).length = len + 1 := by
  simp [blankBytecode]

/-- The bytes between the guards are `NOOP`s. -/
theorem getElem?_blankBytecode {len index : ℕ} (first : 0 < index) (last : index < len) :
    (blankBytecode (len + 1))[index]? = some Instruction.NOOP.opcode := by
  unfold blankBytecode
  rw [List.getElem?_set_ne (by omega), List.getElem?_append_left (by simpa using last),
    List.getElem?_replicate, if_pos (by simpa using last)]

/-- The guards are `END`s. -/
theorem getElem?_blankBytecode_guard {len index : ℕ} (guard : index = 0 ∨ index = len) :
    (blankBytecode (len + 1))[index]? = some Instruction.END.opcode := by
  unfold blankBytecode
  rcases Nat.eq_zero_or_pos index with rfl | positive
  · rw [List.getElem?_set_self (by simp)]
  · rcases guard with zero | rfl
    · omega
    · rw [List.getElem?_set_ne (by omega), List.getElem?_append_right (by simp)]
      simp

variable {lines : List Line} {output : AssemblerOutput}

/-- What an accepted program has gone through. -/
structure Accepted (lines : List Line) (output : AssemblerOutput) (len : ℕ) : Prop where
  last : ∃ last, (place 1 lines).getLast? = some last ∧ len = last.position + last.length
  fits : sizeofAssemblerOutput + (len + 1) ≤ sizeMax
  nodup : (defined lines).Nodup
  resolved : ∀ label ∈ labels lines, label ∈ defined lines
  stored : storeLines (place 1 lines) (place 1 lines) (blankBytecode (len + 1)) =
    .ok (some output.bytecode)
  start : output.bytecodeStart = (labelPosition (place 1 lines) (ascii "main")).getD 1

theorem accepted_of_assemble (success : assemble lines = .ok (some output)) :
    ∃ len, Accepted lines output len := by
  cases isLast : (place 1 lines).getLast? with
  | none => simp [assemble, isLast] at success
  | some last =>
      simp only [assemble, isLast] at success
      refine ⟨last.position + last.length, ?_⟩
      split at success
      case isTrue => contradiction
      case isFalse fits =>
        split at success
        case isFalse => simp at success
        case isTrue checked =>
          rcases Outcome.bind_eq_ok.mp success with ⟨outcome, stored, result⟩
          cases outcome with
          | none => simp at result
          | some bytecode =>
              simp only [Except.ok.injEq, Option.some.injEq] at result
              subst result
              exact ⟨⟨last, isLast, rfl⟩, Nat.le_of_not_lt fits, checked.1, checked.2, stored, rfl⟩

namespace Accepted

variable {len : ℕ}

theorem measured : ∀ entry ∈ place 1 lines, entry.length = entry.line.length :=
  fun _ mem => length_of_mem_place mem

theorem length (accepted : Accepted lines output len) : output.bytecode.length = len + 1 := by
  rw [length_of_storeLines measured accepted.stored, length_blankBytecode]

/-- A line lies between the guards. -/
theorem inside (accepted : Accepted lines output len) {entry : Placed}
    (mem : entry ∈ place 1 lines) :
    1 ≤ entry.position ∧ entry.position + entry.length ≤ len := by
  rcases accepted.last with ⟨last, isLast, rfl⟩
  exact ⟨le_position_of_mem_place mem, end_le_of_mem (pairwise_place 1 lines) isLast mem⟩

/-- The bytes of a line in the finished bytecode. -/
theorem load_line (accepted : Accepted lines output len) {entry : Placed}
    {instruction : Instruction} (mem : entry ∈ place 1 lines)
    (given : entry.line.instruction = some instruction) :
    ∃ block operands,
      Encodes (place 1 lines) entry.position instruction entry.line.params block operands ∧
      1 + block.length ≤ entry.length ∧
      Buffer.load output.bytecode entry.position entry.length =
        .ok (instruction.opcode :: block ++
          List.replicate (entry.length - (1 + block.length)) Instruction.NOOP.opcode) := by
  rcases getElem?_of_storeLines (pairwise_place 1 lines) measured accepted.stored mem given
    with ⟨block, operands, encodes, fits, bytes⟩
  rcases accepted.inside mem with ⟨first, last⟩
  refine ⟨block, operands, encodes, fits, ?_⟩
  apply Buffer.load_eq_ok_of_getElem?
  · rw [accepted.length]
    omega
  · simp only [List.length_append, List.length_cons, List.length_replicate]
    omega
  · intro offset within
    rw [bytes offset within]
    split
    case isTrue stored =>
      rw [List.getElem?_append_left (by rw [List.length_cons]; omega)]
    case isFalse unstored =>
      rw [getElem?_blankBytecode (by omega) (by omega),
        List.getElem?_append_right (by rw [List.length_cons]; omega), List.getElem?_replicate,
        if_pos (by rw [List.length_cons]; omega)]

end Accepted

end Dang
