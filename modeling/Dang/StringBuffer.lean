import Dang.Bytes
import Dang.Foundations.Buffer
import Dang.Foundations.Refinement
import Dang.Memory
import Dang.Util

/-!
# String buffers

`string_t` with the functions that change its contents. The header and the bytes are one
object, which `string_reserve` replaces by a larger one, but the number of bytes it copies from
the start of the old object leaves out the header. So what a string holds at its end is lost
when it grows.
-/

namespace Dang

/-- `sizeof(string_t)`: the two members in front of the bytes. -/
def sizeofStringT : ℕ := 16

/-- `DELIMITER_WHITESPACE` -/
def delimiterWhitespace : ℤ := 0x100

/-- `isspace` in the C locale. No negative character is white space. -/
def isspace (byte : Byte) : Prop := byte = 32 ∨ (9 ≤ byte ∧ byte ≤ 13)

instance (byte : Byte) : Decidable (isspace byte) := inferInstanceAs (Decidable (_ ∨ _))

/-- A byte as a `char`, which is signed. -/
def charValue (byte : Byte) : ℤ := if byte < 128 then byte.val else byte.val - 256

/-- An `int` converted to a `char`. -/
def charOfInt (c : ℤ) : Byte := Fin.ofNat 256 (c % 256).toNat

/-- `string_t`, with the `m_allocated_size` bytes from `m_bytes` on. -/
structure StringT where
  bytes : Bytes
  length : ℕ
  deriving DecidableEq, Repr

/-- A call of one of the functions that change a string. -/
inductive StringCall
  | reserve (newSize : BitVec 64)
  | assign (str : Bytes)
  | append (str : Bytes)
  | appendc (c : ℤ)
  | chomp (delimiter : ℤ)
  deriving DecidableEq, Repr

namespace StringT

variable (memory : Memory)

/-- `m_allocated_size` -/
def allocatedSize (self : StringT) : ℕ := self.bytes.length

/-- `string_alloc`, with or without an initial value. -/
def alloc (initialLength : ℕ) (initialValue : Option Bytes) : Outcome (Option StringT) :=
  let size := nextupow2 initialLength
  if memory.calloc 1 (sizeofStringT + size) then
    match initialValue with
    | some value => do
        let block ← Buffer.load value 0 initialLength
        let bytes ← Buffer.store (List.replicate size 0) 0 block
        .ok (some ⟨bytes, initialLength⟩)
    | none => .ok (some ⟨List.replicate size 0, 0⟩)
  else .ok none

/-- `string_dup` -/
def dup (orig : StringT) : Outcome (Option StringT) :=
  alloc memory orig.length (some orig.bytes)

/-- `string_reserve`. Of the `m_length` bytes that it copies the first ones are the header, which
is set up again. -/
def reserve (self : StringT) (newSize : ℕ) : Outcome (ℤ × StringT) :=
  if self.allocatedSize < newSize then
    let newSize := nextupow2 newSize
    if memory.calloc 1 (sizeofStringT + newSize) then do
      let copied ← Buffer.load self.bytes 0 (self.length - sizeofStringT)
      let bytes ← Buffer.store (List.replicate newSize 0) 0 copied
      .ok (0, ⟨bytes, self.length⟩)
    else .ok (-1, self)
  else .ok (0, self)

/-- `string_assign` -/
def assign (self : StringT) (str : Bytes) : Outcome (ℤ × StringT) := do
  let (_, self) ← if self.allocatedSize < str.length then self.reserve memory str.length
    else .ok (0, self)
  let bytes ← Buffer.store self.bytes 0 str
  let bytes ← Buffer.store bytes str.length (List.replicate (self.allocatedSize - str.length) 0)
  .ok (0, ⟨bytes, str.length⟩)

/-- `string_append` -/
def append (self : StringT) (str : Bytes) : Outcome (ℤ × StringT) := do
  let (_, self) ← if self.allocatedSize < str.length then
      self.reserve memory (sizeAdd self.length str.length)
    else .ok (0, self)
  let bytes ← Buffer.store self.bytes self.length str
  .ok (0, ⟨bytes, sizeAdd self.length str.length⟩)

/-- `string_appendc` -/
def appendc (self : StringT) (c : ℤ) : Outcome (ℤ × StringT) := do
  let (status, self) ← self.reserve memory (sizeAdd self.length 1)
  if status ≠ 0 then .ok (-1, self)
  else do
    let bytes ← Buffer.store self.bytes self.length [charOfInt c]
    .ok (0, ⟨bytes, self.length + 1⟩)

/-- `string_chomp`, which returns nothing. -/
def chomp (self : StringT) (delimiter : ℤ) : Outcome StringT :=
  if 0 < self.length then
    match self.bytes[self.length - 1]? with
    | none => .error .invalidAccess
    | some last =>
        if charValue last = delimiter ∨ delimiter = delimiterWhitespace ∧ isspace last then do
          let bytes ← Buffer.store self.bytes (self.length - 1) [0]
          .ok ⟨bytes, self.length - 1⟩
        else .ok self
  else .ok self

/-- A call with its result. -/
def serve (self : StringT) : StringCall → Outcome (ℤ × StringT)
  | .reserve newSize => self.reserve memory newSize.toNat
  | .assign str => self.assign memory str
  | .append str => self.append memory str
  | .appendc c => self.appendc memory c
  | .chomp delimiter => do
      let after ← self.chomp delimiter
      .ok (0, after)

/-- The bytes a string holds. -/
def contents (self : StringT) : Bytes := self.bytes.take self.length

end StringT

/-- A byte is the delimiter that is given, as a character or as a byte of a stream, or one of the
white space that it stands for. -/
def Delimits (delimiter : ℤ) (byte : Byte) : Prop :=
  delimiter = charValue byte ∨ delimiter = byte.val ∨
    delimiter = delimiterWhitespace ∧ isspace byte

instance (delimiter : ℤ) (byte : Byte) : Decidable (Delimits delimiter byte) :=
  inferInstanceAs (Decidable (_ ∨ _))

/-- What a call does to a list of bytes. Every call succeeds. -/
def StringCall.onBytes (bytes : Bytes) : StringCall → ℤ × Bytes
  | .reserve _ => (0, bytes)
  | .assign str => (0, str)
  | .append str => (0, bytes ++ str)
  | .appendc c => (0, bytes ++ [charOfInt c])
  | .chomp delimiter =>
      match bytes.getLast? with
      | some last => (0, if Delimits delimiter last then bytes.dropLast else bytes)
      | none => (0, bytes)

namespace StringT

/-- The string holds the bytes, in as much storage as `nextupow2` ever asks for. -/
structure Holds (string : StringT) (bytes : Bytes) : Prop where
  length_le : string.length ≤ string.allocatedSize
  allocatedSize_le : string.allocatedSize ≤ 2 ^ 63
  contents_eq : string.contents = bytes

/-- What the string holds in its last bytes, as many as its header has, is zero. -/
def TailBlank (self : StringT) : Prop :=
  ∀ byte ∈ self.contents.drop (self.length - sizeofStringT), byte = 0

/-- The string does not have to grow to a size, or it loses nothing and has as much storage
then. -/
def GrowsTo (self : StringT) (newSize : ℕ) : Prop :=
  newSize ≤ self.allocatedSize ∨ self.TailBlank ∧ (newSize < 2 ^ 63 ∨ self.length = 0)

/-- A call that does to the string what it does to a list of bytes. -/
def Keeps (self : StringT) : StringCall → Prop
  | .reserve newSize => self.GrowsTo newSize.toNat
  | .assign str => str.length ≤ self.allocatedSize ∨ str.length < 2 ^ 63
  | .append str =>
      if str.length ≤ self.allocatedSize then self.length + str.length ≤ self.allocatedSize
      else self.TailBlank ∧ self.length + str.length < 2 ^ 63
  | .appendc _ => self.GrowsTo (self.length + 1)
  | .chomp delimiter => ∀ last ∈ self.contents.getLast?, delimiter = last.val → last < 128

variable {memory : Memory} {self after : StringT} {bytes : Bytes} {newSize : ℕ} {status : ℤ}

instance (self : StringT) : Decidable self.TailBlank :=
  inferInstanceAs (Decidable (∀ byte ∈ _, byte = 0))

instance (self : StringT) (newSize : ℕ) : Decidable (self.GrowsTo newSize) :=
  inferInstanceAs (Decidable (_ ∨ _))

/-- What a string that grows to a size has in place of its bytes. -/
def grown (self : StringT) (size : ℕ) : Bytes :=
  self.bytes.take (self.length - sizeofStringT) ++
    List.replicate (size - (self.length - sizeofStringT)) 0

theorem length_grown {size : ℕ} (within : self.length ≤ self.allocatedSize)
    (room : self.length - sizeofStringT ≤ size) : (self.grown size).length = size := by
  unfold allocatedSize at within
  rw [grown, List.length_append, List.length_take, List.length_replicate]
  omega

theorem length_contents (within : self.length ≤ self.allocatedSize) :
    self.contents.length = self.length := by
  rw [contents, List.length_take]
  exact Nat.min_eq_left within

/-- A string that grows keeps what it holds exactly if its last bytes are zero. -/
theorem contents_grown_iff {size : ℕ} (within : self.length ≤ self.allocatedSize)
    (room : self.length ≤ size) :
    contents ⟨self.grown size, self.length⟩ = self.contents ↔ self.TailBlank := by
  have kept : self.bytes.take (self.length - sizeofStringT) =
      self.contents.take (self.length - sizeofStringT) := by
    rw [contents, List.take_take, Nat.min_eq_left (Nat.sub_le _ _)]
  have taken : (self.contents.take (self.length - sizeofStringT)).length =
      self.length - sizeofStringT := by
    rw [List.length_take, length_contents within]
    exact Nat.min_eq_left (Nat.sub_le _ _)
  have shape : contents ⟨self.grown size, self.length⟩ =
      self.contents.take (self.length - sizeofStringT) ++
        List.replicate (self.length - (self.length - sizeofStringT)) 0 := by
    simp only [contents, grown]
    rw [← contents, kept, List.take_append, taken, List.take_replicate,
      List.take_of_length_le (by omega)]
    congr 2
    omega
  have split := List.take_append_drop (self.length - sizeofStringT) self.contents
  have left : (self.contents.drop (self.length - sizeofStringT)).length =
      self.length - (self.length - sizeofStringT) := by
    rw [List.length_drop, length_contents within]
  rw [shape]
  constructor
  · intro same
    have tails := List.append_cancel_left (same.trans split.symm)
    intro byte mem
    rw [← tails] at mem
    exact List.eq_of_mem_replicate mem
  · intro blank
    rw [← List.eq_replicate_iff.mpr ⟨left, blank⟩]
    exact split

/-- `string_reserve` of a size the string already has. -/
theorem reserve_of_le (memory : Memory) (within : newSize ≤ self.allocatedSize) :
    self.reserve memory newSize = .ok (0, self) :=
  if_neg (Nat.not_lt.mpr within)

/-- A string that grows is copied as far as the block has room for it. -/
theorem reserve_of_lt (ample : ∀ size ≤ sizeMax, memory.calloc 1 size = true)
    (within : self.length ≤ self.allocatedSize) (beyond : self.allocatedSize < newSize)
    (word : newSize < 2 ^ 64) :
    self.reserve memory newSize =
      if self.length - sizeofStringT ≤ nextupow2 newSize
      then .ok (0, ⟨self.grown (nextupow2 newSize), self.length⟩) else .error .invalidAccess := by
  have half := nextupow2_le_half word
  have granted : memory.calloc 1 (sizeofStringT + nextupow2 newSize) = true := by
    apply ample
    simp only [sizeMax, sizeofStringT]
    omega
  unfold allocatedSize at within
  have loaded : Buffer.load self.bytes 0 (self.length - sizeofStringT) =
      .ok (self.bytes.take (self.length - sizeofStringT)) :=
    Buffer.load_eq_ok.mpr ⟨by omega, by rw [List.drop_zero]⟩
  have copied : (self.bytes.take (self.length - sizeofStringT)).length =
      self.length - sizeofStringT := by
    rw [List.length_take]
    omega
  simp only [reserve, if_pos beyond, granted, if_true, loaded, Outcome.ok_bind]
  by_cases room : self.length - sizeofStringT ≤ nextupow2 newSize
  · rw [if_pos room, Buffer.store_of_le (by rw [copied, List.length_replicate]; omega)]
    simp [grown, copied]
  · have outside : ¬ 0 + (self.bytes.take (self.length - sizeofStringT)).length ≤
        (List.replicate (nextupow2 newSize) (0 : Byte)).length := by
      rw [copied, List.length_replicate]
      omega
    rw [if_neg room, Buffer.store, if_neg outside, Outcome.error_bind]

/-- However a string grows, its length stays. -/
theorem reserve_sizes (success : self.reserve memory newSize = .ok (status, after)) :
    after.length = self.length ∧
      (after.allocatedSize = self.allocatedSize ∨ after.allocatedSize = nextupow2 newSize) := by
  unfold reserve at success
  dsimp only at success
  split at success
  case isFalse =>
    cases success
    exact ⟨rfl, Or.inl rfl⟩
  split at success
  case isFalse =>
    cases success
    exact ⟨rfl, Or.inl rfl⟩
  rcases Outcome.bind_eq_ok.mp success with ⟨copied, loaded, later⟩
  rcases Outcome.bind_eq_ok.mp later with ⟨stored, written, result⟩
  cases result
  have long := Buffer.length_of_store written
  rw [List.length_replicate] at long
  exact ⟨rfl, Or.inr long⟩

theorem reserve_bounded (holds : self.Holds bytes) (word : newSize < 2 ^ 64)
    (success : self.reserve memory newSize = .ok (status, after)) :
    after.allocatedSize ≤ 2 ^ 63 := by
  rcases (reserve_sizes success).2 with same | grown
  · rw [same]
    exact holds.allocatedSize_le
  · rw [grown]
    exact nextupow2_le_half word

/-- A size that is asked for is there afterwards, below half the range of a word. -/
theorem reserve_of_small (ample : ∀ size ≤ sizeMax, memory.calloc 1 size = true)
    (within : self.length ≤ self.allocatedSize) (beyond : self.allocatedSize < newSize)
    (small : newSize < 2 ^ 63) :
    self.reserve memory newSize = .ok (0, ⟨self.grown (nextupow2 newSize), self.length⟩) := by
  have larger := lt_nextupow2 small
  rw [reserve_of_lt ample within beyond (by omega), if_pos (by omega)]

theorem contents_of_length_eq_zero (empty : self.length = 0) : self.contents = [] := by
  rw [contents, empty, List.take_zero]

/-- A string that asks for a size answers as if nothing had happened, exactly if it can grow. -/
theorem reserve_iff (ample : ∀ size ≤ sizeMax, memory.calloc 1 size = true)
    (holds : self.Holds bytes) (word : newSize < 2 ^ 64) :
    (∃ target, self.reserve memory newSize = .ok (0, target) ∧ target.Holds bytes) ↔
      self.GrowsTo newSize := by
  rcases Nat.lt_or_ge self.allocatedSize newSize with beyond | within
  · have decided : self.GrowsTo newSize ↔
        self.TailBlank ∧ (newSize < 2 ^ 63 ∨ self.length = 0) :=
      or_iff_right (Nat.not_le.mpr beyond)
    have lengthLe := holds.length_le
    rw [decided]
    rcases Nat.lt_or_ge newSize (2 ^ 63) with small | large
    · have larger := lt_nextupow2 small
      rw [reserve_of_small ample lengthLe beyond small]
      constructor
      · rintro ⟨target, result, after⟩
        cases result
        have same := after.contents_eq.trans holds.contents_eq.symm
        exact ⟨(contents_grown_iff lengthLe (by omega)).mp same, Or.inl small⟩
      · rintro ⟨blank, _⟩
        refine ⟨_, rfl, ?_, ?_, ?_⟩
        · rw [allocatedSize, length_grown lengthLe (by omega)]
          exact Nat.le_trans lengthLe (by omega)
        · rw [allocatedSize, length_grown lengthLe (by omega)]
          exact nextupow2_le_half word
        · exact ((contents_grown_iff lengthLe (by omega)).mpr blank).trans holds.contents_eq
    · rw [reserve_of_lt ample lengthLe beyond word, nextupow2_of_large large word]
      constructor
      · rintro ⟨target, result, after⟩
        split at result
        case isTrue room =>
          cases result
          have none : self.length ≤ (self.grown 0).length := after.length_le
          rw [length_grown lengthLe room] at none
          have empty := Nat.le_zero.mp none
          refine ⟨?_, Or.inr empty⟩
          rw [TailBlank, contents_of_length_eq_zero empty]
          simp
        case isFalse => cases result
      · rintro ⟨_, small | empty⟩
        · omega
        · rw [if_pos (by omega)]
          refine ⟨_, rfl, ?_, ?_, ?_⟩
          · rw [empty]
            exact Nat.zero_le _
          · rw [allocatedSize, length_grown lengthLe (by omega)]
            exact Nat.zero_le _
          · rw [← holds.contents_eq, contents_of_length_eq_zero empty]
            exact contents_of_length_eq_zero empty
  · rw [reserve_of_le memory within]
    constructor
    · intro _
      exact Or.inl within
    · intro _
      exact ⟨self, rfl, holds⟩

/-- Bytes that are stored at the end of what a string holds are appended to it. -/
theorem holds_appended {block : Bytes} (half : self.allocatedSize ≤ 2 ^ 63) {stored : Bytes}
    (success : Buffer.store self.bytes self.length block = .ok stored) :
    Holds ⟨stored, self.length + block.length⟩ (self.contents ++ block) := by
  have inside := (Buffer.store_eq_ok.mp success).1
  have kept : stored.length = self.bytes.length := Buffer.length_of_store success
  refine ⟨?_, ?_, ?_⟩
  · rw [allocatedSize, kept]
    exact inside
  · rw [allocatedSize, kept]
    exact half
  · exact Buffer.take_of_store success

/-- A string that grows to a size without losing what it holds has that much storage then, unless
nothing is in it. -/
theorem reserve_grows (ample : ∀ size ≤ sizeMax, memory.calloc 1 size = true)
    (holds : self.Holds bytes) (word : newSize < 2 ^ 64) (room : self.length < newSize)
    (grows : self.GrowsTo newSize) (nonempty : newSize < 2 ^ 63 ∨ self.length ≠ 0) :
    ∃ target, self.reserve memory newSize = .ok (0, target) ∧ target.Holds bytes ∧
      target.length = self.length ∧ newSize ≤ target.allocatedSize := by
  rcases (reserve_iff ample holds word).mpr grows with ⟨target, reserved, after⟩
  refine ⟨target, reserved, after, (reserve_sizes reserved).1, ?_⟩
  rcases Nat.lt_or_ge self.allocatedSize newSize with beyond | within
  · have small : newSize < 2 ^ 63 := by
      rcases grows with within | ⟨_, small | empty⟩
      · omega
      · exact small
      · exact nonempty.resolve_right (not_not_intro empty)
    have larger := lt_nextupow2 small
    rw [reserve_of_small ample holds.length_le beyond small] at reserved
    cases reserved
    rw [allocatedSize, length_grown holds.length_le (by omega)]
    omega
  · rw [reserve_of_le memory within] at reserved
    cases reserved
    exact within

/-- `string_appendc` -/
theorem appendc_iff (ample : ∀ size ≤ sizeMax, memory.calloc 1 size = true)
    (holds : self.Holds bytes) (c : ℤ) :
    (∃ target, self.appendc memory c = .ok (0, target) ∧ target.Holds (bytes ++ [charOfInt c])) ↔
      self.GrowsTo (self.length + 1) := by
  have lengthLe := holds.length_le
  have half := holds.allocatedSize_le
  have word : self.length + 1 < 2 ^ 64 := by omega
  rw [appendc, sizeAdd_eq word]
  constructor
  · rintro ⟨target, success, after⟩
    rcases Outcome.bind_eq_ok.mp success with ⟨⟨status, middle⟩, reserved, later⟩
    have bounded := reserve_bounded holds word reserved
    dsimp only at later
    split at later
    case isTrue => cases later
    case isFalse zero =>
      rcases Outcome.bind_eq_ok.mp later with ⟨stored, written, result⟩
      cases result
      have inside := (Buffer.store_eq_ok.mp written).1
      rw [List.length_singleton] at inside
      have middleLe : middle.length ≤ middle.allocatedSize := Nat.le_of_succ_le inside
      have appended := holds_appended bounded written
      rw [Decidable.not_not.mp zero] at reserved
      refine (reserve_iff ample holds word).mp ⟨middle, reserved, middleLe, bounded, ?_⟩
      exact List.append_cancel_right (appended.contents_eq.symm.trans after.contents_eq)
  · intro grows
    rcases reserve_grows ample holds word (Nat.lt_succ_self _) grows (by omega) with
      ⟨middle, reserved, after, sameLength, room⟩
    have inside : middle.length + [charOfInt c].length ≤ middle.bytes.length := by
      rw [List.length_singleton, sameLength]
      exact room
    have written := Buffer.store_of_le inside
    have appended := holds_appended after.allocatedSize_le written
    rw [after.contents_eq] at appended
    refine ⟨_, ?_, appended⟩
    rw [reserved, Outcome.ok_bind]
    dsimp only
    rw [if_neg (not_not_intro rfl), written, Outcome.ok_bind]
    rfl

/-- Bytes that are written behind what a string holds, where there is room for them. -/
theorem appended_iff (holds : self.Holds bytes) (str : Bytes) :
    (∃ target, (do
        let stored ← Buffer.store self.bytes self.length str
        .ok (0, ⟨stored, sizeAdd self.length str.length⟩) : Outcome (ℤ × StringT)) =
          .ok (0, target) ∧ target.Holds (bytes ++ str)) ↔
      self.length + str.length ≤ self.allocatedSize := by
  have half := holds.allocatedSize_le
  constructor
  · rintro ⟨target, success, _⟩
    rcases Outcome.bind_eq_ok.mp success with ⟨stored, written, _⟩
    exact (Buffer.store_eq_ok.mp written).1
  · intro inside
    have written := Buffer.store_of_le inside
    have appended := holds_appended half written
    rw [holds.contents_eq] at appended
    rw [written, Outcome.ok_bind, sizeAdd_eq (by omega)]
    exact ⟨_, rfl, appended⟩

/-- `string_append` -/
theorem append_iff (ample : ∀ size ≤ sizeMax, memory.calloc 1 size = true)
    (holds : self.Holds bytes) (str : Bytes) :
    (∃ target, self.append memory str = .ok (0, target) ∧ target.Holds (bytes ++ str)) ↔
      if str.length ≤ self.allocatedSize then self.length + str.length ≤ self.allocatedSize
      else self.TailBlank ∧ self.length + str.length < 2 ^ 63 := by
  have lengthLe := holds.length_le
  unfold append
  by_cases within : str.length ≤ self.allocatedSize
  · rw [if_pos within, if_neg (Nat.not_lt.mpr within)]
    exact appended_iff holds str
  rw [if_neg within, if_pos (Nat.lt_of_not_le within)]
  have sumWord : sizeAdd self.length str.length < 2 ^ 64 := Nat.mod_lt _ (by decide)
  constructor
  · rintro ⟨target, success, after⟩
    rcases Outcome.bind_eq_ok.mp success with ⟨⟨status, middle⟩, reserved, later⟩
    have sameLength := (reserve_sizes reserved).1
    have bounded := reserve_bounded holds sumWord reserved
    dsimp only at later
    rcases Outcome.bind_eq_ok.mp later with ⟨stored, written, result⟩
    have inside := (Buffer.store_eq_ok.mp written).1
    rw [sameLength] at inside
    have word : self.length + str.length < 2 ^ 64 := by
      unfold allocatedSize at bounded
      omega
    rw [sizeAdd_eq word] at reserved
    have beyond : self.allocatedSize < self.length + str.length := by omega
    have middleLe : middle.length ≤ middle.allocatedSize := by
      rw [sameLength]
      exact Nat.le_trans (Nat.le_add_right _ _) inside
    have appended := holds_appended bounded written
    rw [sameLength, sizeAdd_eq word] at result
    rw [sameLength] at appended
    cases result
    have same := List.append_cancel_right (appended.contents_eq.symm.trans after.contents_eq)
    have zero : status = 0 := by
      rw [reserve_of_lt ample lengthLe beyond word] at reserved
      split at reserved
      case isTrue => cases reserved; rfl
      case isFalse => cases reserved
    rw [zero] at reserved
    have grows := (reserve_iff ample holds word).mp ⟨middle, reserved, middleLe, bounded, same⟩
    rcases grows with le | ⟨blank, _⟩
    · omega
    refine ⟨blank, ?_⟩
    by_contra large
    rw [reserve_of_lt ample lengthLe beyond word, nextupow2_of_large (by omega) word] at reserved
    split at reserved
    case isTrue room =>
      cases reserved
      have none := length_grown lengthLe room
      rw [none] at inside
      omega
    case isFalse => cases reserved
  · rintro ⟨blank, small⟩
    have word : self.length + str.length < 2 ^ 64 := by omega
    rcases reserve_grows ample holds word (by omega) (Or.inr ⟨blank, Or.inl small⟩)
      (Or.inl small) with ⟨middle, reserved, after, sameLength, room⟩
    rw [sizeAdd_eq word, reserved, Outcome.ok_bind]
    rw [← sameLength] at room
    exact (appended_iff after str).mpr room

/-- `string_append` where there is room for the bytes already. -/
theorem append_within (memory : Memory) (holds : self.Holds bytes) {str : Bytes}
    (room : self.length + str.length ≤ self.allocatedSize) :
    ∃ target, self.append memory str = .ok (0, target) ∧ target.Holds (bytes ++ str) ∧
      target.allocatedSize = self.allocatedSize := by
  have short : ¬self.allocatedSize < str.length := by omega
  rcases (appended_iff holds str).mpr room with ⟨target, appended, after⟩
  refine ⟨target, ?_, after, ?_⟩
  · unfold append
    rw [if_neg short]
    exact appended
  · rcases Outcome.bind_eq_ok.mp appended with ⟨stored, written, result⟩
    cases result
    exact Buffer.length_of_store written

/-- What is stored at the start of a string comes with zeros behind it. -/
theorem assigned_eq {str : Bytes} (room : str.length ≤ self.allocatedSize) :
    (do
        let stored ← Buffer.store self.bytes 0 str
        let stored ← Buffer.store stored str.length
          (List.replicate (self.allocatedSize - str.length) 0)
        .ok (0, ⟨stored, str.length⟩) : Outcome (ℤ × StringT)) =
      .ok (0, ⟨str ++ List.replicate (self.allocatedSize - str.length) 0, str.length⟩) := by
  unfold allocatedSize at *
  have first : Buffer.store self.bytes 0 str = .ok (str ++ self.bytes.drop str.length) := by
    rw [Buffer.store_of_le (by omega), List.take_zero, List.nil_append, Nat.zero_add]
  have long : (str ++ self.bytes.drop str.length).length = self.bytes.length := by
    rw [List.length_append, List.length_drop]
    omega
  have second : Buffer.store (str ++ self.bytes.drop str.length) str.length
      (List.replicate (self.bytes.length - str.length) 0) =
        .ok (str ++ List.replicate (self.bytes.length - str.length) 0) := by
    rw [Buffer.store_of_le (by rw [long, List.length_replicate]; omega), List.take_left,
      List.length_replicate, List.drop_of_length_le (by omega), List.append_nil]
  rw [first, Outcome.ok_bind, second, Outcome.ok_bind]

theorem allocatedSize_assigned {str : Bytes} (room : str.length ≤ self.allocatedSize) :
    allocatedSize ⟨str ++ List.replicate (self.allocatedSize - str.length) 0, str.length⟩ =
      self.allocatedSize := by
  rw [allocatedSize, List.length_append, List.length_replicate]
  omega

/-- What is stored at the start of a string is what the string holds. -/
theorem holds_assigned {str : Bytes} (room : str.length ≤ self.allocatedSize)
    (half : self.allocatedSize ≤ 2 ^ 63) :
    Holds ⟨str ++ List.replicate (self.allocatedSize - str.length) 0, str.length⟩ str := by
  have size := allocatedSize_assigned room
  refine ⟨?_, ?_, List.take_left⟩
  · rw [size]
    exact room
  · rw [size]
    exact half

/-- `string_assign` where there is room for the bytes already. -/
theorem assign_of_le (memory : Memory) {str : Bytes} (room : str.length ≤ self.allocatedSize) :
    self.assign memory str =
      .ok (0, ⟨str ++ List.replicate (self.allocatedSize - str.length) 0, str.length⟩) := by
  unfold assign
  rw [if_neg (Nat.not_lt.mpr room)]
  exact assigned_eq room

/-- `string_assign` -/
theorem assign_iff (ample : ∀ size ≤ sizeMax, memory.calloc 1 size = true)
    (holds : self.Holds bytes) (str : Bytes) :
    (∃ target, self.assign memory str = .ok (0, target) ∧ target.Holds str) ↔
      str.length ≤ self.allocatedSize ∨ str.length < 2 ^ 63 := by
  have lengthLe := holds.length_le
  have half := holds.allocatedSize_le
  rcases Nat.lt_or_ge self.allocatedSize str.length with beyond | within
  · unfold assign
    rw [if_pos beyond, or_iff_right (Nat.not_le.mpr beyond)]
    constructor
    · rintro ⟨target, success, _⟩
      rcases Outcome.bind_eq_ok.mp success with ⟨⟨status, middle⟩, reserved, later⟩
      rcases Outcome.bind_eq_ok.mp later with ⟨stored, written, _⟩
      have inside := (Buffer.store_eq_ok.mp written).1
      rcases (reserve_sizes reserved).2 with same | grown
      · unfold allocatedSize at *
        omega
      · by_contra large
        have bounded := nextupow2_lt str.length
        unfold allocatedSize at *
        have none := nextupow2_of_large (Nat.le_of_not_lt large) (by omega)
        omega
    · intro small
      have larger := lt_nextupow2 small
      have size : (self.grown (nextupow2 str.length)).length = nextupow2 str.length :=
        length_grown lengthLe (by omega)
      have room : str.length ≤ allocatedSize ⟨self.grown (nextupow2 str.length), self.length⟩ := by
        rw [allocatedSize, size]
        omega
      rw [reserve_of_small ample lengthLe beyond small, Outcome.ok_bind]
      refine ⟨_, assigned_eq room, holds_assigned room ?_⟩
      rw [allocatedSize, size]
      exact nextupow2_le_half (by omega)
  · rw [assign_of_le memory within]
    exact ⟨fun _ => Or.inl within, fun _ => ⟨_, rfl, holds_assigned within half⟩⟩

/-- The last byte of what a string holds, and what is left without it. -/
theorem exists_last (within : self.length ≤ self.allocatedSize) (nonempty : 0 < self.length) :
    ∃ last, self.bytes[self.length - 1]? = some last ∧ self.contents.getLast? = some last ∧
      self.contents.dropLast = self.bytes.take (self.length - 1) := by
  have inside : self.length - 1 < self.bytes.length := by
    unfold allocatedSize at within
    omega
  refine ⟨self.bytes[self.length - 1], List.getElem?_eq_getElem inside, ?_, ?_⟩
  · rw [List.getLast?_eq_getElem?, length_contents within, contents,
      List.getElem?_take_of_lt (by omega), List.getElem?_eq_getElem inside]
  · rw [List.dropLast_eq_take, length_contents within, contents, List.take_take,
      Nat.min_eq_left (by omega)]

/-- A delimiter that is the byte itself is found if the byte is a character of that value. -/
theorem charValue_eq_iff (byte : Byte) : charValue byte = byte.val ↔ byte < 128 := by
  have bounded := byte.isLt
  unfold charValue
  split
  case isTrue small => exact iff_of_true rfl small
  case isFalse large => exact iff_of_false (by omega) large

/-- `string_chomp` -/
theorem chomp_iff (holds : self.Holds bytes) (delimiter : ℤ) :
    (∃ target, self.chomp delimiter = .ok target ∧
      target.Holds (StringCall.onBytes bytes (.chomp delimiter)).2) ↔
      ∀ last ∈ self.contents.getLast?, delimiter = last.val → last < 128 := by
  have lengthLe := holds.length_le
  have contentsEq := holds.contents_eq
  unfold chomp StringCall.onBytes
  rcases Nat.eq_zero_or_pos self.length with empty | nonempty
  · rw [if_neg (by omega)]
    have none := contents_of_length_eq_zero empty
    rw [← contentsEq, none]
    exact iff_of_true ⟨self, rfl, lengthLe, holds.allocatedSize_le, none⟩ (by simp)
  rcases exists_last lengthLe nonempty with ⟨last, atEnd, isLast, dropped⟩
  have bounded := last.isLt
  rw [if_pos nonempty, atEnd, ← contentsEq, isLast]
  dsimp only
  have settled : (∀ last' ∈ some last, delimiter = last'.val → last' < 128) ↔
      (delimiter = last.val → last < 128) := by simp
  rw [settled]
  by_cases found : charValue last = delimiter ∨ delimiter = delimiterWhitespace ∧ isspace last
  · -- The code drops the byte, and so does the operation on lists.
    have delimits : Delimits delimiter last := by
      rcases found with same | space
      · exact Or.inl same.symm
      · exact Or.inr (Or.inr space)
    have inside : self.length - 1 + [(0 : Byte)].length ≤ self.bytes.length := by
      unfold allocatedSize at lengthLe
      rw [List.length_singleton]
      omega
    have written := Buffer.store_of_le inside
    have long := Buffer.length_of_store written
    rw [if_pos found, if_pos delimits, written, Outcome.ok_bind]
    refine iff_of_true ⟨_, rfl, ?_, ?_, ?_⟩ ?_
    · rw [allocatedSize, long]
      exact Nat.le_trans (Nat.sub_le _ _) lengthLe
    · rw [allocatedSize, long]
      exact holds.allocatedSize_le
    · rw [dropped, contents, List.append_assoc]
      refine List.take_left' ?_
      rw [List.length_take]
      exact Nat.min_eq_left (Nat.le_trans (Nat.sub_le _ _) lengthLe)
    · intro byte
      rcases found with same | ⟨space, _⟩
      · exact (charValue_eq_iff last).mp (same.trans byte)
      · rw [delimiterWhitespace] at space
        omega
  · -- The code keeps the byte, so that the delimiter must not stand for it.
    rw [if_neg found]
    have undelimited : ¬ Delimits delimiter last ↔ (delimiter = last.val → last < 128) := by
      constructor
      · intro other byte
        exact absurd (Or.inr (Or.inl byte)) other
      · rintro small (char | byte | space)
        · exact found (Or.inl char.symm)
        · exact found (Or.inl (((charValue_eq_iff last).mpr (small byte)).trans byte.symm))
        · exact found (Or.inr space)
    rw [← undelimited]
    constructor
    · rintro ⟨target, result, after⟩ delimits
      cases result
      rw [if_pos delimits] at after
      have shorter := congrArg List.length after.contents_eq
      rw [List.length_dropLast, length_contents lengthLe] at shorter
      omega
    · intro other
      rw [if_neg other]
      exact ⟨self, rfl, lengthLe, holds.allocatedSize_le, rfl⟩

/-- One call does to the string what it does to a list of bytes exactly where the string keeps
it. -/
theorem serve_iff (ample : ∀ size ≤ sizeMax, memory.calloc 1 size = true)
    (holds : self.Holds bytes) (call : StringCall) :
    (∃ target, self.serve memory call = .ok ((call.onBytes bytes).1, target) ∧
      target.Holds (call.onBytes bytes).2) ↔ self.Keeps call := by
  cases call with
  | reserve newSize => exact reserve_iff ample holds newSize.isLt
  | assign str => exact assign_iff ample holds str
  | append str => exact append_iff ample holds str
  | appendc c => exact appendc_iff ample holds c
  | chomp delimiter =>
      have answered : (StringCall.onBytes bytes (.chomp delimiter)).1 = 0 := by
        unfold StringCall.onBytes
        dsimp only
        split <;> rfl
      rw [Keeps, ← chomp_iff holds delimiter, answered]
      constructor
      · rintro ⟨target, success, after⟩
        rcases Outcome.bind_eq_ok.mp success with ⟨middle, chomped, result⟩
        cases result
        exact ⟨target, chomped, after⟩
      · rintro ⟨target, chomped, after⟩
        refine ⟨target, ?_, after⟩
        rw [serve, chomped, Outcome.ok_bind]

@[simp]
theorem contents_append (bytes rest : Bytes) : contents ⟨bytes ++ rest, bytes.length⟩ = bytes :=
  List.take_left

/-- A string with an initial value is made where `calloc` finds its storage, if that is enough
for the value. -/
theorem alloc_some {value : Bytes} {start : StringT} :
    alloc memory value.length (some value) = .ok (some start) ↔
      memory.calloc 1 (sizeofStringT + nextupow2 value.length) = true ∧ value.length < 2 ^ 63 ∧
        start = ⟨value ++ List.replicate (nextupow2 value.length - value.length) 0,
          value.length⟩ := by
  have loaded : Buffer.load value 0 value.length = .ok value :=
    Buffer.load_eq_ok.mpr ⟨by omega, by rw [List.drop_zero, List.take_length]⟩
  by_cases granted : memory.calloc 1 (sizeofStringT + nextupow2 value.length) = true
  · simp only [alloc, granted, if_true, loaded, Outcome.ok_bind, true_and]
    constructor
    · intro success
      rcases Outcome.bind_eq_ok.mp success with ⟨stored, written, result⟩
      rcases Buffer.store_eq_ok.mp written with ⟨inside, shape⟩
      rw [List.length_replicate, Nat.zero_add] at inside
      have bounded := nextupow2_lt value.length
      refine ⟨?_, ?_⟩
      · by_contra large
        rw [nextupow2_of_large (Nat.le_of_not_lt large) (by omega)] at inside
        omega
      · cases result
        simp [shape]
    · rintro ⟨small, rfl⟩
      have larger := lt_nextupow2 small
      rw [Buffer.store_of_le (by rw [List.length_replicate]; omega)]
      simp
  · simp [alloc, granted]

/-- With or without storage, a string with an initial value is asked for without a fault. -/
theorem alloc_returns (memory : Memory) {value : Bytes} (small : value.length < 2 ^ 63) :
    ∃ made, alloc memory value.length (some value) = .ok made := by
  by_cases granted : memory.calloc 1 (sizeofStringT + nextupow2 value.length) = true
  · exact ⟨_, alloc_some.mpr ⟨granted, small, rfl⟩⟩
  · exact ⟨none, by simp [alloc, granted]⟩

/-- A new string is blank, or a block of its initial value is stored in it. -/
theorem alloc_cases {initialLength : ℕ} {initialValue : Option Bytes} {made : StringT}
    (success : alloc memory initialLength initialValue = .ok (some made)) :
    memory.calloc 1 (sizeofStringT + nextupow2 initialLength) = true ∧
      (initialValue = none ∧ made = ⟨List.replicate (nextupow2 initialLength) 0, 0⟩ ∨
        ∃ value block bytes, initialValue = some value ∧
          Buffer.load value 0 initialLength = .ok block ∧
          Buffer.store (List.replicate (nextupow2 initialLength) 0) 0 block = .ok bytes ∧
          made = ⟨bytes, initialLength⟩) := by
  unfold alloc at success
  dsimp only at success
  split at success
  case isFalse => cases success
  case isTrue granted =>
    refine ⟨granted, ?_⟩
    cases initialValue with
    | none =>
        cases success
        exact Or.inl ⟨rfl, rfl⟩
    | some value =>
        rcases Outcome.bind_eq_ok.mp success with ⟨block, loaded, later⟩
        rcases Outcome.bind_eq_ok.mp later with ⟨bytes, stored, result⟩
        cases result
        exact Or.inr ⟨value, block, bytes, rfl, loaded, stored, rfl⟩

/-- What a new string has, whatever its initial value. -/
theorem alloc_eq_ok {initialLength : ℕ} {initialValue : Option Bytes} {made : StringT}
    (success : alloc memory initialLength initialValue = .ok (some made)) :
    memory.calloc 1 (sizeofStringT + nextupow2 initialLength) = true ∧
      made.length = (if initialValue.isSome then initialLength else 0) ∧
      made.allocatedSize = nextupow2 initialLength := by
  rcases alloc_cases success with
    ⟨granted, ⟨rfl, rfl⟩ | ⟨value, block, bytes, rfl, loaded, stored, rfl⟩⟩
  · exact ⟨granted, rfl, List.length_replicate⟩
  · refine ⟨granted, rfl, ?_⟩
    rw [allocatedSize, Buffer.length_of_store stored, List.length_replicate]

/-- A new string holds as much of its initial value as it is told. -/
theorem contents_of_alloc {initialLength : ℕ} {value : Bytes} {made : StringT}
    (success : alloc memory initialLength (some value) = .ok (some made)) :
    made.contents = value.take initialLength := by
  rcases alloc_cases success with ⟨_, ⟨none, _⟩ | ⟨_, block, bytes, same, loaded, stored, rfl⟩⟩
  · cases none
  · cases same
    have long := Buffer.length_of_load loaded
    have whole := Buffer.take_of_store stored
    rw [Nat.zero_add, List.take_zero, List.nil_append, long] at whole
    rw [contents, whole, (Buffer.load_eq_ok.mp loaded).2, List.drop_zero]

/-- Of its initial value a string takes as many bytes as it is told. -/
theorem alloc_prefix {value : Bytes} (prefixed : value.take bytes.length = bytes) :
    alloc memory bytes.length (some value) = alloc memory bytes.length (some bytes) := by
  have within := congrArg List.length prefixed
  rw [List.length_take] at within
  have whole : Buffer.load value 0 bytes.length = .ok bytes :=
    Buffer.load_eq_ok.mpr ⟨by omega, by rw [List.drop_zero, prefixed]⟩
  have part : Buffer.load bytes 0 bytes.length = .ok bytes :=
    Buffer.load_eq_ok.mpr ⟨by omega, by rw [List.drop_zero, List.take_length]⟩
  simp only [alloc, whole, part]

/-- `string_dup` copies what the string holds. -/
theorem dup_eq (holds : self.Holds bytes) :
    self.dup memory = alloc memory bytes.length (some bytes) := by
  have length := length_contents holds.length_le
  rw [holds.contents_eq] at length
  rw [dup, ← length]
  apply alloc_prefix
  rw [length]
  exact holds.contents_eq

/-- What `alloc_some` makes holds the value. -/
theorem holds_alloc {value : Bytes} (small : value.length < 2 ^ 63) :
    Holds ⟨value ++ List.replicate (nextupow2 value.length - value.length) 0, value.length⟩
      value := by
  have half := nextupow2_le_half (show value.length < 2 ^ 64 by omega)
  have larger := lt_nextupow2 small
  refine ⟨?_, ?_, List.take_left⟩
  · simp [allocatedSize]
  · rw [allocatedSize, List.length_append, List.length_replicate]
    omega

/-- A string with an initial value is made where storage never runs out. -/
theorem alloc_of_ample (ample : ∀ size ≤ sizeMax, memory.calloc 1 size = true)
    (small : bytes.length < 2 ^ 63) :
    alloc memory bytes.length (some bytes) = .ok (some
      ⟨bytes ++ List.replicate (nextupow2 bytes.length - bytes.length) 0, bytes.length⟩) := by
  have half := nextupow2_le_half (show bytes.length < 2 ^ 64 by omega)
  refine alloc_some.mpr ⟨ample _ ?_, small, rfl⟩
  simp only [sizeMax, sizeofStringT]
  omega

/-- A new string holds its initial value, if half the range of a word is enough for it. -/
theorem alloc_iff (ample : ∀ size ≤ sizeMax, memory.calloc 1 size = true)
    (initialLength : BitVec 64) {initialValue : Option Bytes}
    (given : ∀ value ∈ initialValue, value.length = initialLength.toNat) :
    (∃ start, alloc memory initialLength.toNat initialValue = .ok (some start) ∧
      start.Holds (initialValue.getD [])) ↔
      (initialValue = none ∨ initialLength.toNat < 2 ^ 63) := by
  have word := initialLength.isLt
  have half := nextupow2_le_half word
  have granted : memory.calloc 1 (sizeofStringT + nextupow2 initialLength.toNat) = true := by
    apply ample
    simp only [sizeMax, sizeofStringT]
    omega
  cases initialValue with
  | none =>
      refine iff_of_true ⟨⟨List.replicate (nextupow2 initialLength.toNat) 0, 0⟩, ?_, ?_, ?_, ?_⟩
        (Or.inl rfl)
      · simp only [alloc, granted, if_true]
      · exact Nat.zero_le _
      · rw [allocatedSize, List.length_replicate]
        exact half
      · exact contents_of_length_eq_zero rfl
  | some value =>
      have long := given value rfl
      rw [← long] at granted
      rw [or_iff_right (by simp), ← long]
      constructor
      · rintro ⟨start, success, _⟩
        exact (alloc_some.mp success).2.1
      · intro small
        exact ⟨_, alloc_some.mpr ⟨granted, small, rfl⟩, holds_alloc small⟩

/-- A string follows the operations on lists of bytes exactly if it gets its initial value and
keeps what each call does. -/
theorem runs_iff_keeps (ample : ∀ size ≤ sizeMax, memory.calloc 1 size = true)
    (initialLength : BitVec 64) {initialValue : Option Bytes}
    (given : ∀ value ∈ initialValue, value.length = initialLength.toNat)
    (calls : List StringCall) :
    (∃ start steps, alloc memory initialLength.toNat initialValue = .ok (some start) ∧
      start.Holds (initialValue.getD []) ∧ trace (serve memory) start calls = .ok steps ∧
      List.Forall₂ (fun concrete abstract => concrete.1 = abstract.1 ∧ concrete.2.Holds abstract.2)
        steps (modelTrace StringCall.onBytes (initialValue.getD []) calls)) ↔
      (initialValue = none ∨ initialLength.toNat < 2 ^ 63) ∧
        ∀ start, alloc memory initialLength.toNat initialValue = .ok (some start) →
          RequestsMeet Keeps (serve memory) start calls := by
  have follows : ∀ start : StringT, start.Holds (initialValue.getD []) →
      ((∃ steps, trace (serve memory) start calls = .ok steps ∧
        List.Forall₂ (fun concrete abstract =>
          concrete.1 = abstract.1 ∧ concrete.2.Holds abstract.2)
          steps (modelTrace StringCall.onBytes (initialValue.getD []) calls)) ↔
        RequestsMeet Keeps (serve memory) start calls) := by
    intro start holds
    refine trace_refines_iff Keeps Holds ?_ holds
    intro state model call relates
    exact serve_iff ample relates call
  constructor
  · rintro ⟨start, steps, allocated, holds, followed, agree⟩
    refine ⟨(alloc_iff ample initialLength given).mp ⟨start, allocated, holds⟩, ?_⟩
    intro other allocated'
    cases allocated.symm.trans allocated'
    exact (follows start holds).mp ⟨steps, followed, agree⟩
  · rintro ⟨fits, meet⟩
    rcases (alloc_iff ample initialLength given).mpr fits with ⟨start, allocated, holds⟩
    rcases (follows start holds).mpr (meet start allocated) with ⟨steps, followed, agree⟩
    exact ⟨start, steps, allocated, holds, followed, agree⟩

instance (self : StringT) : (call : StringCall) → Decidable (self.Keeps call)
  | .reserve newSize => inferInstanceAs (Decidable (self.GrowsTo newSize.toNat))
  | .assign _ => inferInstanceAs (Decidable (_ ∨ _))
  | .append _ => inferInstanceAs (Decidable (ite _ _ _))
  | .appendc _ => inferInstanceAs (Decidable (self.GrowsTo (self.length + 1)))
  | .chomp _ => inferInstanceAs (Decidable (∀ last ∈ self.contents.getLast?, _ → _))

theorem calloc_of_ample (size : ℕ) (fits : size ≤ sizeMax) :
    Memory.ample.calloc 1 size = true := by
  rw [Memory.ample, decide_eq_true_eq, Nat.one_mul]
  exact fits

/-- Two bytes, of which the second one is dropped, and then more than there is storage for. -/
theorem runs_iff_keeps_sample :
    ∃ start steps, alloc .ample (1 : BitVec 64).toNat (some (ascii "a")) = .ok (some start) ∧
      start.Holds (ascii "a") ∧
      trace (serve .ample) start [.appendc 10, .chomp 10, .assign (ascii "abcd")] = .ok steps ∧
      List.Forall₂ (fun concrete abstract => concrete.1 = abstract.1 ∧ concrete.2.Holds abstract.2)
        steps [(0, ascii "a\n"), (0, ascii "a"), (0, ascii "abcd")] := by
  have meet : RequestsMeet Keeps (serve .ample) ⟨ascii "a\x00", 1⟩
      [.appendc 10, .chomp 10, .assign (ascii "abcd")] := by
    have appended : serve .ample ⟨ascii "a\x00", 1⟩ (.appendc 10) = .ok (0, ⟨ascii "a\n", 2⟩) := by
      decide
    have chomped : serve .ample ⟨ascii "a\n", 2⟩ (.chomp 10) = .ok (0, ⟨ascii "a\x00", 1⟩) := by
      decide
    have newline : Keeps ⟨ascii "a\n", 2⟩ (.chomp 10) := by
      intro last found _
      cases found
      decide
    refine RequestsMeet.cons (by decide) appended (RequestsMeet.cons newline chomped ?_)
    have four : (ascii "abcd").length = 4 := by decide
    exact ⟨Or.inr (by rw [four]; norm_num), fun _ _ _ => trivial⟩
  have given : ∀ value ∈ some (ascii "a"), value.length = (1 : BitVec 64).toNat := by decide
  refine (runs_iff_keeps calloc_of_ample 1 given _).mpr ⟨?_, ?_⟩
  · exact Or.inr (by decide)
  · intro start allocated
    have first : alloc .ample (1 : BitVec 64).toNat (some (ascii "a")) =
        .ok (some ⟨ascii "a\x00", 1⟩) := by decide
    cases first.symm.trans allocated
    exact meet

/-- What a string with one byte holds is lost when a third byte makes it grow. -/
theorem not_runs_grown :
    ¬ ∃ start steps, alloc .ample (1 : BitVec 64).toNat (some (ascii "a")) = .ok (some start) ∧
      start.Holds (ascii "a") ∧
      trace (serve .ample) start [.appendc 98, .appendc 99] = .ok steps ∧
      List.Forall₂ (fun concrete abstract => concrete.1 = abstract.1 ∧ concrete.2.Holds abstract.2)
        steps (modelTrace StringCall.onBytes (ascii "a") [.appendc 98, .appendc 99]) := by
  rintro ⟨start, steps, allocated, _, followed, agree⟩
  have first : alloc .ample (1 : BitVec 64).toNat (some (ascii "a")) =
      .ok (some ⟨ascii "a\x00", 1⟩) := by decide
  cases first.symm.trans allocated
  have second : trace (serve .ample) ⟨ascii "a\x00", 1⟩ [.appendc 98, .appendc 99] =
      .ok [(0, ⟨ascii "ab", 2⟩), (0, ⟨ascii "\x00\x00c\x00", 3⟩)] := by decide
  cases second.symm.trans followed
  cases agree with
  | cons _ rest =>
      cases rest with
      | cons last _ => exact absurd last.2.contents_eq (by decide)

end StringT

end Dang
