import Dang.Stream.Basic

/-!
# Reading a number of bytes

`stream_read` asks `fread` for one item of as many bytes as are missing, and takes the number of
items that it returns for a number of bytes. So each round reads all that is missing and counts
one byte of it.
-/

namespace Dang

/-- `fread(p, size, 1, file)`: the number of whole items, the buffer, and what is left of the
file. -/
def fread (buf : Bytes) (p size : ℕ) (file : Bytes) : Outcome (ℕ × Bytes × Bytes) := do
  let buf ← Buffer.store buf p (file.take size)
  .ok (if 0 < size ∧ size ≤ file.length then 1 else 0, buf, file.drop size)

/-- The loop of `stream_read`, with how many bytes are missing: how many are missing at its end, the
buffer, and what is left of the file. It stops where none is missing, or no item was read. -/
def readRounds (p : ℕ) (buf file : Bytes) : ℕ → Outcome (ℕ × Bytes × Bytes)
  | 0 => .ok (0, buf, file)
  | rem + 1 => do
      let (count, buf, file) ← fread buf p (rem + 1) file
      if 0 < count then readRounds (p + count) buf file rem
      else .ok (rem + 1, buf, file)

/-- The body of `stream_read`. -/
def readBytes (memory : ℕ → Memory) (bytes : BitVec 64) (file : Bytes) :
    Outcome (Option StringT × Bytes) :=
  if (memory 0).calloc 1 (sizeAdd bytes.toNat 1) then do
    let (rem, buf, file) ← readRounds 0 (List.replicate (sizeAdd bytes.toNat 1) 0) file bytes.toNat
    if rem ≠ bytes.toNat then do
      let string ← StringT.alloc (memory 1) (bytes.toNat - rem) (some buf)
      .ok (string, file)
    else .ok (none, file)
  else .ok (none, file)

/-- `stream_read` -/
def Streams.read (memory : ℕ → Memory) (handle : ℕ) (bytes : BitVec 64) (streams : Streams) :
    Outcome (Option StringT × Streams) := do
  Outcome.assertThat (streams.HandleValid handle)
  Outcome.assertThat (streams.HandleInUse handle)
  streams.onFile handle (readBytes memory bytes)

/-- What a string that was read says. A null pointer is nothing that was read. -/
def bytesRead (string : Option StringT) : Bytes := (string.map StringT.contents).getD []

/-- A call of `stream_read` for a number of bytes, and what storage it finds. -/
structure ReadCall where
  memory : ℕ → Memory
  bytes : BitVec 64

/-- A call of `stream_read` with the bytes it returns. -/
def Streams.serveRead (handle : ℕ) (streams : Streams) (call : ReadCall) :
    Outcome (Bytes × Streams) := do
  let (string, streams) ← streams.read call.memory handle call.bytes
  .ok (bytesRead string, streams)

/-- What a call should read of a file, and what it should leave. -/
def ReadCall.next (file : Bytes) (call : ReadCall) : Bytes × Bytes :=
  (file.take call.bytes.toNat, file.drop call.bytes.toNat)

/-- The calls that have nothing to read, or read one byte and find storage for it. -/
def ReadCall.Reads (call : ReadCall) (file : Bytes) : Prop :=
  file = [] ∨ call.bytes = 0 ∨ call.bytes = 1 ∧ (call.memory 0).calloc 1 2 = true ∧
    (call.memory 1).calloc 1 (sizeofStringT + 2) = true

namespace StreamVm

variable (conversions : Conversions)

/-- Where `inst_IN` reads, if there is anything to read. -/
def readValue (memory : ℕ → Memory) (handle : ℕ) (n : BitVec 64) (streams : Streams) :
    Outcome (Value × Streams) :=
  if 0 < n then do
    let (str, streams) ← streams.read memory handle n
    let value ← setStringValue (memory 2) str
    .ok (value, streams)
  else .ok (.undefined, streams)

/-- `inst_IN` -/
def inInst (memory : ℕ → Memory) (vm : StreamVm) : Outcome (ℤ × StreamVm) := do
  let (stream, stack) ← vm.stack.vmDsPop (memory 4)
  let handle ← stream.derefReference .stream
  let (len, stack) ← stack.vmDsPop (memory 5)
  let (value, streams) ← readValue memory handle (len.intValue conversions) vm.streams
  let (_, stack) ← stack.vmDsPush (memory 3) value
  .ok (1, ⟨stack, streams⟩)

end StreamVm

/-- A value that says what was read: an undefined one may stand for nothing. -/
def Value.Delivers (value : Value) (bytes : Bytes) : Prop :=
  value = .string bytes ∨ bytes = [] ∧ value = .undefined

variable {memory : ℕ → Memory} {streams : Streams} {handle capacity : ℕ} {bytes : BitVec 64}
  {buf after file left : Bytes} {missing rem p : ℕ} {string : Option StringT} {call : ReadCall}

/-- The first round leaves what is missing behind it, whatever it counts. -/
theorem length_left_le (success : readRounds p buf file rem = .ok (missing, after, left)) :
    left.length ≤ file.length - rem := by
  induction rem generalizing p buf file with
  | zero =>
      cases success
      exact Nat.le_refl _
  | succ rem ih =>
      rcases Outcome.bind_eq_ok.mp success with ⟨⟨count, stored, rest⟩, read, later⟩
      rcases Outcome.bind_eq_ok.mp read with ⟨written, _, result⟩
      cases result
      dsimp only at later
      split at later
      case isTrue =>
        have fewer := ih later
        rw [List.length_drop] at fewer
        omega
      case isFalse =>
        cases later
        rw [List.length_drop]

/-- Where there is nothing to read, nothing is counted. -/
theorem readRounds_nil (within : p ≤ buf.length) (rem : ℕ) :
    readRounds p buf [] rem = .ok (rem, buf, []) := by
  cases rem with
  | zero => rfl
  | succ rem =>
      have stored : Buffer.store buf p [] = .ok buf := by
        rw [Buffer.store_of_le (by simpa using within)]
        simp
      simp [readRounds, fread, stored]

/-- Of two bytes and more too few are counted, unless too many are read. -/
theorem readRounds_short (several : 2 ≤ rem) (some : file ≠ [])
    (success : readRounds 0 buf file rem = .ok (missing, after, left))
    (consumed : left = file.drop rem) : rem - missing < (file.take rem).length := by
  have positive := List.length_pos_iff.mpr some
  rw [List.length_take]
  cases rem with
  | zero => omega
  | succ rem =>
      rcases Outcome.bind_eq_ok.mp success with ⟨⟨count, stored, rest⟩, read, later⟩
      rcases Outcome.bind_eq_ok.mp read with ⟨written, storing, result⟩
      cases result
      dsimp only at later
      by_cases whole : rem + 1 ≤ file.length
      · have item : (if 0 < rem + 1 ∧ rem + 1 ≤ file.length then 1 else 0) = 1 :=
          if_pos ⟨Nat.succ_pos rem, whole⟩
        rw [item, if_pos Nat.one_pos] at later
        have fewer := length_left_le later
        rw [consumed, List.length_drop] at fewer
        have emptied : file.drop (rem + 1) = [] := List.drop_eq_nil_of_le (by omega)
        have inside := (Buffer.store_eq_ok.mp storing).1
        rw [List.length_take] at inside
        have room : 0 + 1 ≤ stored.length := by
          rw [Buffer.length_of_store storing]
          omega
        rw [emptied, readRounds_nil room] at later
        cases later
        omega
      · have item : (if 0 < rem + 1 ∧ rem + 1 ≤ file.length then 1 else 0) = 0 :=
          if_neg fun both => whole both.2
        rw [item, if_neg (Nat.lt_irrefl 0)] at later
        cases later
        omega

/-- What is read is at most what was counted. -/
theorem readBytes_counted (success : readBytes memory bytes file = .ok (string, left)) :
    string = none ∧ left = file ∨ ∃ buf missing after,
      readRounds 0 buf file bytes.toNat = .ok (missing, after, left) ∧
        (bytesRead string).length ≤ bytes.toNat - missing := by
  unfold readBytes at success
  split at success
  case isTrue =>
    rcases Outcome.bind_eq_ok.mp success with ⟨⟨missing, after, rest⟩, rounds, later⟩
    refine Or.inr ⟨List.replicate (sizeAdd bytes.toNat 1) 0, missing, after, ?_⟩
    dsimp only at later
    split at later
    case isTrue =>
      rcases Outcome.bind_eq_ok.mp later with ⟨made, allocated, result⟩
      cases result
      refine ⟨rounds, ?_⟩
      cases string with
      | none => exact Nat.zero_le _
      | some string =>
          have length := (StringT.alloc_eq_ok allocated).2.1
          rw [Option.isSome_some, if_pos rfl] at length
          rw [← length]
          exact List.length_take_le _ _
    case isFalse =>
      cases later
      exact ⟨rounds, Nat.zero_le _⟩
  case isFalse =>
    cases success
    exact Or.inl ⟨rfl, rfl⟩

/-- One byte is read as far as there is storage. -/
theorem readBytes_one (memory : ℕ → Memory) (c : Byte) (rest : Bytes) :
    readBytes memory 1 (c :: rest) =
      if (memory 0).calloc 1 2 then
        .ok (if (memory 1).calloc 1 (sizeofStringT + 2) then some ⟨[c, 0], 1⟩ else none, rest)
      else .ok (none, c :: rest) := by
  have rounds : readRounds 0 [0, 0] (c :: rest) 1 = .ok (0, [c, 0], rest) := rfl
  have made : StringT.alloc (memory 1) 1 (some [c, 0]) =
      .ok (if (memory 1).calloc 1 (sizeofStringT + 2) then some ⟨[c, 0], 1⟩ else none) := by
    have size : nextupow2 1 = 2 := by decide
    simp only [StringT.alloc, size]
    split
    case isTrue => rfl
    case isFalse => rfl
  unfold readBytes
  by_cases granted : (memory 0).calloc 1 2 = true
  · have size : sizeAdd (1 : BitVec 64).toNat 1 = 2 := rfl
    rw [size, if_pos granted, if_pos granted]
    simp [List.replicate, rounds, made]
  · have size : sizeAdd (1 : BitVec 64).toNat 1 = 2 := rfl
    rw [size, if_neg granted, if_neg granted]

/-- With nothing to read there is nothing read. -/
theorem readBytes_nil (memory : ℕ → Memory) (bytes : BitVec 64) :
    readBytes memory bytes [] = .ok (none, []) := by
  unfold readBytes
  split
  case isTrue => simp [readRounds_nil]
  case isFalse => rfl

theorem readBytes_zero (memory : ℕ → Memory) (file : Bytes) :
    readBytes memory 0 file = .ok (none, file) := by
  unfold readBytes
  split
  case isTrue => rfl
  case isFalse => rfl

/-- The next bytes are read exactly where there is nothing to read, or one byte and storage. -/
theorem readBytes_iff :
    (∃ string, readBytes memory bytes file = .ok (string, file.drop bytes.toNat) ∧
      bytesRead string = file.take bytes.toNat) ↔ ReadCall.Reads ⟨memory, bytes⟩ file := by
  unfold ReadCall.Reads
  by_cases empty : file = []
  · subst empty
    refine iff_of_true ⟨none, ?_, ?_⟩ (Or.inl rfl)
    · rw [readBytes_nil, List.drop_nil]
    · rw [List.take_nil]
      rfl
  rw [or_iff_right empty]
  by_cases zero : bytes = 0
  · subst zero
    exact iff_of_true ⟨none, readBytes_zero memory file, rfl⟩ (Or.inl rfl)
  rw [or_iff_right zero]
  by_cases one : bytes = 1
  · subst one
    rw [and_iff_right rfl]
    cases file with
    | nil => exact absurd rfl empty
    | cons c rest =>
        rw [readBytes_one]
        constructor
        · rintro ⟨string, read, holds⟩
          split at read
          case isTrue granted =>
            refine ⟨granted, ?_⟩
            cases read
            by_contra refused
            rw [if_neg refused] at holds
            cases holds
          case isFalse =>
            cases read
        · rintro ⟨buffer, string⟩
          rw [if_pos buffer, if_pos string]
          exact ⟨_, rfl, rfl⟩
  · refine iff_of_false ?_ fun is => one is.1
    rintro ⟨string, read, holds⟩
    have several : 2 ≤ bytes.toNat := by
      have notZero : bytes.toNat ≠ 0 := fun same => zero (BitVec.eq_of_toNat_eq same)
      have notOne : bytes.toNat ≠ 1 := fun same => one (BitVec.eq_of_toNat_eq same)
      omega
    have long := congrArg List.length holds
    rcases readBytes_counted read with ⟨rfl, _⟩ | ⟨buf, missing, after, rounds, counted⟩
    · rw [List.length_take] at long
      have positive := List.length_pos_iff.mpr empty
      simp only [bytesRead, Option.map_none, Option.getD_none, List.length_nil] at long
      omega
    · have short := readRounds_short several empty rounds rfl
      omega

/-- `stream_read` runs its body on what is left of the file. -/
theorem Streams.Readable.read_eq (readable : streams.Readable handle file) (memory : ℕ → Memory)
    (bytes : BitVec 64) :
    streams.read memory handle bytes = (do
      let (string, rest) ← readBytes memory bytes file
      .ok (string, streams.setFile handle rest)) := by
  simp only [Streams.read, Outcome.assertThat_of readable.valid, Outcome.assertThat_of readable.used,
    Outcome.ok_bind, readable.onFile_eq]

/-- What a call that succeeds read, and what it left. -/
theorem Streams.Readable.read_eq_ok {target : Streams} (readable : streams.Readable handle file)
    (success : streams.read memory handle bytes = .ok (string, target))
    (consumed : target.Readable handle left) :
    readBytes memory bytes file = .ok (string, left) := by
  rw [readable.read_eq] at success
  rcases Outcome.bind_eq_ok.mp success with ⟨⟨made, rest⟩, read, result⟩
  cases result
  rw [read, ← (readable.setFile rest).file_eq, consumed.file_eq]

/-- `stream_read` returns the next bytes, and leaves the bytes after them, exactly where its body
does. -/
theorem Streams.Readable.serveRead_iff (readable : streams.Readable handle file)
    (call : ReadCall) :
    (∃ target, streams.serveRead handle call = .ok ((call.next file).1, target) ∧
      target.Readable handle (call.next file).2) ↔ call.Reads file := by
  refine Iff.trans ?_ readBytes_iff
  constructor
  · rintro ⟨target, served, consumed⟩
    rcases Outcome.bind_eq_ok.mp served with ⟨⟨string, reached⟩, read, result⟩
    rw [Except.ok.injEq, Prod.mk.injEq] at result
    rcases result with ⟨same, rfl⟩
    exact ⟨string, readable.read_eq_ok read consumed, same⟩
  · rintro ⟨string, read, same⟩
    refine ⟨streams.setFile handle (call.next file).2, ?_, readable.setFile _⟩
    rw [Streams.serveRead, readable.read_eq, read]
    simp only [Outcome.ok_bind, same, ReadCall.next]

/-- The bytes that calls should read are the first ones of the file, piece by piece. -/
theorem flatten_modelTrace (calls : List ReadCall) (file : Bytes) :
    ((modelTrace ReadCall.next file calls).map Prod.fst).flatten =
      file.take (calls.map fun call => call.bytes.toNat).sum := by
  induction calls generalizing file with
  | nil => rfl
  | cons call calls ih =>
      rw [modelTrace, List.map_cons, List.flatten_cons, ih, List.map_cons, List.sum_cons,
        List.take_add]
      rfl

section Instruction

variable {conversions : Conversions} {vm : StreamVm} {n : BitVec 64} {len : Value}
  {rest : List Value}

/-- What there is to find storage for when `inst_IN` reads a byte: the buffer, the string, and
the copies of it in the scalar and on the stack. -/
def StoresByte (memory : ℕ → Memory) : Prop :=
  (memory 0).calloc 1 2 = true ∧ (memory 1).calloc 1 (sizeofStringT + 2) = true ∧
    (memory 2).calloc 1 (sizeofStringT + 2) = true ∧
      (memory 3).calloc 1 (sizeofStringT + 2) = true

/-- The value is set to a copy of one byte exactly where there is storage for it. -/
theorem setStringValue_one (memory : Memory) (c : Byte) :
    setStringValue memory (some ⟨[c, 0], 1⟩) =
      if memory.calloc 1 (sizeofStringT + 2) then .ok (.string [c]) else .error .nullPointer := by
  have size : nextupow2 1 = 2 := by decide
  simp only [setStringValue, StringT.dup, StringT.alloc, size]
  split
  case isTrue => rfl
  case isFalse => rfl

/-- A string of one byte is copied exactly where there is storage for that. -/
theorem stored_one {memory : Memory} {c : Byte} :
    Stored memory (Value.string [c]) ↔ memory.calloc 1 (sizeofStringT + 2) = true := by
  have size : nextupow2 [c].length = 2 := by
    rw [List.length_singleton]
    decide
  have short : [c].length < 2 ^ 63 := by simp
  rw [stored_string, Memory.Stores, size, and_iff_right short]

/-- A value that was set says what the string says. -/
theorem setStringValue_eq_ok {memory : Memory} {value : Value}
    (success : setStringValue memory string = .ok value) :
    ∃ sval, string = some sval ∧ value = .string sval.contents := by
  cases string with
  | none => cases success
  | some sval =>
      rcases Outcome.bind_eq_ok.mp success with ⟨copied, dup, last⟩
      cases copied with
      | none => cases last
      | some copy =>
          cases last
          exact ⟨sval, rfl, congrArg Value.string (StringT.contents_of_alloc dup)⟩

/-- `inst_IN` reads what it is told to, if that is nothing, or one byte that is there. -/
theorem Streams.Readable.readValue_iff (readable : streams.Readable handle file) :
    (∃ value target, StreamVm.readValue memory handle n streams = .ok (value, target) ∧
      Stored (memory 3) value ∧ target.Readable handle (file.drop n.toNat) ∧
      value.Delivers (file.take n.toNat)) ↔
      n = 0 ∨ n = 1 ∧ file ≠ [] ∧ StoresByte memory := by
  by_cases zero : n = 0
  · subst zero
    exact iff_of_true ⟨.undefined, streams, rfl, stored_undefined, readable, Or.inr ⟨rfl, rfl⟩⟩
      (Or.inl rfl)
  have positive : 0 < n := by
    rw [BitVec.lt_def]
    exact Nat.pos_of_ne_zero fun same => zero (BitVec.eq_of_toNat_eq same)
  rw [or_iff_right zero, StreamVm.readValue, if_pos positive]
  constructor
  · rintro ⟨value, target, success, stored, consumed, delivers⟩
    rcases Outcome.bind_eq_ok.mp success with ⟨⟨str, reached⟩, read, later⟩
    rcases Outcome.bind_eq_ok.mp later with ⟨made, set, result⟩
    cases result
    have body := readable.read_eq_ok read consumed
    rcases setStringValue_eq_ok set with ⟨sval, rfl, rfl⟩
    have holds : bytesRead (some sval) = file.take n.toNat := by
      rcases delivers with same | ⟨_, undefined⟩
      · exact Value.string.inj same
      · cases undefined
    cases file with
    | nil =>
        rw [readBytes_nil] at body
        cases body
    | cons c file =>
        rcases readBytes_iff.mp ⟨_, body, holds⟩ with empty | none | ⟨one, buffer, string⟩
        · cases empty
        · exact absurd none zero
        · dsimp only at one
          subst one
          rw [readBytes_one, if_pos buffer, if_pos string] at body
          cases body
          rw [setStringValue_one] at set
          refine ⟨rfl, List.cons_ne_nil _ _, buffer, string, ?_, stored_one.mp stored⟩
          by_contra refused
          rw [if_neg refused] at set
          cases set
  · rintro ⟨rfl, some, buffer, string, copy, pushed⟩
    cases file with
    | nil => exact absurd rfl some
    | cons c file =>
        refine ⟨.string [c], streams.setFile handle file, ?_, stored_one.mpr pushed,
          readable.setFile file, Or.inl rfl⟩
        rw [readable.read_eq, readBytes_one, if_pos buffer, if_pos string]
        simp only [Outcome.ok_bind, setStringValue_one, if_pos copy]

/-- `inst_IN` leaves on the stack what is to be read, exactly where it reads that. -/
theorem StreamVm.Shows.inInst_iff
    (shows : vm.Shows (.reference .stream handle :: len :: rest) capacity handle file)
    (given : len.intValue conversions = n) :
    (∃ value after, vm.inInst conversions memory = .ok (1, after) ∧
      after.Shows (value :: rest) capacity handle (file.drop n.toNat) ∧
      value.Delivers (file.take n.toNat)) ↔
      Stored (memory 5) len ∧ (n = 0 ∨ n = 1 ∧ file ≠ [] ∧ StoresByte memory) := by
  rcases shows.stack.popReference (memory 4) with ⟨first, popped, shown⟩
  have room := Nat.le_of_succ_le shows.stack.length_le
  rw [← shows.readable.readValue_iff]
  simp only [StreamVm.inInst, popped, Outcome.ok_bind, Value.derefReference_self]
  constructor
  · rintro ⟨value, after, success, left, delivers⟩
    rcases Outcome.bind_eq_ok.mp success with ⟨⟨number, second⟩, counted, later⟩
    rcases shown.pop_eq_ok counted with ⟨stored, _, same, bare⟩
    rw [List.cons.injEq] at same
    rcases same with ⟨rfl, rfl⟩
    simp only [given] at later
    rcases Outcome.bind_eq_ok.mp later with ⟨⟨found, target⟩, read, later⟩
    rcases Outcome.bind_eq_ok.mp later with ⟨⟨_, third⟩, pushed, result⟩
    cases result
    have top := bare.push_within_eq_ok room pushed
    have same := top.contents.symm.trans left.stack.contents
    rw [List.cons.injEq] at same
    rw [← same.1] at delivers
    exact ⟨stored, found, target, read, bare.stored_of_push_within room pushed, left.readable,
      delivers⟩
  · rintro ⟨stored, value, target, read, copied, consumed, delivers⟩
    rcases shown.pop stored with ⟨second, counted, bare⟩
    rcases bare.push_within room copied with ⟨third, pushed, left⟩
    refine ⟨value, ⟨third, target⟩, ?_, ⟨left, consumed⟩, delivers⟩
    simp only [counted, given, read, Outcome.ok_bind, pushed]

/-- Reading a number of bytes returns the next ones exactly where there is nothing to read, or one
byte and storage for it. So it is along a run of calls, whose answers put together are the first
bytes of the stream then. `inst_IN` leaves what it should exactly where it reads one byte that is
there, with storage for the byte and for the number that it pops. -/
theorem counted_reading_iff (readable : streams.Readable handle file) :
    (∀ call : ReadCall, (∃ target,
      streams.serveRead handle call = .ok (file.take call.bytes.toNat, target) ∧
        target.Readable handle (file.drop call.bytes.toNat)) ↔ call.Reads file) ∧
    (∀ calls : List ReadCall, (∃ steps,
      trace (Streams.serveRead handle) streams calls = .ok steps ∧
        List.Forall₂ (fun concrete abstract =>
          concrete.1 = abstract.1 ∧ concrete.2.Readable handle abstract.2)
          steps (modelTrace ReadCall.next file calls) ∧
        (steps.map Prod.fst).flatten = file.take (calls.map fun call => call.bytes.toNat).sum) ↔
      RequestsMeet (fun streams call => call.Reads (streams.items handle).object.file)
        (Streams.serveRead handle) streams calls) ∧
    ∀ (memory : ℕ → Memory) (vm : StreamVm) (capacity : ℕ) (len : Value) (rest : List Value),
      vm.Shows (.reference .stream handle :: len :: rest) capacity handle file →
        ((∃ value after, vm.inInst conversions memory = .ok (1, after) ∧
          after.Shows (value :: rest) capacity handle
            (file.drop (len.intValue conversions).toNat) ∧
          value.Delivers (file.take (len.intValue conversions).toNat)) ↔
            Stored (memory 5) len ∧ (len.intValue conversions = 0 ∨
              len.intValue conversions = 1 ∧ file ≠ [] ∧ StoresByte memory)) := by
  refine ⟨readable.serveRead_iff, ?_, fun _ _ _ _ _ shows => shows.inInst_iff rfl⟩
  intro calls
  have step : ∀ (streams : Streams) (file : Bytes) (call : ReadCall), streams.Readable handle file →
      ((∃ target, streams.serveRead handle call = .ok ((call.next file).1, target) ∧
        target.Readable handle (call.next file).2) ↔
          call.Reads (streams.items handle).object.file) := by
    intro streams file call relates
    rw [relates.file_eq]
    exact relates.serveRead_iff call
  let related : Streams → Bytes → Prop := fun streams file => streams.Readable handle file
  refine Iff.trans ?_ (trace_refines_iff _ related step readable)
  refine exists_congr fun steps => and_congr_right fun _ => and_iff_left_of_imp fun agree => ?_
  rw [map_fst_eq related agree, flatten_modelTrace]

/-- A pool with one stream in it, which is open for reading. -/
def Streams.opened (file : Bytes) : Streams where
  allocatedCount := 1
  count := 1
  freeCount := 0
  items _ := ⟨⟨streamFlagRead, file⟩, 1, none, stateInUse⟩
  freeListHead := 0

theorem Streams.readable_opened (file : Bytes) : (Streams.opened file).Readable 1 file where
  valid := ⟨Nat.one_pos, Nat.le_refl 1⟩
  used := rfl
  unlocked := fun _ none => absurd none (Option.not_mem_none _)
  readable := show streamFlagRead &&& streamFlagRead ≠ 0 by decide
  file_eq := rfl

/-- Reading one byte of two. -/
theorem counted_reading_iff_sample :
    ∃ target, (Streams.opened (ascii "ab")).serveRead 1 ⟨fun _ => .ample, 1⟩ =
        .ok (ascii "a", target) ∧ target.Readable 1 (ascii "b") := by
  have readable := Streams.readable_opened (ascii "ab")
  have all := @counted_reading_iff _ _ _ ⟨id, fun _ => 0⟩ readable
  have reads : ReadCall.Reads ⟨fun _ => .ample, 1⟩ (ascii "ab") :=
    Or.inr (Or.inr ⟨rfl, by decide, by decide⟩)
  exact (all.1 ⟨fun _ => .ample, 1⟩).mpr reads

/-- Of two bytes that are read one is lost. -/
theorem not_counted_reading_pair :
    ¬∃ target, (Streams.opened (ascii "ab")).serveRead 1 ⟨fun _ => .ample, 2⟩ =
        .ok (ascii "ab", target) ∧ target.Readable 1 [] := by
  rintro ⟨target, served, _⟩
  rcases Outcome.bind_eq_ok.mp served with ⟨⟨string, reached⟩, read, result⟩
  have body : readBytes (fun _ => .ample) 2 (ascii "ab") = .ok (some ⟨ascii "a\x00", 1⟩, []) := by
    decide
  rw [(Streams.readable_opened (ascii "ab")).read_eq, body] at read
  cases read
  cases result

end Instruction

end Dang
