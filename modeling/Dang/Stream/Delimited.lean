import Dang.Foundations.Records
import Dang.Stream.Basic

/-!
# Reading up to a delimiter

`getdelim_ext` reads into a buffer that it makes larger while fewer than two bytes are left in it, so
that there is always room for the final zero. A record that reaches `SSIZE_MAX` bytes is read and
given up.
-/

namespace Dang

/-- `SSIZE_MAX` -/
def ssizeMax : ℕ := 2 ^ 63 - 1

/-- What `getdelim_ext` stops at. -/
def Terminates (delimiter : ℤ) (c : Byte) : Prop :=
  (c.val : ℤ) = delimiter ∨ delimiter = delimiterWhitespace ∧ isspace c

instance (delimiter : ℤ) : DecidablePred (Terminates delimiter) :=
  fun _ => inferInstanceAs (Decidable (_ ∨ _))

/-- The buffer of `getdelim_ext` with what it says of it: its size, and the number of bytes read. -/
structure LineBuffer where
  buf : Bytes
  buflen : ℕ
  count : ℕ

variable (memory : Memory) (fresh : ℕ → Byte) (delimiter : ℤ)

/-- What `realloc` makes of a block, and `malloc` of none. Nobody says what the bytes are that it did
not have before. -/
def resize (block : Bytes) (size : ℕ) : Bytes :=
  block.take size ++ (List.range (size - block.length)).map fresh

/-- Where `getdelim_ext` sees to it that there is room for two bytes, if there is storage. -/
def LineBuffer.makeRoom (line : LineBuffer) : Option LineBuffer :=
  if sizeSub line.buflen line.count < 2 then
    let newbuflen := nextupow2 line.buflen
    if memory.calloc 1 newbuflen then
      some { line with buf := resize fresh line.buf newbuflen, buflen := newbuflen }
    else none
  else some line

/-- The loop of `getdelim_ext`: the buffer, and what is left of the stream. -/
def getdelimLoop (line : LineBuffer) : Bytes → Outcome (LineBuffer × Bytes)
  | [] => .ok (line, [])
  | c :: stream =>
      match line.makeRoom memory fresh with
      | none => .ok (line, stream)
      | some line => do
          let buf ← Buffer.store line.buf line.count [c]
          let line : LineBuffer := ⟨buf, line.buflen, line.count + 1⟩
          if Terminates delimiter c ∨ line.count = ssizeMax then .ok (line, stream)
          else getdelimLoop line stream

/-- `getdelim_ext`: the result, `*lineptr` and `*n` afterwards, and what is left of the stream.
`malloc` and `realloc` find storage where `calloc` does. -/
def getdelimExt (lineptr : Option Bytes) (n : ℕ) (stream : Bytes) :
    Outcome (ℤ × Option Bytes × ℕ × Bytes) :=
  let buflen := if n = 0 then 256 else n
  match lineptr.or (if memory.calloc 1 buflen then some (resize fresh [] buflen) else none) with
  | none => .ok (-1, none, n, stream)
  | some buf => do
      let (line, stream) ← getdelimLoop memory fresh delimiter ⟨buf, buflen, 0⟩ stream
      let buf ← Buffer.store line.buf line.count [0]
      .ok (if line.count = 0 ∨ line.count = ssizeMax then -1 else line.count, some buf,
        line.buflen, stream)

/-- The records of calls of `getdelim_ext`, each with a null buffer, until one returns -1. -/
def readRecords (n : ℕ) : ℕ → Bytes → Outcome (List Bytes)
  | 0, _ => .error .outOfFuel
  | fuel + 1, stream => do
      let (len, lineptr, _, stream) ← getdelimExt memory fresh delimiter none n stream
      if len = -1 then .ok []
      else do
        let records ← readRecords n fuel stream
        .ok ((lineptr.getD []).take len.toNat :: records)

/-- No record reaches `SSIZE_MAX` bytes. -/
def RecordsFit (stream : Bytes) : Prop :=
  ∀ start, (firstRecord (Terminates delimiter) (stream.drop start)).length < ssizeMax

section Loop

variable {memory : Memory} {fresh : ℕ → Byte} {delimiter : ℤ} {line : LineBuffer}
  {stream : Bytes}

theorem length_resize (block : Bytes) {size : ℕ} (larger : block.length ≤ size) :
    (resize fresh block size).length = size := by
  rw [resize, List.length_append, List.length_take, List.length_map, List.length_range]
  omega

theorem take_resize (block : Bytes) {size count : ℕ} (larger : block.length ≤ size)
    (within : count ≤ block.length) : (resize fresh block size).take count = block.take count := by
  rw [resize, List.take_of_length_le larger, List.take_append_of_le_length within]

/-- The buffer is as large as it says, and there is room for one more byte in it. -/
structure LineBuffer.Roomy (line : LineBuffer) : Prop where
  size : line.buf.length = line.buflen
  within : line.count < line.buflen
  word : line.buflen < 2 ^ 64

/-- Room for two bytes is there or is made, and what was read is kept. -/
theorem LineBuffer.Roomy.makeRoom (roomy : line.Roomy) (fresh : ℕ → Byte)
    (ample : ∀ size ≤ sizeMax, memory.calloc 1 size = true) (short : line.count < ssizeMax) :
    ∃ next, line.makeRoom memory fresh = some next ∧ next.Roomy ∧ next.count = line.count ∧
      line.count + 1 < next.buflen ∧ next.buf.take line.count = line.buf.take line.count := by
  have size := roomy.size
  have within := roomy.within
  have word := roomy.word
  rw [ssizeMax] at short
  unfold LineBuffer.makeRoom
  rw [sizeSub_eq (Nat.le_of_lt within) word]
  by_cases full : line.buflen - line.count < 2
  · have larger := lt_nextupow2 (show line.buflen < 2 ^ 63 by omega)
    have half := nextupow2_le_half word
    have granted := ample (nextupow2 line.buflen) (by rw [sizeMax]; omega)
    rw [if_pos full, if_pos granted]
    refine ⟨_, rfl, ⟨?_, ?_, ?_⟩, rfl, ?_, ?_⟩
    · exact length_resize line.buf (by omega)
    · dsimp only
      omega
    · dsimp only
      omega
    · dsimp only
      omega
    · exact take_resize line.buf (by omega) (by omega)
  · rw [if_neg full]
    exact ⟨line, rfl, roomy, rfl, by omega, rfl⟩

/-- How many bytes of a record are read into a buffer that so many are in already. -/
def reach (delimiter : ℤ) (count : ℕ) (stream : Bytes) : ℕ :=
  min (firstRecord (Terminates delimiter) stream).length (ssizeMax - count)

/-- The loop reads a record, or as much of it as may be counted. -/
theorem getdelimLoop_of (fresh : ℕ → Byte) (delimiter : ℤ) (stream : Bytes)
    (ample : ∀ size ≤ sizeMax, memory.calloc 1 size = true) (roomy : line.Roomy)
    (short : line.count < ssizeMax) :
    ∃ last, getdelimLoop memory fresh delimiter line stream =
        .ok (last, stream.drop (reach delimiter line.count stream)) ∧ last.Roomy ∧
      last.count = line.count + reach delimiter line.count stream ∧
      last.buf.take last.count =
        line.buf.take line.count ++ stream.take (reach delimiter line.count stream) := by
  induction stream generalizing line with
  | nil => exact ⟨line, rfl, roomy, rfl, by simp [reach]⟩
  | cons c stream ih =>
      rcases roomy.makeRoom fresh ample short with ⟨next, made, nextRoomy, same, room, kept⟩
      have inside : next.count + [c].length ≤ next.buf.length := by
        rw [nextRoomy.size, same, List.length_singleton]
        omega
      have stored := Buffer.store_of_le inside
      generalize next.buf.take next.count ++ [c] ++ next.buf.drop (next.count + [c].length) = buf
        at stored
      have long := Buffer.length_of_store stored
      have holds : buf.take (next.count + 1) = line.buf.take line.count ++ [c] := by
        rw [← kept, ← same]
        exact Buffer.take_of_store stored
      have after : LineBuffer.Roomy ⟨buf, next.buflen, next.count + 1⟩ := by
        refine ⟨long.trans nextRoomy.size, ?_, nextRoomy.word⟩
        dsimp only
        omega
      simp only [getdelimLoop, made, stored, Outcome.ok_bind]
      by_cases stops : Terminates delimiter c ∨ next.count + 1 = ssizeMax
      · have one : reach delimiter line.count (c :: stream) = 1 := by
          unfold reach firstRecord
          split
          case isTrue => simp; omega
          case isFalse other =>
            rw [List.length_cons]
            have last := stops.resolve_left other
            omega
        rw [if_pos stops, one]
        exact ⟨_, rfl, after, by rw [← same], holds⟩
      · rw [if_neg stops]
        rw [not_or] at stops
        have step : reach delimiter line.count (c :: stream) =
            reach delimiter (next.count + 1) stream + 1 := by
          unfold reach
          rw [firstRecord, if_neg stops.1, List.length_cons]
          omega
        rcases ih after (show next.count + 1 < ssizeMax by omega) with
          ⟨last, looped, lastRoomy, count, bytes⟩
        dsimp only at looped count bytes
        refine ⟨last, ?_, lastRoomy, ?_, ?_⟩
        · rw [looped, step]
          rfl
        · rw [count, step]
          omega
        · rw [bytes, step, holds, List.take_succ_cons, List.append_assoc]
          rfl

/-- A call with a null buffer reads a record, or gives up at `SSIZE_MAX` bytes of it. -/
theorem getdelimExt_null (fresh : ℕ → Byte) (delimiter : ℤ) (stream : Bytes)
    (ample : ∀ size ≤ sizeMax, memory.calloc 1 size = true) {n : ℕ} (word : n < 2 ^ 64) :
    ∃ buf buflen, getdelimExt memory fresh delimiter none n stream =
        .ok (if reach delimiter 0 stream = 0 ∨ reach delimiter 0 stream = ssizeMax then -1
          else reach delimiter 0 stream, some buf, buflen,
          stream.drop (reach delimiter 0 stream)) ∧
      buf.take (reach delimiter 0 stream) = stream.take (reach delimiter 0 stream) ∧
      buf[reach delimiter 0 stream]? = some 0 := by
  have bounded : (if n = 0 then 256 else n) < 2 ^ 64 := by split <;> omega
  have positive : 0 < if n = 0 then 256 else n := by split <;> omega
  have granted := ample (if n = 0 then 256 else n) (by rw [sizeMax]; omega)
  have roomy : LineBuffer.Roomy
      ⟨resize fresh [] (if n = 0 then 256 else n), if n = 0 then 256 else n, 0⟩ :=
    ⟨length_resize [] (Nat.zero_le _), positive, bounded⟩
  rcases getdelimLoop_of fresh delimiter stream ample roomy (show 0 < ssizeMax by decide) with
    ⟨last, looped, lastRoomy, count, bytes⟩
  dsimp only at looped count bytes
  rw [Nat.zero_add] at count
  rw [List.take_zero, List.nil_append, count] at bytes
  have inside : last.count + [(0 : Byte)].length ≤ last.buf.length := by
    rw [lastRoomy.size]
    exact lastRoomy.within
  have storing : ∃ written, Buffer.store last.buf last.count [0] = .ok written :=
    ⟨_, Buffer.store_of_le inside⟩
  rcases storing with ⟨written, stored⟩
  have zero := Buffer.getElem?_of_store stored last.count
  rw [if_pos ⟨Nat.le_refl _, Nat.lt_succ_self _⟩, Nat.sub_self, count] at zero
  have kept := Buffer.take_before_store stored
  rw [count] at kept stored
  refine ⟨written, last.buflen, ?_, kept.trans bytes, zero⟩
  simp only [getdelimExt, granted, if_true, Option.none_or, looped, Outcome.ok_bind, count, stored]

/-- A record that fits is read whole. -/
theorem reach_of_fits (fits : (firstRecord (Terminates delimiter) stream).length < ssizeMax) :
    reach delimiter 0 stream = (firstRecord (Terminates delimiter) stream).length :=
  Nat.min_eq_left (Nat.le_of_lt fits)

/-- Reading records until there are none cuts the stream into them. -/
theorem readRecords_of (fresh : ℕ → Byte)
    (ample : ∀ size ≤ sizeMax, memory.calloc 1 size = true) {n : ℕ} (word : n < 2 ^ 64)
    (fits : RecordsFit delimiter stream) {fuel : ℕ} (enough : stream.length < fuel) :
    ∃ records, readRecords memory fresh delimiter n fuel stream = .ok records ∧
      CutInto (Terminates delimiter) stream records := by
  induction fuel generalizing stream with
  | zero => omega
  | succ fuel ih =>
      have whole := reach_of_fits (fits 0)
      rw [List.drop_zero] at whole
      rcases getdelimExt_null fresh delimiter stream ample word with ⟨buf, buflen, read, bytes, _⟩
      rw [whole] at read bytes
      have short : (firstRecord (Terminates delimiter) stream).length ≠ ssizeMax :=
        Nat.ne_of_lt (fits 0)
      simp only [readRecords, read, Outcome.ok_bind]
      by_cases empty : stream = []
      · subst empty
        exact ⟨[], rfl, CutInto.nil _⟩
      · have nonempty : firstRecord (Terminates delimiter) stream ≠ [] := firstRecord_ne_nil empty
        have some := List.length_pos_iff.mpr nonempty
        have shorter : (afterRecord (Terminates delimiter) stream).length < stream.length :=
          length_afterRecord_lt empty
        have later : RecordsFit delimiter (afterRecord (Terminates delimiter) stream) := by
          intro start
          rw [afterRecord_eq_drop, List.drop_drop]
          exact fits _
        rcases ih later (by omega) with ⟨records, others, cut⟩
        refine ⟨_, ?_, CutInto.cons empty cut⟩
        have counted : ¬(firstRecord (Terminates delimiter) stream).length = 0 := by omega
        rw [← afterRecord_eq_drop, others, if_neg (not_or.mpr ⟨counted, short⟩), if_neg (by omega),
          Outcome.ok_bind, Option.getD_some, Int.toNat_natCast, bytes, take_length_firstRecord]

end Loop

section Instruction

variable (conversions : Conversions)

/-- `stream_read_delim` -/
def Streams.readDelim (memory : ℕ → Memory) (fresh : ℕ → Byte) (handle : ℕ) (delimiter : ℤ)
    (streams : Streams) : Outcome (Option StringT × Streams) :=
  streams.onFile handle fun file => do
    let (len, buf, _, file) ← getdelimExt (memory 0) fresh delimiter none 0 file
    if 0 < len then do
      let string ← StringT.alloc (memory 1) len.toNat buf
      .ok (string, file)
    else .ok (none, file)

/-- Where `inst_INL` sets the value, unless nothing was read. -/
def setLine (memory : Memory) (str : Option StringT) : Outcome Value :=
  if str.isSome then setStringValue memory str else .ok .undefined

/-- `inst_INL` -/
def StreamVm.inl (memory : ℕ → Memory) (fresh : ℕ → Byte) (vm : StreamVm) :
    Outcome (ℤ × StreamVm) := do
  let (stream, stack) ← vm.stack.vmDsPop (memory 4)
  let handle ← stream.derefReference .stream
  let (delimiter, stack) ← stack.vmDsPop (memory 5)
  let (str, streams) ← vm.streams.readDelim memory fresh handle
    (intOfSize (delimiter.intValue conversions).toNat)
  let value ← setLine (memory 2) str
  let (_, stack) ← stack.vmDsPush (memory 3) value
  .ok (1, ⟨stack, streams⟩)

/-- What `inst_INL` leaves for a stream. -/
def nextRecord (delimiter : ℤ) (stream : Bytes) : Value :=
  if stream = [] then .undefined else .string (firstRecord (Terminates delimiter) stream)

end Instruction

section Instruction

variable {conversions : Conversions} {memory : ℕ → Memory} {streams : Streams} {vm : StreamVm}
  {handle capacity : ℕ} {file : Bytes} {delimiter : ℤ} {value : Value} {rest : List Value}

/-- Where every `calloc` up to `SIZE_MAX` bytes finds storage, a string is copied. -/
theorem setStringValue_of {memory : Memory} {string : StringT} {bytes : Bytes}
    (ample : ∀ size ≤ sizeMax, memory.calloc 1 size = true) (holds : string.Holds bytes)
    (small : bytes.length < 2 ^ 63) :
    setStringValue memory (some string) = .ok (.string bytes) := by
  simp only [setStringValue, StringT.dup_eq holds, StringT.alloc_of_ample ample small,
    Outcome.ok_bind, StringT.contents_append]

/-- So is what `inst_INL` pushes. -/
theorem stored_nextRecord {memory : Memory} {stream : Bytes}
    (ample : ∀ size ≤ sizeMax, memory.calloc 1 size = true)
    (fits : RecordsFit delimiter stream) : Stored memory (nextRecord delimiter stream) := by
  have fit := fits 0
  rw [List.drop_zero, ssizeMax] at fit
  unfold nextRecord
  split
  case isTrue => exact stored_undefined
  case isFalse => exact stored_string.mpr (Memory.stores_of_ample ample (by omega))

/-- `stream_read_delim` makes the next record a string, if there is one. -/
theorem Streams.Readable.readDelim (fresh : ℕ → Byte)
    (ample : ∀ i, ∀ size ≤ sizeMax, (memory i).calloc 1 size = true)
    (readable : streams.Readable handle file) (fits : RecordsFit delimiter file) :
    ∃ str, streams.readDelim memory fresh handle delimiter =
        .ok (str, streams.setFile handle (afterRecord (Terminates delimiter) file)) ∧
      (file = [] ∧ str = none ∨ file ≠ [] ∧ ∃ string, str = some string ∧
        string.Holds (firstRecord (Terminates delimiter) file)) := by
  have fit := fits 0
  have whole := reach_of_fits fit
  rw [List.drop_zero] at fit whole
  have word : 0 < 2 ^ 64 := by decide
  rcases getdelimExt_null fresh delimiter file (ample 0) word with ⟨buf, buflen, read, bytes, _⟩
  rw [whole] at read bytes
  rw [take_length_firstRecord] at bytes
  rw [Streams.readDelim, readable.onFile_eq]
  simp only [read, Outcome.ok_bind, ← afterRecord_eq_drop]
  by_cases empty : file = []
  · subst empty
    exact ⟨none, rfl, Or.inl ⟨rfl, rfl⟩⟩
  · have nonempty : firstRecord (Terminates delimiter) file ≠ [] := firstRecord_ne_nil empty
    have some := List.length_pos_iff.mpr nonempty
    have small : (firstRecord (Terminates delimiter) file).length < 2 ^ 63 := by
      rw [ssizeMax] at fit
      omega
    have counted : ¬((firstRecord (Terminates delimiter) file).length = 0 ∨
        (firstRecord (Terminates delimiter) file).length = ssizeMax) := by omega
    have made := (StringT.alloc_prefix bytes).trans (StringT.alloc_of_ample (ample 1) small)
    refine ⟨_, ?_, Or.inr ⟨empty, _, rfl, StringT.holds_alloc small⟩⟩
    rw [if_neg counted, if_pos (by omega), Int.toNat_natCast, made]
    rfl

/-- `inst_INL` leaves the next record, or an undefined value at the end of the stream. -/
theorem StreamVm.Shows.inl (fresh : ℕ → Byte)
    (ample : ∀ i, ∀ size ≤ sizeMax, (memory i).calloc 1 size = true)
    (shows : vm.Shows (.reference .stream handle :: value :: rest) capacity handle file)
    (stored : Stored (memory 5) value)
    (delimits : intOfSize (value.intValue conversions).toNat = delimiter)
    (fits : RecordsFit delimiter file) :
    ∃ after, vm.inl conversions memory fresh = .ok (1, after) ∧
      after.Shows (nextRecord delimiter file :: rest) capacity handle
        (afterRecord (Terminates delimiter) file) := by
  rcases shows.stack.popReference (memory 4) with ⟨first, popped, shown⟩
  rcases shown.pop stored with ⟨second, delimited, bare⟩
  rcases shows.readable.readDelim fresh ample fits with ⟨str, read, result⟩
  have set : setLine (memory 2) str = .ok (nextRecord delimiter file) := by
    unfold nextRecord
    rcases result with ⟨empty, rfl⟩ | ⟨some, string, rfl, holds⟩
    · rw [if_pos empty]
      rfl
    · have fit := fits 0
      rw [List.drop_zero, ssizeMax] at fit
      rw [if_neg some]
      exact setStringValue_of (ample 2) holds (by omega)
  rcases bare.push_within (Nat.le_of_succ_le shows.stack.length_le)
    (stored_nextRecord (ample 3) fits) with ⟨third, pushed, left⟩
  refine ⟨⟨third, vm.streams.setFile handle (afterRecord (Terminates delimiter) file)⟩, ?_, left,
    shows.readable.setFile _⟩
  simp only [StreamVm.inl, popped, Outcome.ok_bind, Value.derefReference_self, delimited, delimits,
    read, set, pushed]

/-- Reading up to a delimiter until there is nothing left cuts a stream into its records, whatever
size is given with the null buffer, and each `inst_INL` leaves the next one of them. -/
theorem delimited_reading (fresh : ℕ → Byte)
    (ample : ∀ i, ∀ size ≤ sizeMax, (memory i).calloc 1 size = true)
    (fits : RecordsFit delimiter file) :
    (∀ n < 2 ^ 64, ∀ fuel > file.length, ∃ records,
      readRecords (memory 0) fresh delimiter n fuel file = .ok records ∧
        CutInto (Terminates delimiter) file records) ∧
      ∀ (vm : StreamVm) (handle capacity : ℕ) (value : Value) (rest : List Value),
        vm.Shows (.reference .stream handle :: value :: rest) capacity handle file →
        Stored (memory 5) value →
        intOfSize (value.intValue conversions).toNat = delimiter →
          ∃ after, vm.inl conversions memory fresh = .ok (1, after) ∧
            after.Shows (nextRecord delimiter file :: rest) capacity handle
              (afterRecord (Terminates delimiter) file) := by
  constructor
  · intro n word fuel enough
    exact readRecords_of fresh (ample 0) word fits enough
  · intro vm handle capacity value rest shows stored delimits
    exact shows.inl fresh ample stored delimits fits

/-- The records of a stream that is short enough fit. -/
theorem recordsFit_of_short (short : file.length < ssizeMax) : RecordsFit delimiter file := by
  intro start
  have split : (firstRecord (Terminates delimiter) (file.drop start) ++
      afterRecord (Terminates delimiter) (file.drop start)).length = (file.drop start).length := by
    rw [firstRecord_append_afterRecord]
  rw [List.length_append, List.length_drop] at split
  omega

theorem delimited_reading_sample :
    ∃ records, readRecords .ample (fun _ => 0) 10 0 6 (ascii "ab\ncd") = .ok records ∧
      CutInto (Terminates 10) (ascii "ab\ncd") records := by
  have ample : ∀ _ : ℕ, ∀ size ≤ sizeMax, Memory.ample.calloc 1 size = true :=
    fun _ => StringT.calloc_of_ample
  have fits : RecordsFit 10 (ascii "ab\ncd") := recordsFit_of_short (by decide)
  have all := @delimited_reading ⟨id, fun _ => 0⟩ _ _ 10 (fun _ => 0) ample fits
  exact all.1 0 (by decide) 6 (by decide)

/-- A record of `SSIZE_MAX` bytes is lost. -/
theorem not_cut_long :
    ¬∃ fuel records, readRecords .ample (fun _ => 0) 10 0 fuel (List.replicate ssizeMax 97) =
        .ok records ∧ CutInto (Terminates 10) (List.replicate ssizeMax 97) records := by
  rintro ⟨fuel, records, read, cut⟩
  cases fuel with
  | zero => cases read
  | succ fuel =>
      have whole : firstRecord (Terminates 10) (List.replicate ssizeMax (97 : Byte)) =
          List.replicate ssizeMax 97 := by
        apply firstRecord_eq_self
        intro byte mem
        rw [List.eq_of_mem_replicate mem]
        decide
      have reached : reach 10 0 (List.replicate ssizeMax 97) = ssizeMax := by
        rw [reach, whole, List.length_replicate]
        exact Nat.min_self ssizeMax
      have word : 0 < 2 ^ 64 := by decide
      rcases getdelimExt_null (fun _ => 0) 10 (List.replicate ssizeMax 97)
        StringT.calloc_of_ample word with ⟨buf, buflen, lost, _⟩
      rw [reached, if_pos (Or.inr rfl)] at lost
      simp only [readRecords, lost, Outcome.ok_bind, if_true] at read
      cases read
      have length := congrArg List.length cut.flatten_eq
      rw [List.length_replicate] at length
      exact absurd length (by decide)

end Instruction

end Dang
