import Dang.Machine.Concat
import Dang.Pool.Operations

/-!
# Streams that are read

The streams of `stream.c` that are open for reading, each by the bytes that are left to read of its
file. Reading never fails but at the end of the file.
-/

namespace Dang

/-- `STREAM_FLAG_READ` -/
def streamFlagRead : Flags32 := 0x10

/-- `stream_t`, with what is left to read of `m_file`. -/
structure FileStream where
  flags : Flags32
  file : Bytes

/-- The pool of streams. -/
abbrev Streams := Pool FileStream

namespace Streams

/-- The streams after one of them was read up to what is left. -/
def setFile (streams : Streams) (handle : ℕ) (file : Bytes) : Streams :=
  streams.update handle fun wrapper => { wrapper with object := ⟨wrapper.object.flags, file⟩ }

/-- What `stream_read` and `stream_read_delim` do around their bodies. They return a null pointer
when the stream cannot be locked. -/
def onFile (streams : Streams) (handle : ℕ)
    (body : Bytes → Outcome (Option StringT × Bytes)) : Outcome (Option StringT × Streams) := do
  Outcome.assertThat (streams.HandleValid handle)
  let (status, streams) ← streams.lock handle
  if status = 0 then
    Outcome.assertThat (streams.HandleInUse handle)
    Outcome.assertThat ((streams.items handle).object.flags &&& streamFlagRead ≠ 0)
    let (string, file) ← body (streams.items handle).object.file
    let streams ← (setFile streams handle file).unlock handle
    .ok (string, streams)
  else
    .ok (none, streams)

/-- The stream is in use, not locked and open for reading, and these bytes are left to read. -/
structure Readable (streams : Streams) (handle : ℕ) (file : Bytes) : Prop where
  valid : streams.HandleValid handle
  used : streams.HandleInUse handle
  unlocked : ∀ mutex ∈ (streams.items handle).mutex, mutex.depth = 0
  readable : (streams.items handle).object.flags &&& streamFlagRead ≠ 0
  file_eq : (streams.items handle).object.file = file

variable {streams : Streams} {handle : ℕ} {file rest : Bytes}

/-- A stream that was read can be read from there on. -/
theorem Readable.setFile (readable : streams.Readable handle file) (rest : Bytes) :
    (streams.setFile handle rest).Readable handle rest where
  valid := readable.valid
  used := by simpa [Streams.setFile, Pool.HandleInUse, Pool.items_update] using readable.used
  unlocked := by simpa [Streams.setFile, Pool.items_update] using readable.unlocked
  readable := by simpa [Streams.setFile, Pool.items_update] using readable.readable
  file_eq := by simp [Streams.setFile, Pool.items_update]

/-- A function on a stream runs its body on what is left of the file. -/
theorem Readable.onFile_eq (readable : streams.Readable handle file)
    (body : Bytes → Outcome (Option StringT × Bytes)) :
    streams.onFile handle body = (do
      let (string, rest) ← body file
      .ok (string, streams.setFile handle rest)) := by
  have locked := Pool.lock_of_unlocked readable.valid readable.used readable.unlocked
  rcases Pool.lock_cases locked with ⟨_, _, failed | ⟨_, _, undone⟩⟩
  · exact absurd rfl failed.1
  have stillUsed : (streams.update handle Pool.lockItem).HandleInUse handle := by
    simpa [Pool.HandleInUse, Pool.items_update, Pool.lockItem] using readable.used
  have object : ((streams.update handle Pool.lockItem).items handle).object =
      (streams.items handle).object := by
    simp [Pool.items_update, Pool.lockItem]
  simp only [onFile, Outcome.assertThat_of readable.valid, locked, Outcome.ok_bind, if_true,
    Outcome.assertThat_of stillUsed, object, Outcome.assertThat_of readable.readable,
    readable.file_eq]
  cases body file with
  | error fault => rfl
  | ok answer =>
      have inUse : (Streams.setFile (streams.update handle Pool.lockItem) handle
          answer.2).HandleInUse handle := by
        simpa [Streams.setFile, Pool.HandleInUse, Pool.items_update, Pool.lockItem]
          using readable.used
      have inPool : (Streams.setFile (streams.update handle Pool.lockItem) handle
          answer.2).HandleValid handle := readable.valid
      simp only [Outcome.ok_bind, Pool.unlock_of inPool inUse]
      simp [Streams.setFile, Pool.update, Pool.lockItem, undone]

end Streams

/-- `anon_scalar_set_string_value`: the value of the scalar, which a copy of the string goes into. -/
def setStringValue (memory : Memory) : Option StringT → Outcome Value
  | none => .error .assertion
  | some sval => do
      match ← sval.dup memory with
      | none => .error .nullPointer
      | some copy => .ok (.string copy.contents)

/-- The data stack of a context and the streams. -/
structure StreamVm where
  stack : ValueStack
  streams : Streams

/-- The values on the stack and the bytes that are left to read of a stream. -/
structure StreamVm.Shows (vm : StreamVm) (contents : List Value) (capacity handle : ℕ)
    (file : Bytes) : Prop where
  stack : vm.stack.Shows contents capacity
  readable : vm.streams.Readable handle file

end Dang
