import Dang.Channel.Destroy
import Dang.Channel.Fifo
import Dang.Foundations.Program
import Dang.StringBuffer

/-!
# What a write queues

`channel_write` clones the value into the slot behind the queue while it holds the lock of the
channel. The clone destroys what the slot still holds, an item that was read, and takes another
reference to the object that the value refers to. That object may be the channel itself, whose
mutex cannot be locked again.
-/

namespace Dang

/-- A pooled object in use. -/
structure CountedObject where
  references : ℕ
  positive : 0 < references
  mutex : Option Mutex
  /-- What the destructor gives back, in order; a channel's is settled by its slots. -/
  held : List Owned

/-- The strings in storage, the pooled objects in use, and `channel_t` of each channel. -/
structure CountedStore where
  strings : Finmap fun _ : ℕ => Bytes
  objects : Finmap fun _ : ReferenceKind × ℕ => CountedObject
  channels : ℕ → Channel

namespace CountedObject

/-- What locking the object returns. -/
def lockStatus (object : CountedObject) : ℤ :=
  match object.mutex with
  | some mutex => mutex.lock.1
  | none => 0

/-- The object after it was locked. -/
def lock (object : CountedObject) : CountedObject :=
  { object with mutex := object.mutex.map fun mutex => mutex.lock.2 }

/-- The object after it was unlocked. -/
def unlock (object : CountedObject) : CountedObject :=
  { object with mutex := object.mutex.map Mutex.unlock }

/-- The object with one more reference. -/
def reference (object : CountedObject) : CountedObject :=
  { object with
    references := object.references + 1
    positive := Nat.succ_pos _ }

/-- The object with one reference less, of several. -/
def release (object : CountedObject) (several : object.references ≠ 1) : CountedObject :=
  { object with
    references := object.references - 1
    positive := by
      have positive := object.positive
      omega }

end CountedObject

namespace Channel

/-- The channel with one more item. -/
def append (channel : Channel) (new : Scalar) : Channel :=
  { channel with
    items := Function.update channel.items channel.nextSlot new
    count := channel.count + 1 }

end Channel

namespace CountedStore

/-- The storage with another object. -/
def put (store : CountedStore) (pooled : ReferenceKind × ℕ) (object : CountedObject) :
    CountedStore :=
  { store with objects := store.objects.insert pooled object }

/-- The storage without an object. -/
def remove (store : CountedStore) (pooled : ReferenceKind × ℕ) : CountedStore :=
  { store with objects := store.objects.erase pooled }

/-- What the destructor of an object gives back. -/
def destroyed (store : CountedStore) (pooled : ReferenceKind × ℕ) (object : CountedObject) :
    Outcome (List Owned) :=
  match pooled.1 with
  | .channel => do
      let result ← (store.channels pooled.2).destroy
      .ok result.destroyed
  | _ => .ok object.held

/-- What is given back: a string to `string_free`, a reference to `POOL_RELEASE`. An object that
is reached again from its destructor is refused by its mutex, or destroyed over and over. -/
def giveBack : ℕ → Owned → Program CountedStore Unit
  | 0, _ => fun _ => .error .outOfFuel
  | fuel + 1, unit => fun store =>
      match unit with
      | .string address =>
          if (store.strings.lookup address).isSome then
            .ok ((), { store with strings := store.strings.erase address })
          else .error .invalidAccess
      | .reference kind handle =>
          match store.objects.lookup (kind, handle) with
          | none => .error .assertion
          | some object =>
              if object.lockStatus ≠ 0 then .ok ((), store)
              else if single : object.references = 1 then do
                let held ← store.destroyed (kind, handle) object
                let (_, store) ← Program.forEach (giveBack fuel) held
                  (store.put (kind, handle) object.lock)
                .ok ((), store.remove (kind, handle))
              else
                .ok ((), store.put (kind, handle) (object.release single))

/-- `anon_scalar_destroy` -/
def destroy (fuel : ℕ) (self : Scalar) : Program CountedStore Unit := fun store => do
  let units ← self.destroy
  Program.forEach (giveBack fuel) units store

/-- `POOL_REFERENCE` -/
def reference (kind : ReferenceKind) (handle : ℕ) : Program CountedStore ℕ := fun store => do
  Outcome.assertThat (0 < handle)
  match store.objects.lookup (kind, handle) with
  | none => .error .assertion
  | some object =>
      if object.lockStatus = 0 then .ok (handle, store.put (kind, handle) object.reference)
      else .ok (0, store)

section Library

variable (memory : Memory) (allocator : Allocator) (time : ℕ)

/-- `string_dup`, which makes its one call to `calloc` at a time. -/
def stringDup (orig : ℕ) : Program CountedStore ℕ := fun store =>
  match store.strings.lookup orig with
  | none => .error .invalidAccess
  | some bytes => do
      match ← StringT.alloc memory bytes.length (some bytes) with
      | none => .ok (0, store)
      | some string =>
          let address := allocator.place time store.strings.keys
          .ok (address, { store with strings := store.strings.insert address string.contents })

/-- The part of `anon_scalar_clone` that sets the copy up. -/
def copy : Scalar → Program CountedStore Scalar
  | .string address => do
      let address ← stringDup memory allocator time address
      pure (.string address)
  | .reference kind handle => do
      let handle ← reference kind handle
      pure (.reference kind handle)
  | other => pure other

/-- The channel gets its item, and is unlocked. -/
def enqueue (handle : ℕ) (new : Scalar) : Program CountedStore ℤ := fun store =>
  match store.objects.lookup (.channel, handle) with
  | none => .error .invalidAccess
  | some object =>
      .ok (0,
        { store.put (.channel, handle) object.unlock with
          channels := Function.update store.channels handle
            ((store.channels handle).append new) })

/-- `channel_write` on a channel that need not wait for space. -/
def write (fuel handle : ℕ) (value : Scalar) : Program CountedStore ℤ := fun store =>
  match store.objects.lookup (.channel, handle) with
  | none => .error .assertion
  | some object =>
      let channel := store.channels handle
      if object.lockStatus ≠ 0 then .ok (-1, store)
      else if channel.allocatedCount ≤ channel.count then .error .outOfFuel
      else do
        let old ← channel.item channel.nextSlot
        let (_, store) ← destroy fuel old (store.put (.channel, handle) object.lock)
        let (new, store) ← copy memory allocator time value store
        enqueue handle new store

end Library

/-- The value of a scalar whose string or object is in use. -/
def value (store : CountedStore) : Scalar → Option Value
  | .undefined => some .undefined
  | .int number => some (.int number)
  | .float bits => some (.float bits)
  | .function handle => some (.function handle)
  | .string address => if 0 < address then (store.strings.lookup address).map .string else none
  | .reference kind handle =>
      if 0 < handle ∧ (store.objects.lookup (kind, handle)).isSome then
        some (.reference kind handle)
      else none

/-- How many references to an object are counted. -/
def references (store : CountedStore) (kind : ReferenceKind) (handle : ℕ) : ℕ :=
  ((store.objects.lookup (kind, handle)).map CountedObject.references).getD 0

/-- The storage while the channel is locked. -/
def locked (store : CountedStore) (handle : ℕ) (object : CountedObject) : CountedStore :=
  store.put (.channel, handle) object.lock

/-- A unit is there as before: the string with its bytes, the object with its references. -/
def Same (before after : CountedStore) : Owned → Prop
  | .string address => after.strings.lookup address = before.strings.lookup address
  | .reference kind handle => after.references kind handle = before.references kind handle

/-- What the slot behind the queue still holds can be destroyed, and the channel and what the
value refers to remain. -/
def Clears (store : CountedStore) (handle : ℕ) (object : CountedObject) (value : Scalar) : Prop :=
  ∃ fuel middle, destroy fuel ((store.channels handle).items (store.channels handle).nextSlot)
      (store.locked handle object) = .ok ((), middle) ∧
    (middle.objects.lookup (.channel, handle)).isSome ∧
    ∀ unit ∈ value.owned, Same store middle unit

/-- What the value refers to can be copied while the channel is locked. -/
def CanCopy (memory : Memory) (store : CountedStore) (handle : ℕ) : Scalar → Prop
  | .string address => ∀ bytes ∈ store.strings.lookup address, bytes.length < 2 ^ 63 ∧
      memory.calloc 1 (sizeofStringT + nextupow2 bytes.length) = true
  | .reference kind other => ∀ object ∈ store.objects.lookup (kind, other),
      object.lockStatus = 0 ∧ ((kind, other) = (.channel, handle) → object.mutex = none)
  | _ => True

/-- `channel_write` returns zero and queues a scalar with the value it was given, and the
references to the object it refers to have grown by one. -/
def Queues (memory : Memory) (allocator : Allocator) (time : ℕ) (store : CountedStore)
    (handle : ℕ) (value : Scalar) : Prop :=
  ∃ fuel after new, write memory allocator time fuel handle value store = .ok (0, after) ∧
    (after.channels handle).contents = (store.channels handle).contents ++ [new] ∧
    after.value new = store.value value ∧
    ∀ kind other, value = .reference kind other →
      after.references kind other = store.references kind other + 1

variable {memory : Memory} {allocator : Allocator} {time : ℕ} {store before middle after : CountedStore}
  {object : CountedObject} {fuel handle : ℕ} {value new : Scalar} {unit : Owned}

@[simp]
theorem lookup_put (store : CountedStore) (pooled : ReferenceKind × ℕ) (object : CountedObject) :
    (store.put pooled object).objects.lookup pooled = some object :=
  Finmap.lookup_insert _

@[simp]
theorem lookup_put_of_ne {pooled other : ReferenceKind × ℕ} (store : CountedStore)
    (object : CountedObject) (apart : other ≠ pooled) :
    (store.put pooled object).objects.lookup other = store.objects.lookup other :=
  Finmap.lookup_insert_of_ne _ apart

/-- Objects keep their mutexes, and channels what is in them. -/
structure Remains (before after : CountedStore) : Prop where
  mutex : ∀ pooled object, after.objects.lookup pooled = some object →
    ∃ old, before.objects.lookup pooled = some old ∧ object.mutex = old.mutex
  channels : after.channels = before.channels

theorem Remains.refl (store : CountedStore) : Remains store store where
  mutex _ object there := ⟨object, there, rfl⟩
  channels := rfl

theorem Remains.trans (first : Remains before middle) (second : Remains middle after) :
    Remains before after where
  mutex pooled object there := by
    rcases second.mutex pooled object there with ⟨between, thereBetween, same⟩
    rcases first.mutex pooled between thereBetween with ⟨old, thereOld, same'⟩
    exact ⟨old, thereOld, same.trans same'⟩
  channels := second.channels.trans first.channels

theorem remains_put {pooled : ReferenceKind × ℕ} {new : CountedObject}
    (there : store.objects.lookup pooled = some object) (same : new.mutex = object.mutex) :
    Remains store (store.put pooled new) where
  mutex other changed found := by
    by_cases here : other = pooled
    · rw [here, lookup_put] at found
      cases found
      exact ⟨object, here ▸ there, same⟩
    · rw [lookup_put_of_ne store new here] at found
      exact ⟨changed, found, rfl⟩
  channels := rfl

theorem forEach_remains {body : Owned → Program CountedStore Unit} {units : List Owned}
    (each : ∀ unit {source target}, body unit source = .ok ((), target) → Remains source target)
    (success : Program.forEach body units before = .ok ((), after)) : Remains before after := by
  induction units generalizing before with
  | nil =>
      rcases Program.pure_eq_ok.mp success with ⟨_, rfl⟩
      exact Remains.refl before
  | cons unit rest ih =>
      rcases Program.bind_eq_ok.mp success with ⟨_, middle, here, later⟩
      exact (each unit here).trans (ih later)

/-- Giving something back only takes objects away and changes counts. -/
theorem giveBack_remains (success : giveBack fuel unit before = .ok ((), after)) :
    Remains before after := by
  induction fuel generalizing unit before after with
  | zero => cases success
  | succ fuel ih =>
      cases unit with
      | string address =>
          simp only [giveBack] at success
          split at success
          case isTrue =>
            cases success
            exact ⟨fun _ object there => ⟨object, there, rfl⟩, rfl⟩
          case isFalse => cases success
      | reference kind handle =>
          simp only [giveBack] at success
          cases found : before.objects.lookup (kind, handle) with
          | none => simp [found] at success
          | some object =>
              simp only [found] at success
              split at success
              case isTrue =>
                cases success
                exact Remains.refl before
              split at success
              case isTrue =>
                rcases Outcome.bind_eq_ok.mp success with ⟨held, _, later⟩
                rcases Outcome.bind_eq_ok.mp later with ⟨⟨_, inner⟩, gave, result⟩
                cases result
                have remains := forEach_remains (fun _ _ _ => ih) gave
                refine ⟨?_, remains.channels⟩
                intro other changed there
                have apart : other ≠ (kind, handle) := by
                  rintro rfl
                  simp [remove] at there
                rw [remove, Finmap.lookup_erase_ne apart] at there
                rcases remains.mutex other changed there with ⟨old, thereOld, same⟩
                rw [lookup_put_of_ne before _ apart] at thereOld
                exact ⟨old, thereOld, same⟩
              case isFalse =>
                cases success
                exact remains_put found rfl

theorem destroy_remains {self : Scalar} (success : destroy fuel self before = .ok ((), after)) :
    Remains before after := by
  rcases Outcome.bind_eq_ok.mp success with ⟨units, _, gave⟩
  exact forEach_remains (fun _ _ _ => giveBack_remains) gave

theorem references_of {kind : ReferenceKind} {other : ℕ}
    (there : store.objects.lookup (kind, other) = some object) :
    store.references kind other = object.references := by
  rw [references, there]
  rfl

/-- An object that is in use stays so with other book-keeping. -/
theorem value_put {pooled : ReferenceKind × ℕ} (there : (store.objects.lookup pooled).isSome)
    (new : CountedObject) (scalar : Scalar) :
    (store.put pooled new).value scalar = store.value scalar := by
  cases scalar with
  | reference kind other =>
      by_cases here : (kind, other) = pooled
      · subst here
        simp [value, there]
      · simp [value, here]
  | undefined => rfl
  | int number => rfl
  | float bits => rfl
  | function handle => rfl
  | string address => rfl

theorem references_put {pooled : ReferenceKind × ℕ}
    (there : store.objects.lookup pooled = some object) (new : CountedObject)
    (same : new.references = object.references) (kind : ReferenceKind) (other : ℕ) :
    (store.put pooled new).references kind other = store.references kind other := by
  by_cases here : (kind, other) = pooled
  · subst here
    simp [references, there, same]
  · simp [references, here]

/-- What the value of a scalar tells about what it refers to. -/
theorem value_string_eq_some {address : ℕ} {denoted : Value}
    (known : store.value (.string address) = some denoted) :
    0 < address ∧ ∃ bytes, store.strings.lookup address = some bytes := by
  simp only [value] at known
  split at known
  case isTrue positive =>
    rcases Option.map_eq_some_iff.mp known with ⟨bytes, there, _⟩
    exact ⟨positive, bytes, there⟩
  case isFalse => cases known

theorem value_reference_eq_some {kind : ReferenceKind} {other : ℕ} {denoted : Value}
    (known : store.value (.reference kind other) = some denoted) :
    0 < other ∧ ∃ object, store.objects.lookup (kind, other) = some object := by
  simp only [value] at known
  split at known
  case isTrue valid => exact ⟨valid.1, Option.isSome_iff_exists.mp valid.2⟩
  case isFalse => cases known

/-- What is left of `channel_write` once it has the lock and space. -/
theorem write_eq_ok (found : store.objects.lookup (.channel, handle) = some object)
    (free : object.lockStatus = 0)
    (space : (store.channels handle).count < (store.channels handle).allocatedCount) :
    write memory allocator time fuel handle value store = .ok (0, after) ↔
      ∃ middle new last,
        destroy fuel ((store.channels handle).items (store.channels handle).nextSlot)
          (store.locked handle object) = .ok ((), middle) ∧
        copy memory allocator time value middle = .ok (new, last) ∧
        enqueue handle new last = .ok (0, after) := by
  have inside : (store.channels handle).item (store.channels handle).nextSlot =
      .ok ((store.channels handle).items (store.channels handle).nextSlot) :=
    if_pos (Nat.mod_lt _ (Nat.zero_lt_of_lt space))
  simp only [write, found, free, ne_eq, not_true_eq_false, if_false,
    if_neg (Nat.not_le.mpr space), inside]
  constructor
  · intro success
    rcases Outcome.bind_eq_ok.mp success with ⟨old, same, success⟩
    cases same
    rcases Outcome.bind_eq_ok.mp success with ⟨⟨_, middle⟩, destroys, later⟩
    rcases Outcome.bind_eq_ok.mp later with ⟨⟨new, last⟩, copies, queued⟩
    exact ⟨middle, new, last, destroys, copies, queued⟩
  · rintro ⟨middle, new, last, destroys, copies, queued⟩
    refine Outcome.bind_eq_ok.mpr ⟨_, rfl, ?_⟩
    refine Outcome.bind_eq_ok.mpr ⟨((), middle), destroys, ?_⟩
    exact Outcome.bind_eq_ok.mpr ⟨(new, last), copies, queued⟩

/-- Once the copy is made, the channel gets it. -/
theorem enqueue_eq_ok : enqueue handle new before = .ok (0, after) ↔
    ∃ object, before.objects.lookup (.channel, handle) = some object ∧
      after = { before.put (.channel, handle) object.unlock with
        channels := Function.update before.channels handle
          ((before.channels handle).append new) } := by
  cases found : before.objects.lookup (.channel, handle) with
  | none => simp [enqueue, found]
  | some object => simp [enqueue, found, eq_comm]

/-- A string is copied to where `calloc` finds storage, or to a null pointer. -/
theorem stringDup_eq_ok {address copied : ℕ} {bytes : Bytes}
    (found : before.strings.lookup address = some bytes) :
    stringDup memory allocator time address before = .ok (copied, after) →
      copied = 0 ∧ after = before ∨
        (bytes.length < 2 ^ 63 ∧
          memory.calloc 1 (sizeofStringT + nextupow2 bytes.length) = true) ∧
        copied = allocator.place time before.strings.keys ∧
        after = { before with strings := before.strings.insert copied bytes } := by
  intro success
  simp only [stringDup, found] at success
  rcases Outcome.bind_eq_ok.mp success with ⟨made, allocated, result⟩
  cases made with
  | none =>
      cases result
      exact Or.inl ⟨rfl, rfl⟩
  | some string =>
      rcases StringT.alloc_some.mp allocated with ⟨granted, small, rfl⟩
      cases result
      refine Or.inr ⟨⟨small, granted⟩, rfl, ?_⟩
      rw [StringT.contents_append]

theorem stringDup_of {address : ℕ} {bytes : Bytes}
    (found : before.strings.lookup address = some bytes) (small : bytes.length < 2 ^ 63)
    (granted : memory.calloc 1 (sizeofStringT + nextupow2 bytes.length) = true) :
    stringDup memory allocator time address before =
      .ok (allocator.place time before.strings.keys, { before with
        strings := before.strings.insert (allocator.place time before.strings.keys) bytes }) := by
  have allocated := StringT.alloc_some.mpr ⟨granted, small, rfl⟩
  simp only [stringDup, found]
  refine Outcome.bind_eq_ok.mpr ⟨_, allocated, ?_⟩
  simp only [StringT.contents_append]

/-- A reference is counted, if its object can be locked. -/
theorem reference_eq_ok {kind : ReferenceKind} {other copied : ℕ}
    (found : before.objects.lookup (kind, other) = some object)
    (success : reference kind other before = .ok (copied, after)) :
    0 < other ∧ (object.lockStatus = 0 ∧ copied = other ∧
        after = before.put (kind, other) object.reference ∨
      object.lockStatus ≠ 0 ∧ copied = 0 ∧ after = before) := by
  rcases Outcome.bind_eq_ok.mp success with ⟨_, positive, later⟩
  refine ⟨Outcome.assertThat_eq_ok.mp positive, ?_⟩
  simp only [found] at later
  split at later
  case isTrue locked =>
    cases later
    exact Or.inl ⟨locked, rfl, rfl⟩
  case isFalse refused =>
    cases later
    exact Or.inr ⟨refused, rfl, rfl⟩

/-- A string is copied by `string_dup`. -/
theorem copy_string_eq_ok {address : ℕ} :
    copy memory allocator time (.string address) before = .ok (new, after) ↔
      ∃ copied, stringDup memory allocator time address before = .ok (copied, after) ∧
        new = .string copied := by
  simp only [copy, Program.bind_eq_ok, Program.pure_eq_ok]
  constructor
  · rintro ⟨copied, middle, dup, rfl, rfl⟩
    exact ⟨copied, dup, rfl⟩
  · rintro ⟨copied, dup, rfl⟩
    exact ⟨copied, after, dup, rfl, rfl⟩

/-- A channel with space gets the item behind the others. -/
theorem contents_appended {channel : Channel} (space : channel.count < channel.allocatedCount)
    (new : Scalar) : (channel.append new).contents = channel.contents ++ [new] := by
  have unqueued : channel.nextSlot ∉ window channel.allocatedCount channel.start channel.count :=
    window.next_not_mem space
  simp only [Channel.contents, Channel.slots, Channel.append, window.succ, List.map_append,
    List.map_cons, List.map_nil]
  congr 1
  · apply List.map_congr_left
    intro slot mem
    apply Function.update_of_ne
    rintro rfl
    exact unqueued mem
  · rw [← Channel.nextSlot, Function.update_self]

/-- The object of a value is lockable while the channel is locked, by its mutex before. -/
theorem lockStatus_locked {kind : ReferenceKind} {other : ℕ} {now : CountedObject}
    (found : store.objects.lookup (.channel, handle) = some object)
    (free : object.lockStatus = 0) (errorcheck : ∀ mutex ∈ object.mutex, mutex.kind = .errorcheck)
    (remains : Remains (store.locked handle object) middle)
    (there : middle.objects.lookup (kind, other) = some now) :
    now.lockStatus = 0 ↔ CanCopy memory store handle (.reference kind other) := by
  rcases remains.mutex _ now there with ⟨old, thereOld, same⟩
  have status : now.lockStatus = old.lockStatus := by
    simp only [CountedObject.lockStatus, same]
  rw [status, CanCopy]
  by_cases here : (kind, other) = (.channel, handle)
  · rw [here, locked, lookup_put] at thereOld
    cases thereOld
    rw [here, found]
    cases free' : object.mutex with
    | none => simp [CountedObject.lockStatus, CountedObject.lock, free']
    | some mutex =>
        have kind := errorcheck mutex free'
        have unheld : mutex.depth = 0 := by
          by_contra held
          simp [CountedObject.lockStatus, free', Mutex.lock, held, kind, EDEADLK] at free
        simp [CountedObject.lockStatus, CountedObject.lock, free', Mutex.lock, unheld, kind, EDEADLK]
  · rw [locked, lookup_put_of_ne store _ here] at thereOld
    simp [thereOld, here]

/-- What is right with a copy once the slot is cleared. -/
def Copied (store last : CountedStore) (value new : Scalar) : Prop :=
  last.value new = store.value value ∧
    ∀ kind other, value = .reference kind other →
      last.references kind other = store.references kind other + 1

/-- A string is copied if it is still there and `calloc` finds storage. -/
theorem copied_string_iff {address : ℕ} {bytes : Bytes} (handle : ℕ) (positive : 0 < address)
    (known : store.strings.lookup address = some bytes) :
    (∃ new last, copy memory allocator time (.string address) middle = .ok (new, last) ∧
      Copied store last (.string address) new) ↔
      Same store middle (.string address) ∧ CanCopy memory store handle (.string address) := by
  have denoted : store.value (.string address) = some (.string bytes) := by
    simp [value, positive, known]
  simp only [Same, CanCopy, known, Option.mem_some, forall_eq']
  constructor
  · rintro ⟨new, last, copies, same, _⟩
    rw [denoted] at same
    rcases copy_string_eq_ok.mp copies with ⟨copied, dup, rfl⟩
    cases there : middle.strings.lookup address with
    | none => simp [stringDup, there] at dup
    | some found =>
        rcases stringDup_eq_ok there dup with ⟨rfl, _⟩ | ⟨granted, rfl, rfl⟩
        · simp [value] at same
        · have nonzero := Nat.pos_of_ne_zero (allocator.nonzero time middle.strings.keys)
          simp only [value, nonzero, if_true, Finmap.lookup_insert, Option.map_some,
            Option.some.injEq, Value.string.injEq] at same
          rw [same] at granted ⊢
          exact ⟨rfl, granted⟩
  · rintro ⟨there, small, granted⟩
    have nonzero := Nat.pos_of_ne_zero (allocator.nonzero time middle.strings.keys)
    refine ⟨_, _, copy_string_eq_ok.mpr ⟨_, stringDup_of there small granted, rfl⟩, ?_, ?_⟩
    · rw [denoted]
      simp [value, nonzero]
    · intro kind other refers
      cases refers

/-- A reference is copied if its object has as many as before and can be locked. -/
theorem copied_reference_iff {kind : ReferenceKind} {other : ℕ} {denoted : Value}
    (found : store.objects.lookup (.channel, handle) = some object)
    (free : object.lockStatus = 0) (errorcheck : ∀ mutex ∈ object.mutex, mutex.kind = .errorcheck)
    (remains : Remains (store.locked handle object) middle)
    (known : store.value (.reference kind other) = some denoted) :
    (∃ new last, copy memory allocator time (.reference kind other) middle = .ok (new, last) ∧
      Copied store last (.reference kind other) new) ↔
      Same store middle (.reference kind other) ∧
        CanCopy memory store handle (.reference kind other) := by
  rcases value_reference_eq_some known with ⟨positive, referred, thereBefore⟩
  have denotes : store.value (.reference kind other) = some (.reference kind other) := by
    simp [value, positive, thereBefore]
  constructor
  · rintro ⟨new, last, copies, same, grown⟩
    rw [denotes] at same
    have grown := grown kind other rfl
    rcases Program.bind_eq_ok.mp copies with ⟨copied, middle', counted, result⟩
    rcases Program.pure_eq_ok.mp result with ⟨rfl, rfl⟩
    cases there : middle.objects.lookup (kind, other) with
    | none =>
        rcases Outcome.bind_eq_ok.mp counted with ⟨_, _, later⟩
        simp [there] at later
    | some now =>
        have lockable : now.lockStatus = 0 ↔ CanCopy memory store handle (.reference kind other) :=
          lockStatus_locked found free errorcheck remains there
        rcases (reference_eq_ok there counted).2 with ⟨locks, rfl, rfl⟩ | ⟨_, rfl, _⟩
        · rw [references_of (lookup_put _ _ _)] at grown
          refine ⟨?_, lockable.mp locks⟩
          rw [Same, references_of there]
          exact Nat.succ.inj grown
        · simp [value] at same
  · rintro ⟨same, lockable⟩
    cases there : middle.objects.lookup (kind, other) with
    | none =>
        have none : middle.references kind other = 0 := by simp [references, there]
        have some := referred.positive
        rw [Same, none, references_of thereBefore] at same
        omega
    | some now =>
        have locks := (lockStatus_locked found free errorcheck remains there).mpr lockable
        have counted : reference kind other middle =
            .ok (other, middle.put (kind, other) now.reference) := by
          simp [reference, Outcome.assertThat_of positive, there, locks]
        rw [Same, references_of there] at same
        refine ⟨.reference kind other, _, Program.bind_eq_ok.mpr ⟨_, _, counted, rfl⟩, ?_, ?_⟩
        · rw [denotes]
          simp [value, positive]
        · intro kind' other' refers
          cases refers
          rw [references_of (lookup_put _ _ _), ← same]
          rfl

/-- A value is copied if what it refers to is as before and can be copied. -/
theorem copied_iff {denoted : Value} (found : store.objects.lookup (.channel, handle) = some object)
    (free : object.lockStatus = 0) (errorcheck : ∀ mutex ∈ object.mutex, mutex.kind = .errorcheck)
    (remains : Remains (store.locked handle object) middle)
    (known : store.value value = some denoted) :
    (∃ new last, copy memory allocator time value middle = .ok (new, last) ∧
      Copied store last value new) ↔
      (∀ unit ∈ value.owned, Same store middle unit) ∧ CanCopy memory store handle value := by
  have plain : ∀ scalar : Scalar, scalar.owned = [] → CanCopy memory store handle scalar →
      copy memory allocator time scalar middle = .ok (scalar, middle) →
      Copied store middle scalar scalar →
      ((∃ new last, copy memory allocator time scalar middle = .ok (new, last) ∧
        Copied store last scalar new) ↔
        (∀ unit ∈ scalar.owned, Same store middle unit) ∧
          CanCopy memory store handle scalar) := by
    intro scalar nothing lockable copies copied
    refine iff_of_true ⟨scalar, middle, copies, copied⟩ ⟨?_, lockable⟩
    simp [nothing]
  cases value with
  | undefined => exact plain _ rfl trivial rfl ⟨rfl, fun _ _ refers => by cases refers⟩
  | int number => exact plain _ rfl trivial rfl ⟨rfl, fun _ _ refers => by cases refers⟩
  | float bits => exact plain _ rfl trivial rfl ⟨rfl, fun _ _ refers => by cases refers⟩
  | function entry => exact plain _ rfl trivial rfl ⟨rfl, fun _ _ refers => by cases refers⟩
  | string address =>
      rcases value_string_eq_some known with ⟨positive, bytes, there⟩
      rw [copied_string_iff handle positive there, Scalar.owned,
        if_neg (Nat.ne_of_gt positive), List.forall_mem_singleton]
  | reference kind other =>
      have positive := (value_reference_eq_some known).1
      rw [copied_reference_iff found free errorcheck remains known, Scalar.owned,
        if_neg (Nat.ne_of_gt positive), List.forall_mem_singleton]

/-- Copying takes no object away, and leaves the channels alone. -/
theorem copy_keeps (copies : copy memory allocator time value before = .ok (new, after)) :
    after.channels = before.channels ∧
      ∀ pooled, (after.objects.lookup pooled).isSome = (before.objects.lookup pooled).isSome := by
  cases value with
  | undefined => cases copies; exact ⟨rfl, fun _ => rfl⟩
  | int number => cases copies; exact ⟨rfl, fun _ => rfl⟩
  | float bits => cases copies; exact ⟨rfl, fun _ => rfl⟩
  | function entry => cases copies; exact ⟨rfl, fun _ => rfl⟩
  | string address =>
      rcases copy_string_eq_ok.mp copies with ⟨copied, dup, rfl⟩
      cases there : before.strings.lookup address with
      | none => simp [stringDup, there] at dup
      | some bytes =>
          rcases stringDup_eq_ok there dup with ⟨_, rfl⟩ | ⟨_, _, rfl⟩
          · exact ⟨rfl, fun _ => rfl⟩
          · exact ⟨rfl, fun _ => rfl⟩
  | reference kind other =>
      rcases Program.bind_eq_ok.mp copies with ⟨copied, middle, counted, result⟩
      rcases Program.pure_eq_ok.mp result with ⟨rfl, rfl⟩
      cases there : before.objects.lookup (kind, other) with
      | none =>
          rcases Outcome.bind_eq_ok.mp counted with ⟨_, _, later⟩
          simp [there] at later
      | some now =>
          rcases (reference_eq_ok there counted).2 with ⟨_, _, rfl⟩ | ⟨_, _, rfl⟩
          · refine ⟨rfl, ?_⟩
            intro pooled
            by_cases here : pooled = (kind, other)
            · subst here
              simp [there]
            · simp [here]
          · exact ⟨rfl, fun _ => rfl⟩

/-- A write queues its value exactly if what the slot still holds can be destroyed without what
the value refers to, and that can be copied while the channel is locked. -/
theorem queues_iff {denoted : Value}
    (found : store.objects.lookup (.channel, handle) = some object)
    (free : object.lockStatus = 0) (errorcheck : ∀ mutex ∈ object.mutex, mutex.kind = .errorcheck)
    (space : (store.channels handle).count < (store.channels handle).allocatedCount)
    (known : store.value value = some denoted) :
    Queues memory allocator time store handle value ↔
      Clears store handle object value ∧ CanCopy memory store handle value := by
  constructor
  · rintro ⟨fuel, after, new, success, queued, same, grown⟩
    rcases (write_eq_ok found free space).mp success with
      ⟨middle, new', last, destroys, copies, ends⟩
    rcases enqueue_eq_ok.mp ends with ⟨object', there, rfl⟩
    have remains := destroy_remains destroys
    have keeps := copy_keeps copies
    have channels : last.channels handle = store.channels handle := by
      rw [keeps.1, remains.channels]
      rfl
    simp only [Function.update_self, channels, contents_appended space] at queued
    have item := List.singleton_inj.mp (List.append_cancel_left queued)
    rw [item] at copies
    have copied : Copied store last value new := by
      refine ⟨?_, ?_⟩
      · rw [← same]
        exact (value_put (by rw [there]; rfl) object'.unlock new).symm
      · intro kind other refers
        rw [← grown kind other refers]
        exact (references_put there object'.unlock rfl kind other).symm
    have agrees := (copied_iff found free errorcheck remains known).mp ⟨new, last, copies, copied⟩
    refine ⟨⟨fuel, middle, destroys, ?_, agrees.1⟩, agrees.2⟩
    rw [← keeps.2, there]
    rfl
  · rintro ⟨⟨fuel, middle, destroys, inUse, same⟩, lockable⟩
    have remains := destroy_remains destroys
    have copied : ∃ new last, copy memory allocator time value middle = .ok (new, last) ∧
        Copied store last value new :=
      (copied_iff found free errorcheck remains known).mpr ⟨same, lockable⟩
    rcases copied with ⟨new, last, copies, copied⟩
    have keeps := copy_keeps copies
    rw [← keeps.2] at inUse
    rcases Option.isSome_iff_exists.mp inUse with ⟨object', there⟩
    have channels : last.channels handle = store.channels handle := by
      rw [keeps.1, remains.channels]
      rfl
    refine ⟨fuel, _, new, (write_eq_ok found free space).mpr
      ⟨middle, new, last, destroys, copies, enqueue_eq_ok.mpr ⟨object', there, rfl⟩⟩, ?_, ?_, ?_⟩
    · simp only [Function.update_self, channels, contents_appended space]
    · rw [← copied.1]
      exact value_put (by rw [there]; rfl) object'.unlock new
    · intro kind other refers
      rw [← copied.2 kind other refers]
      exact references_put there object'.unlock rfl kind other

/-- What a copy calls may have answered so whatever it was called for. -/
theorem exists_copies (copies : copy memory allocator time value before = .ok (new, after)) :
    ∃ answers : Copies, value.copy answers = .ok new := by
  cases value with
  | undefined => cases copies; exact ⟨.succeeding 0, rfl⟩
  | int number => cases copies; exact ⟨.succeeding 0, rfl⟩
  | float bits => cases copies; exact ⟨.succeeding 0, rfl⟩
  | function entry => cases copies; exact ⟨.succeeding 0, rfl⟩
  | string address =>
      rcases copy_string_eq_ok.mp copies with ⟨copied, _, rfl⟩
      exact ⟨.succeeding copied, rfl⟩
  | reference kind other =>
      rcases Program.bind_eq_ok.mp copies with ⟨copied, middle, counted, result⟩
      rcases Program.pure_eq_ok.mp result with ⟨rfl, rfl⟩
      cases there : before.objects.lookup (kind, other) with
      | none =>
          rcases Outcome.bind_eq_ok.mp counted with ⟨_, _, later⟩
          simp [there] at later
      | some now =>
          rcases reference_eq_ok there counted with ⟨positive, ⟨_, rfl, _⟩ | ⟨_, rfl, _⟩⟩
          · refine ⟨.succeeding 0, ?_⟩
            simp [Scalar.copy, Copies.succeeding, References.succeeding, Nat.ne_of_gt positive]
          · refine ⟨⟨⟨fun _ handle => if handle = 0 then .error .assertion else .ok 0, ?_⟩,
              fun _ => .ok 0⟩, ?_⟩
            · intro kind handle result success
              split at success
              case isTrue => cases success
              case isFalse nonzero =>
                cases success
                exact ⟨nonzero, Or.inl rfl⟩
            · simp [Scalar.copy, Nat.ne_of_gt positive]

/-- The channel is left as `Channel.write` leaves it, whatever the copies answer. -/
theorem write_refines (found : store.objects.lookup (.channel, handle) = some object)
    (free : object.lockStatus = 0)
    (space : (store.channels handle).count < (store.channels handle).allocatedCount)
    (success : write memory allocator time fuel handle value store = .ok (0, after)) :
    ∃ answers writing, (store.channels handle).write answers memory [] 0 value = .ok writing ∧
      writing.status = 0 ∧ writing.channel = after.channels handle := by
  rcases (write_eq_ok found free space).mp success with
    ⟨middle, new, last, destroys, copies, ends⟩
  rcases enqueue_eq_ok.mp ends with ⟨object', _, rfl⟩
  rcases exists_copies copies with ⟨answers, copied⟩
  have remains := destroy_remains destroys
  rcases Outcome.bind_eq_ok.mp destroys with ⟨units, destroyed, _⟩
  have channels : last.channels handle = store.channels handle := by
    rw [(copy_keeps copies).1, remains.channels]
    rfl
  have inside : (store.channels handle).item (store.channels handle).nextSlot =
      .ok ((store.channels handle).items (store.channels handle).nextSlot) :=
    if_pos (Nat.mod_lt _ (Nat.zero_lt_of_lt space))
  rw [Channel.nextSlot] at inside destroyed
  refine ⟨answers, ⟨0, new.owned, units, (store.channels handle).append new⟩, ?_, rfl, ?_⟩
  · simp only [Channel.write, if_true, Channel.awaitSpace, if_neg (Nat.not_le.mpr space),
      Outcome.ok_bind, inside, Scalar.clone, destroyed, copied]
    rfl
  · simp only [Function.update_self, channels]

section Sample

/-- Channel 1, new and shared, with one reference. -/
def newChannel : CountedStore where
  strings := ∅
  objects := Finmap.singleton (.channel, 1) ⟨1, Nat.one_pos, some ⟨.errorcheck, 0⟩, []⟩
  channels _ := .init

/-- Channel 1, the slot behind whose queue still holds the string at the address 6, array 2 and
the string at the address 5. -/
def usedChannel : CountedStore where
  strings := Finmap.insert 5 [104, 105] (Finmap.singleton 6 [98, 121, 101])
  objects := Finmap.insert (.array, 2) ⟨1, Nat.one_pos, none, []⟩ newChannel.objects
  channels _ := { Channel.init with items := fun _ => .string 6 }

theorem usedChannel_found : usedChannel.objects.lookup (.channel, 1) =
    some ⟨1, Nat.one_pos, some ⟨.errorcheck, 0⟩, []⟩ := rfl

theorem usedChannel_errorcheck : ∀ mutex ∈ (some ⟨.errorcheck, 0⟩ : Option Mutex),
    mutex.kind = .errorcheck := by
  intro mutex there
  cases there
  rfl

/-- The string in the slot is destroyed, and a copy of the other one, or a reference to the array,
takes its place. -/
theorem queues_iff_sample :
    Queues .ample .upwards 0 usedChannel 1 (.string 5) ∧
      Queues .ample .upwards 0 usedChannel 1 (.reference .array 2) := by
  constructor
  · refine (queues_iff usedChannel_found rfl usedChannel_errorcheck (by decide) rfl).mpr ⟨?_, ?_⟩
    · refine ⟨1, _, rfl, rfl, ?_⟩
      intro unit owned
      cases List.mem_singleton.mp owned
      rfl
    · intro bytes known
      cases known
      exact ⟨by decide, rfl⟩
  · refine (queues_iff usedChannel_found rfl usedChannel_errorcheck (by decide) rfl).mpr ⟨?_, ?_⟩
    · refine ⟨1, _, rfl, rfl, ?_⟩
      intro unit owned
      cases List.mem_singleton.mp owned
      rfl
    · intro object known
      cases known
      exact ⟨rfl, fun same => absurd same (by decide)⟩

/-- A channel that is written a reference to itself gets the handle zero in its place. -/
theorem not_queues_itself : ¬ Queues .ample .upwards 0 newChannel 1 (.reference .channel 1) := by
  rintro ⟨fuel, after, new, success, queued, same, _⟩
  rcases (write_eq_ok Finmap.lookup_singleton_eq rfl (by decide)).mp success with
    ⟨middle, new', last, destroys, copies, ends⟩
  rcases enqueue_eq_ok.mp ends with ⟨object', _, rfl⟩
  have slot : destroy fuel ((newChannel.channels 1).items (newChannel.channels 1).nextSlot)
      (newChannel.locked 1 ⟨1, Nat.one_pos, some ⟨.errorcheck, 0⟩, []⟩) =
        .ok ((), newChannel.locked 1 ⟨1, Nat.one_pos, some ⟨.errorcheck, 0⟩, []⟩) := rfl
  cases slot.symm.trans destroys
  rcases Program.bind_eq_ok.mp copies with ⟨copied, middle, counted, result⟩
  rcases Program.pure_eq_ok.mp result with ⟨rfl, rfl⟩
  rcases (reference_eq_ok (lookup_put _ _ _) counted).2 with ⟨locks, _⟩ | ⟨_, rfl, rfl⟩
  · cases locks
  · have item : new = .reference .channel 0 := by
      simpa [newChannel, locked, put, Channel.contents, Channel.slots, Channel.append, window,
        Channel.init, Channel.nextSlot, eq_comm] using queued
    rw [item] at same
    cases same

end Sample

end CountedStore

end Dang
