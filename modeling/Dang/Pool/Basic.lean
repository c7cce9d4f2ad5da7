import Dang.Memory
import Mathlib.Logic.Function.Basic

/-!
# Object pools

The pool functions of `pool.h`, generic in the type of the pooled objects. A
handle counts the items of `m_items` from one. An item that is not in use names
the next free item in `m_next_free`; an item in use holds
`POOL_OBJECT_STATE_INUSE` there.
-/

namespace Dang

/-- What `POOL_HEADER_CONTENTS` and `POOL_INITIAL_SIZE` fix for a type of objects. -/
structure PoolType (α : Type) where
  /-- `POOL_INITIAL_SIZE` -/
  initialSize : ℕ
  /-- `sizeof(type)` -/
  objectSize : ℕ
  mutexKind : MutexKind
  /-- The object whose bytes are all zero. -/
  zero : α
  init : α → α
  destroy : α → α

/-- `POOL_WRAPPER_TYPE(type)`: a pooled object and its book-keeping. -/
structure Wrapper (α : Type) where
  object : α
  references : ℕ
  mutex : Option Mutex
  nextFree : ℕ

/-- `POOL_OBJECT_STATE_INUSE` -/
def stateInUse : ℕ := sizeMax

/-- `POOL_OBJECT_FLAG_SHARED` -/
def flagShared : Flags8 := 0x01

/-- `POOL_TYPE(type)`, with `items handle` for `m_items[handle - 1]`. -/
structure Pool (α : Type) where
  allocatedCount : ℕ
  count : ℕ
  freeCount : ℕ
  items : ℕ → Wrapper α
  freeListHead : ℕ

namespace PoolType

variable {α : Type}

/-- `sizeof(POOL_WRAPPER_TYPE(type))`: the object and three words. -/
def wrapperSize (type : PoolType α) : ℕ := type.objectSize + 24

/-- An item as `calloc` returns it. -/
def zeroWrapper (type : PoolType α) : Wrapper α where
  object := type.zero
  references := 0
  mutex := none
  nextFree := 0

end PoolType

namespace Pool

variable {α : Type}

/-- `POOL_HANDLE_VALID` -/
def HandleValid (pool : Pool α) (handle : ℕ) : Prop :=
  0 < handle ∧ handle ≤ pool.allocatedCount

/-- `POOL_HANDLE_IN_USE` -/
def HandleInUse (pool : Pool α) (handle : ℕ) : Prop :=
  (pool.items handle).nextFree = stateInUse

instance (pool : Pool α) (handle : ℕ) : Decidable (pool.HandleValid handle) :=
  inferInstanceAs (Decidable (_ ∧ _))

instance (pool : Pool α) (handle : ℕ) : Decidable (pool.HandleInUse handle) :=
  inferInstanceAs (Decidable (_ = _))

/-- Following `m_next_free`. -/
def nextFree (pool : Pool α) (handle : ℕ) : ℕ := (pool.items handle).nextFree

/-- Reading `POOL_WRAPPER(type, handle)`. -/
def wrapper (pool : Pool α) (handle : ℕ) : Outcome (Wrapper α) :=
  if pool.HandleValid handle then .ok (pool.items handle) else .error .invalidAccess

/-- The pool with one item changed. -/
def update (pool : Pool α) (handle : ℕ) (change : Wrapper α → Wrapper α) : Pool α :=
  { pool with items := Function.update pool.items handle (change (pool.items handle)) }

/-- Writing to `POOL_WRAPPER(type, handle)`. -/
def modify (pool : Pool α) (handle : ℕ) (change : Wrapper α → Wrapper α) :
    Outcome (Pool α) :=
  if pool.HandleValid handle then .ok (pool.update handle change) else .error .invalidAccess

/-- `POOL_WRAPPER(type, handle).m_next_free = target` -/
def setNextFree (pool : Pool α) (handle target : ℕ) : Outcome (Pool α) :=
  pool.modify handle (fun wrapper => { wrapper with nextFree := target })

/-- The loop `for (i = start; ...; i++) POOL_WRAPPER(type, i).m_next_free = i + 1`, with
the number of rounds it makes. -/
def linkRange (pool : Pool α) (start : ℕ) : ℕ → Outcome (Pool α)
  | 0 => .ok pool
  | rounds + 1 => do
      let pool ← pool.setNextFree start (start + 1)
      pool.linkRange (start + 1) rounds

/-- `POOL_LOCK`: locks the object's mutex, if it has one. -/
def lock (pool : Pool α) (handle : ℕ) : Outcome (ℤ × Pool α) := do
  Outcome.assertThat (pool.HandleValid handle)
  Outcome.assertThat (pool.HandleInUse handle)
  match (pool.items handle).mutex with
  | some mutex =>
      .ok (mutex.lock.1,
        pool.update handle (fun wrapper => { wrapper with mutex := some mutex.lock.2 }))
  | none => .ok (0, pool)

/-- `POOL_UNLOCK`: unlocks the object's mutex, if it has one. -/
def unlock (pool : Pool α) (handle : ℕ) : Outcome (Pool α) := do
  Outcome.assertThat (pool.HandleValid handle)
  Outcome.assertThat (pool.HandleInUse handle)
  .ok (pool.update handle (fun wrapper => { wrapper with mutex := wrapper.mutex.map Mutex.unlock }))

/-- `POOL_INIT`: zero, and the pool whose free list holds every item in order. -/
def init (type : PoolType α) (memory : Memory) : Outcome (ℤ × Pool α) := do
  let pool : Pool α :=
    { allocatedCount := 0, count := 0, freeCount := 0, items := fun _ => type.zeroWrapper,
      freeListHead := 0 }
  if memory.calloc type.initialSize type.wrapperSize then
    let pool := { pool with allocatedCount := type.initialSize, count := 0, freeListHead := 1 }
    let pool ← pool.linkRange 1 (pool.allocatedCount - 1)
    let pool ← pool.setNextFree pool.allocatedCount 0
    .ok (0, { pool with freeCount := type.initialSize })
  else
    .ok (-1, pool)

/-- The items moved to a larger block: the old ones copied, the others zero. -/
def moveItems (type : PoolType α) (pool : Pool α) (newSize : ℕ) : Pool α :=
  { pool with
    allocatedCount := newSize
    items := fun handle =>
      if handle ≤ pool.allocatedCount then pool.items handle else type.zeroWrapper }

/-- The branch of `POOL_ALLOCATE` taken while there are free items. -/
def takeFirst (pool : Pool α) : Outcome (ℕ × Pool α) := do
  Outcome.assertThat (pool.freeListHead ≠ 0)
  let handle := pool.freeListHead
  let wrapper ← pool.wrapper handle
  .ok (handle,
    { pool with freeListHead := wrapper.nextFree, freeCount := pool.freeCount - 1 })

/-- The branch of `POOL_ALLOCATE` that doubles the pool. -/
def grow (type : PoolType α) (pool : Pool α) : Outcome (ℕ × Pool α) := do
  let handle := pool.allocatedCount + 1
  let newSize := 2 * pool.allocatedCount
  let pool := { moveItems type pool newSize with freeListHead := handle + 1 }
  let pool ← pool.linkRange (handle + 1) (newSize - (handle + 1))
  let pool ← pool.setNextFree pool.allocatedCount 0
  .ok (handle, { pool with freeCount := pool.allocatedCount - handle })

/-- The end of `POOL_ALLOCATE`: sets up the item taken off the free list. -/
def initialise (type : PoolType α) (memory : Memory) (flags : Flags8) (handle : ℕ)
    (pool : Pool α) : Outcome (ℕ × Pool α) := do
  let wrapper ← pool.wrapper handle
  Outcome.assertThat (wrapper.references = 0)
  let pool ← pool.modify handle (fun wrapper =>
    { wrapper with references := 1, object := type.init wrapper.object })
  if flags &&& flagShared ≠ 0 then
    Outcome.assertThat (memory.calloc 1 sizeofMutex)
    let mutex := if memory.mutexInit then some ⟨type.mutexKind, 0⟩ else none
    let pool ← pool.modify handle (fun wrapper =>
      { wrapper with mutex := mutex, nextFree := stateInUse })
    .ok (handle, { pool with count := pool.count + 1 })
  else
    let pool ← pool.setNextFree handle stateInUse
    .ok (handle, { pool with count := pool.count + 1 })

/-- `POOL_ALLOCATE`: a handle, or zero when there is no storage to grow into. -/
def allocate (type : PoolType α) (memory : Memory) (flags : Flags8) (pool : Pool α) :
    Outcome (ℕ × Pool α) := do
  if 0 < pool.freeCount then
    let (handle, pool) ← pool.takeFirst
    pool.initialise type memory flags handle
  else if memory.calloc (2 * pool.allocatedCount) type.wrapperSize then
    let (handle, pool) ← pool.grow type
    pool.initialise type memory flags handle
  else
    .ok (0, pool)

/-- `POOL_REFERENCE`: the handle, or zero when its mutex cannot be locked. -/
def reference (pool : Pool α) (handle : ℕ) : Outcome (ℕ × Pool α) := do
  Outcome.assertThat (pool.HandleValid handle)
  let (status, pool) ← pool.lock handle
  if status = 0 then
    Outcome.assertThat (pool.HandleInUse handle)
    Outcome.assertThat (0 < (pool.items handle).references)
    let pool := pool.update handle (fun wrapper =>
      { wrapper with references := wrapper.references + 1 })
    let pool ← pool.unlock handle
    .ok (handle, pool)
  else
    .ok (0, pool)

/-- The scan `for ( ; prev > 0 && !POOL_HANDLE_IN_USE(type, prev); --prev)`. -/
def scanDown (pool : Pool α) : ℕ → ℕ
  | 0 => 0
  | prev + 1 => if pool.HandleInUse (prev + 1) then prev + 1 else pool.scanDown prev

/-- `_POOL_ADD_TO_FREE_LIST` -/
def addToFreeList (pool : Pool α) (handle : ℕ) : Outcome (Pool α) := do
  Outcome.assertThat (pool.HandleValid handle)
  let prev := pool.scanDown handle
  if 0 < prev then
    let wrapper ← pool.wrapper prev
    let pool ← pool.setNextFree handle wrapper.nextFree
    let pool ← pool.setNextFree prev handle
    .ok { pool with freeCount := pool.freeCount + 1 }
  else
    let pool ← pool.setNextFree handle pool.freeListHead
    .ok { pool with freeListHead := handle, freeCount := pool.freeCount + 1 }

/-- `POOL_RELEASE`: the last release destroys the object and frees the item. -/
def release (type : PoolType α) (pool : Pool α) (handle : ℕ) : Outcome (ℤ × Pool α) := do
  Outcome.assertThat (pool.HandleValid handle)
  let (status, pool) ← pool.lock handle
  if status = 0 then
    Outcome.assertThat (pool.HandleInUse handle)
    Outcome.assertThat (0 < (pool.items handle).references)
    if (pool.items handle).references = 1 then
      let pool := pool.update handle (fun wrapper =>
        { wrapper with object := type.destroy wrapper.object, mutex := none, references := 0 })
      let pool ← pool.addToFreeList handle
      .ok (0, { pool with count := pool.count - 1 })
    else
      let pool := pool.update handle (fun wrapper =>
        { wrapper with references := wrapper.references - 1 })
      let pool ← pool.unlock handle
      .ok (0, pool)
  else
    .ok (-1, pool)

end Pool

end Dang
