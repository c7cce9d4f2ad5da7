import Dang.Pool.Basic
import Mathlib.Tactic.Common

/-!
# What the pool operations do

One inversion lemma for each function of the pool: from a call that returned, what
held before it and the pool it left. Later files cite these and unfold nothing.
-/

namespace Dang

namespace Pool

variable {α : Type}

@[simp]
theorem update_allocatedCount (pool : Pool α) (handle : ℕ)
    (change : Wrapper α → Wrapper α) :
    (pool.update handle change).allocatedCount = pool.allocatedCount :=
  rfl

@[simp]
theorem handleValid_update (pool : Pool α) (handle other : ℕ)
    (change : Wrapper α → Wrapper α) :
    (pool.update handle change).HandleValid other ↔ pool.HandleValid other :=
  Iff.rfl

theorem items_update (pool : Pool α) (handle other : ℕ) (change : Wrapper α → Wrapper α) :
    (pool.update handle change).items other =
      if other = handle then change (pool.items handle) else pool.items other := by
  simp [update, Function.update_apply]

theorem update_update (pool : Pool α) (handle : ℕ) (first second : Wrapper α → Wrapper α) :
    (pool.update handle first).update handle second =
      pool.update handle (fun wrapper => second (first wrapper)) := by
  simp [update]

theorem modify_eq_ok {pool result : Pool α} {handle : ℕ}
    {change : Wrapper α → Wrapper α} :
    pool.modify handle change = .ok result ↔
      pool.HandleValid handle ∧ result = pool.update handle change := by
  by_cases valid : pool.HandleValid handle
  · simp [modify, valid, eq_comm]
  · simp [modify, valid]

theorem modify_of {pool : Pool α} {handle : ℕ} {change : Wrapper α → Wrapper α}
    (valid : pool.HandleValid handle) :
    pool.modify handle change = .ok (pool.update handle change) :=
  if_pos valid

theorem wrapper_eq_ok {pool : Pool α} {handle : ℕ} {result : Wrapper α} :
    pool.wrapper handle = .ok result ↔ pool.HandleValid handle ∧ result = pool.items handle := by
  by_cases valid : pool.HandleValid handle
  · simp [wrapper, valid, eq_comm]
  · simp [wrapper, valid]

/-- The items after the loop that links `start .. start + rounds - 1` to their successors. -/
def linked (pool : Pool α) (start : ℕ) (rounds : ℕ) : Pool α :=
  { pool with
    items := fun handle =>
      if start ≤ handle ∧ handle < start + rounds then
        { pool.items handle with nextFree := handle + 1 }
      else pool.items handle }

theorem linkRange_eq {pool : Pool α} {start : ℕ} {rounds : ℕ} (positive : 0 < start)
    (inside : start + rounds ≤ pool.allocatedCount + 1) :
    pool.linkRange start rounds = .ok (pool.linked start rounds) := by
  induction rounds generalizing pool start with
  | zero =>
      have nothing : ∀ handle, ¬(start ≤ handle ∧ handle < start) := by
        intro handle
        omega
      simp [linkRange, linked, nothing]
  | succ rounds ih =>
      have valid : pool.HandleValid start := ⟨positive, by omega⟩
      simp only [linkRange, setNextFree, modify, valid, if_true, Outcome.ok_bind]
      rw [ih (by omega) (by simp only [update_allocatedCount]; omega)]
      simp only [linked, update, Except.ok.injEq, Pool.mk.injEq, true_and, and_true]
      funext handle
      by_cases first : handle = start
      · subst first
        simp
      · simp only [Function.update_of_ne first]
        by_cases later : start + 1 ≤ handle ∧ handle < start + 1 + rounds
        · rw [if_pos later, if_pos (by omega)]
        · rw [if_neg later, if_neg (by omega)]

/-- What `POOL_INIT` yields when it succeeds. -/
theorem init_eq_ok {type : PoolType α} {memory : Memory} {pool : Pool α}
    (success : init type memory = .ok (0, pool)) :
    0 < type.initialSize ∧ type.initialSize * type.wrapperSize ≤ sizeMax ∧
      pool.allocatedCount = type.initialSize ∧ pool.count = 0 ∧
      pool.freeCount = type.initialSize ∧ pool.freeListHead = 1 ∧
      ∀ handle, pool.items handle =
        { type.zeroWrapper with
          nextFree := if 1 ≤ handle ∧ handle < type.initialSize then handle + 1 else 0 } := by
  by_cases storage : memory.calloc type.initialSize type.wrapperSize = true
  · have fits := memory.calloc_fits _ _ storage
    simp only [init, storage, if_true] at success
    rw [linkRange_eq (by omega) (by simp only; omega)] at success
    simp only [Outcome.ok_bind, Outcome.bind_eq_ok, setNextFree, modify_eq_ok,
      Except.ok.injEq, Prod.mk.injEq, true_and] at success
    rcases success with ⟨last, ⟨lastValid, rfl⟩, rfl⟩
    refine ⟨lastValid.1, fits, rfl, rfl, rfl, rfl, ?_⟩
    intro handle
    have positive : 0 < type.initialSize := lastValid.1
    simp only [items_update, linked]
    by_cases final : handle = type.initialSize
    · subst final
      rw [if_pos rfl, if_neg (by omega), if_neg (by omega)]
    · rw [if_neg final]
      by_cases inner : 1 ≤ handle ∧ handle < 1 + (type.initialSize - 1)
      · rw [if_pos inner, if_pos (by omega)]
      · rw [if_neg inner, if_neg (by omega)]
        rfl
  · simp [init, storage] at success

/-- The item set up by `POOL_ALLOCATE`. -/
def initialised (type : PoolType α) (pool : Pool α) (handle : ℕ) (mutex : Option Mutex) :
    Pool α :=
  { pool.update handle (fun wrapper =>
      { object := type.init wrapper.object, references := 1, mutex := mutex,
        nextFree := stateInUse }) with
    count := pool.count + 1 }

theorem initialise_eq_ok {type : PoolType α} {memory : Memory} {flags : Flags8}
    {handle result : ℕ} {pool after : Pool α}
    (success : pool.initialise type memory flags handle = .ok (result, after)) :
    pool.HandleValid handle ∧ (pool.items handle).references = 0 ∧ result = handle ∧
      ∃ mutex, after = pool.initialised type handle mutex ∧
        (mutex = (pool.items handle).mutex ∨ ∀ owned ∈ mutex, owned.depth = 0) := by
  simp only [initialise, Outcome.bind_eq_ok, wrapper_eq_ok, modify_eq_ok,
    Outcome.assertThat_eq_ok] at success
  rcases success with ⟨wrapper, ⟨valid, rfl⟩, _, zero, filled, ⟨_, rfl⟩, rest⟩
  refine ⟨valid, zero, ?_⟩
  by_cases shared : flags &&& flagShared ≠ 0
  · simp only [shared, if_true, Outcome.bind_eq_ok, Outcome.assertThat_eq_ok, modify_eq_ok,
      Except.ok.injEq, Prod.mk.injEq, ne_eq, not_false_eq_true, update_update] at rest
    rcases rest with ⟨_, _, final, ⟨_, rfl⟩, rfl, rfl⟩
    refine ⟨rfl, if memory.mutexInit then some ⟨type.mutexKind, 0⟩ else none, rfl, Or.inr ?_⟩
    intro owned mem
    by_cases works : memory.mutexInit = true
    · rw [if_pos works, Option.mem_some_iff] at mem
      rw [← mem]
    · simp [works] at mem
  · simp only [shared, if_false, Outcome.bind_eq_ok, setNextFree, modify_eq_ok,
      Except.ok.injEq, Prod.mk.injEq, update_update] at rest
    rcases rest with ⟨final, ⟨_, rfl⟩, rfl, rfl⟩
    refine ⟨rfl, (pool.items handle).mutex, ?_, Or.inl rfl⟩
    simp [initialised, update]

/-- What the growing branch of `POOL_ALLOCATE` yields. -/
theorem grow_eq_ok {type : PoolType α} {pool after : Pool α} {result : ℕ}
    (enough : 0 < pool.allocatedCount) (success : pool.grow type = .ok (result, after)) :
    result = pool.allocatedCount + 1 ∧ after.allocatedCount = 2 * pool.allocatedCount ∧
      after.count = pool.count ∧ after.freeCount = pool.allocatedCount - 1 ∧
      after.freeListHead = pool.allocatedCount + 2 ∧
      ∀ handle, after.items handle =
        if handle ≤ pool.allocatedCount then pool.items handle
        else { type.zeroWrapper with
          nextFree := if pool.allocatedCount + 2 ≤ handle ∧ handle < 2 * pool.allocatedCount
            then handle + 1 else 0 } := by
  simp only [grow] at success
  rw [linkRange_eq (by omega) (by simp only [moveItems]; omega)] at success
  simp only [Outcome.ok_bind, Outcome.bind_eq_ok, setNextFree, modify_eq_ok,
    Except.ok.injEq, Prod.mk.injEq] at success
  rcases success with ⟨last, ⟨_, rfl⟩, rfl, rfl⟩
  refine ⟨rfl, rfl, rfl, ?_, rfl, ?_⟩
  · simp only [update_allocatedCount, linked, moveItems]
    omega
  · intro handle
    simp only [items_update, linked, moveItems]
    by_cases final : handle = 2 * pool.allocatedCount
    · subst final
      rw [if_pos rfl, if_neg (by omega), if_neg (by omega), if_neg (by omega), if_neg (by omega)]
    · rw [if_neg final]
      by_cases old : handle ≤ pool.allocatedCount
      · rw [if_neg (by omega), if_pos old, if_pos old]
      · simp only [if_neg old]
        by_cases inner : pool.allocatedCount + 1 + 1 ≤ handle ∧
            handle < pool.allocatedCount + 1 + 1 +
              (2 * pool.allocatedCount - (pool.allocatedCount + 1 + 1))
        · rw [if_pos inner, if_pos (by omega)]
        · rw [if_neg inner, if_neg (by omega)]
          rfl

theorem grow_returns (type : PoolType α) {pool : Pool α} (enough : 0 < pool.allocatedCount) :
    ∃ result, pool.grow type = .ok result := by
  simp only [grow]
  rw [linkRange_eq (by omega) (by simp only [moveItems]; omega)]
  simp only [Outcome.ok_bind, setNextFree]
  rw [modify_of ⟨by simp only [linked, moveItems]; omega, Nat.le_refl _⟩]
  exact ⟨_, rfl⟩

theorem takeFirst_eq_ok {pool after : Pool α} {result : ℕ}
    (success : pool.takeFirst = .ok (result, after)) :
    pool.HandleValid pool.freeListHead ∧ result = pool.freeListHead ∧
      after = { pool with
        freeListHead := pool.nextFree pool.freeListHead, freeCount := pool.freeCount - 1 } := by
  simp only [takeFirst, Outcome.bind_eq_ok, wrapper_eq_ok, Outcome.assertThat_eq_ok,
    Except.ok.injEq, Prod.mk.injEq] at success
  rcases success with ⟨_, _, wrapper, ⟨valid, rfl⟩, rfl, rfl⟩
  exact ⟨valid, rfl, rfl⟩

/-- The two ways in which `POOL_ALLOCATE` returns a handle. -/
theorem allocate_eq_ok {type : PoolType α} {memory : Memory} {flags : Flags8}
    {pool after : Pool α} {result : ℕ} (nonzero : result ≠ 0)
    (success : pool.allocate type memory flags = .ok (result, after)) :
    ∃ ready mutex, after = ready.initialised type result mutex ∧
      ready.HandleValid result ∧ (ready.items result).references = 0 ∧
      (mutex = (ready.items result).mutex ∨ ∀ owned ∈ mutex, owned.depth = 0) ∧
      (0 < pool.freeCount ∧ pool.takeFirst = .ok (result, ready) ∨
        pool.freeCount = 0 ∧ 2 * pool.allocatedCount * type.wrapperSize ≤ sizeMax ∧
          pool.grow type = .ok (result, ready)) := by
  simp only [allocate] at success
  by_cases some : 0 < pool.freeCount
  · simp only [some, if_true, Outcome.bind_eq_ok] at success
    rcases success with ⟨⟨handle, ready⟩, taken, rest⟩
    rcases initialise_eq_ok rest with ⟨valid, zero, rfl, mutex, rfl, free⟩
    exact ⟨ready, mutex, rfl, valid, zero, free, Or.inl ⟨some, taken⟩⟩
  · by_cases storage : memory.calloc (2 * pool.allocatedCount) type.wrapperSize = true
    · simp only [some, storage, if_true, if_false, Outcome.bind_eq_ok] at success
      rcases success with ⟨⟨handle, ready⟩, grown, rest⟩
      rcases initialise_eq_ok rest with ⟨valid, zero, rfl, mutex, rfl, free⟩
      exact ⟨ready, mutex, rfl, valid, zero, free,
        Or.inr ⟨by omega, memory.calloc_fits _ _ storage, grown⟩⟩
    · simp only [some, storage, Bool.false_eq_true, if_false, Except.ok.injEq,
        Prod.mk.injEq] at success
      exact absurd success.1.symm nonzero

theorem update_congr {pool : Pool α} {handle : ℕ} {first : Wrapper α → Wrapper α}
    (second : Wrapper α → Wrapper α)
    (same : first (pool.items handle) = second (pool.items handle)) :
    pool.update handle first = pool.update handle second := by
  simp [update, same]

theorem update_id {pool : Pool α} {handle : ℕ} {change : Wrapper α → Wrapper α}
    (same : change (pool.items handle) = pool.items handle) : pool.update handle change = pool := by
  simp [update, same]

/-- The item as `POOL_LOCK` leaves it. -/
def lockItem (wrapper : Wrapper α) : Wrapper α :=
  { wrapper with mutex := wrapper.mutex.map fun mutex => mutex.lock.2 }

theorem lock_eq_ok {pool after : Pool α} {handle : ℕ} {status : ℤ}
    (success : pool.lock handle = .ok (status, after)) :
    pool.HandleValid handle ∧ pool.HandleInUse handle ∧ after = pool.update handle lockItem ∧
      status = ((pool.items handle).mutex.map fun mutex => mutex.lock.1).getD 0 := by
  simp only [lock, Outcome.bind_eq_ok, Outcome.assertThat_eq_ok] at success
  rcases success with ⟨_, valid, _, used, rest⟩
  refine ⟨valid, used, ?_⟩
  cases owned : (pool.items handle).mutex with
  | none =>
      simp only [owned, Except.ok.injEq, Prod.mk.injEq] at rest
      rcases rest with ⟨rfl, rfl⟩
      refine ⟨(update_id ?_).symm, rfl⟩
      rw [lockItem, owned, Option.map_none, ← owned]
  | some mutex =>
      simp only [owned, Except.ok.injEq, Prod.mk.injEq] at rest
      rcases rest with ⟨rfl, rfl⟩
      simp [update, owned, lockItem]

/-- Locking an object in use returns what locking its mutex does. -/
theorem lock_of {pool : Pool α} {handle : ℕ} (valid : pool.HandleValid handle)
    (used : pool.HandleInUse handle) :
    pool.lock handle = .ok (((pool.items handle).mutex.map fun mutex => mutex.lock.1).getD 0,
      pool.update handle lockItem) := by
  simp only [lock, Outcome.assertThat_of valid, Outcome.assertThat_of used, Outcome.ok_bind]
  cases owned : (pool.items handle).mutex with
  | none =>
      simp only [Except.ok.injEq, Prod.mk.injEq, Option.map_none, Option.getD_none, true_and]
      refine (update_id ?_).symm
      rw [lockItem, owned, Option.map_none, ← owned]
  | some mutex => simp [update, owned, lockItem]

theorem lock_of_unlocked {pool : Pool α} {handle : ℕ} (valid : pool.HandleValid handle)
    (used : pool.HandleInUse handle)
    (unlocked : ∀ mutex ∈ (pool.items handle).mutex, mutex.depth = 0) :
    pool.lock handle = .ok (0, pool.update handle lockItem) := by
  rw [lock_of valid used]
  cases owned : (pool.items handle).mutex with
  | none => rfl
  | some mutex =>
      have free : mutex.depth = 0 := unlocked mutex (by rw [owned]; rfl)
      simp [Mutex.lock, free]

theorem unlock_of {pool : Pool α} {handle : ℕ} (valid : pool.HandleValid handle)
    (used : pool.HandleInUse handle) :
    pool.unlock handle = .ok (pool.update handle fun wrapper =>
      { wrapper with mutex := wrapper.mutex.map Mutex.unlock }) := by
  simp only [unlock, Outcome.assertThat_of valid, Outcome.assertThat_of used, Outcome.ok_bind]

/-- Locking either fails and changes nothing, or is undone by unlocking. -/
theorem lock_cases {pool after : Pool α} {handle : ℕ} {status : ℤ}
    (success : pool.lock handle = .ok (status, after)) :
    pool.HandleValid handle ∧ pool.HandleInUse handle ∧
      (status ≠ 0 ∧ after = pool ∧ (∃ mutex ∈ (pool.items handle).mutex, mutex.depth ≠ 0) ∨
        status = 0 ∧ after = pool.update handle lockItem ∧
          (pool.items handle).mutex.map (Mutex.unlock ∘ fun mutex => mutex.lock.2) =
            (pool.items handle).mutex) := by
  rcases lock_eq_ok success with ⟨valid, used, rfl, rfl⟩
  refine ⟨valid, used, ?_⟩
  cases owned : (pool.items handle).mutex with
  | none => exact Or.inr ⟨rfl, rfl, rfl⟩
  | some mutex =>
      by_cases works : mutex.lock.1 = 0
      · exact Or.inr ⟨works, rfl, congrArg some (Mutex.unlock_lock works)⟩
      · have failed := Mutex.lock_failed works
        refine Or.inl ⟨works, update_id ?_, mutex, rfl, failed.2⟩
        rw [lockItem, owned, Option.map_some, failed.1, ← owned]

theorem unlock_lockItem {pool : Pool α} {handle : ℕ} (valid : pool.HandleValid handle)
    (used : pool.HandleInUse handle)
    (unlocked : ∀ mutex ∈ (pool.items handle).mutex, mutex.depth = 0) :
    (pool.update handle lockItem).unlock handle = .ok pool := by
  have locked := lock_of_unlocked valid used unlocked
  rcases lock_cases locked with ⟨_, _, failed | ⟨_, _, undone⟩⟩
  · exact absurd rfl failed.1
  · have stillUsed : (pool.update handle lockItem).HandleInUse handle := by
      simpa [HandleInUse, items_update, lockItem] using used
    rw [unlock_of (by simpa using valid) stillUsed, update_update, update_id]
    simp [lockItem, undone]

/-- `POOL_REFERENCE` counts one more reference, or fails and changes nothing. -/
theorem reference_eq_ok {pool after : Pool α} {handle result : ℕ}
    (success : pool.reference handle = .ok (result, after)) :
    pool.HandleValid handle ∧ pool.HandleInUse handle ∧
      (result = 0 ∧ after = pool ∨
        result = handle ∧ after = pool.update handle (fun wrapper =>
          { wrapper with references := wrapper.references + 1 })) := by
  simp only [reference, Outcome.bind_eq_ok, Outcome.assertThat_eq_ok] at success
  rcases success with ⟨_, _, ⟨status, locked⟩, lockOk, rest⟩
  rcases lock_cases lockOk with ⟨valid, used, failed | works⟩
  · rcases failed with ⟨nonzero, rfl, _⟩
    simp only [nonzero, if_false, Except.ok.injEq, Prod.mk.injEq] at rest
    exact ⟨valid, used, Or.inl ⟨rest.1.symm, rest.2.symm⟩⟩
  · rcases works with ⟨rfl, rfl, undone⟩
    simp only [if_true, unlock, Outcome.bind_eq_ok, Outcome.assertThat_eq_ok, Except.ok.injEq,
      Prod.mk.injEq, update_update] at rest
    rcases rest with ⟨_, _, _, _, _, ⟨_, _, _, _, rfl⟩, rfl, rfl⟩
    refine ⟨valid, used, Or.inr ⟨rfl, ?_⟩⟩
    simp [update, lockItem, undone]

/-- The item as the last release leaves it: out of use, and linked to itself. -/
def freed (type : PoolType α) (pool : Pool α) (handle : ℕ) : Pool α :=
  { pool.update handle (fun wrapper =>
      { object := type.destroy wrapper.object, references := 0, mutex := none,
        nextFree := handle }) with
    count := pool.count - 1
    freeCount := pool.freeCount + 1 }

/-- The scan starts at the item itself: one that is still marked in use is linked to
itself, and the list is left as it was. -/
theorem addToFreeList_of_inUse {pool : Pool α} {handle : ℕ} (valid : pool.HandleValid handle)
    (used : pool.HandleInUse handle) :
    pool.addToFreeList handle =
      .ok { pool.update handle (fun wrapper => { wrapper with nextFree := handle }) with
        freeCount := pool.freeCount + 1 } := by
  have positive := valid.1
  have scan : pool.scanDown handle = handle := by
    cases handle with
    | zero => rfl
    | succ below => simp [scanDown, used]
  simp [addToFreeList, Outcome.assertThat, valid, scan, positive, wrapper, setNextFree, modify,
    update]

/-- `POOL_RELEASE` counts one reference less, or frees the item, or fails. -/
theorem release_eq_ok {type : PoolType α} {pool after : Pool α} {handle : ℕ} {status : ℤ}
    (success : pool.release type handle = .ok (status, after)) :
    pool.HandleValid handle ∧ pool.HandleInUse handle ∧
      (status ≠ 0 ∧ after = pool ∧ (∃ mutex ∈ (pool.items handle).mutex, mutex.depth ≠ 0) ∨
        status = 0 ∧ 1 < (pool.items handle).references ∧
          after = pool.update handle (fun wrapper =>
            { wrapper with references := wrapper.references - 1 }) ∨
        status = 0 ∧ (pool.items handle).references = 1 ∧ after = pool.freed type handle) := by
  simp only [release, Outcome.bind_eq_ok, Outcome.assertThat_eq_ok] at success
  rcases success with ⟨_, _, ⟨locking, locked⟩, lockOk, rest⟩
  rcases lock_cases lockOk with ⟨valid, used, failed | works⟩
  · rcases failed with ⟨nonzero, rfl, held⟩
    simp only [nonzero, if_false, Except.ok.injEq, Prod.mk.injEq] at rest
    refine ⟨valid, used, Or.inl ⟨?_, rest.2.symm, held⟩⟩
    rw [← rest.1]
    decide
  · rcases works with ⟨rfl, rfl, undone⟩
    have count : ((pool.update handle lockItem).items handle).references =
        (pool.items handle).references := by
      simp [items_update, lockItem]
    simp only [if_true, Outcome.bind_eq_ok, Outcome.assertThat_eq_ok, count] at rest
    rcases rest with ⟨_, _, _, positive, rest⟩
    refine ⟨valid, used, Or.inr ?_⟩
    by_cases last : (pool.items handle).references = 1
    · rw [update_update] at rest
      rw [addToFreeList_of_inUse (by simpa using valid)
        (by simpa [HandleInUse, items_update, lockItem] using used)] at rest
      simp only [last, if_true, Outcome.ok_bind, Except.ok.injEq, Prod.mk.injEq,
        update_update] at rest
      rcases rest with ⟨rfl, rfl⟩
      exact Or.inr ⟨rfl, last, rfl⟩
    · simp only [last, if_false, unlock, Outcome.bind_eq_ok, Outcome.assertThat_eq_ok,
        Except.ok.injEq, Prod.mk.injEq, update_update] at rest
      rcases rest with ⟨_, ⟨_, _, _, _, rfl⟩, rfl, rfl⟩
      refine Or.inl ⟨rfl, by omega, ?_⟩
      simp [update, lockItem, undone]

/-- A reference to an object in use that is not locked is counted. -/
theorem reference_of {pool : Pool α} {handle : ℕ} (valid : pool.HandleValid handle)
    (used : pool.HandleInUse handle) (counted : 0 < (pool.items handle).references)
    (unlocked : ∀ mutex ∈ (pool.items handle).mutex, mutex.depth = 0) :
    pool.reference handle = .ok (handle, pool.update handle fun wrapper =>
      { wrapper with references := wrapper.references + 1 }) := by
  have locked := lock_of_unlocked valid used unlocked
  rcases lock_cases locked with ⟨_, _, failed | ⟨_, _, undone⟩⟩
  · exact absurd rfl failed.1
  · have lockedUsed : (pool.update handle lockItem).HandleInUse handle := by
      simpa [HandleInUse, items_update, lockItem] using used
    have lockedCounted : 0 < ((pool.update handle lockItem).items handle).references := by
      simpa [items_update, lockItem] using counted
    rw [reference, Outcome.assertThat_of valid, Outcome.ok_bind, locked]
    simp only [Outcome.ok_bind, if_true, Outcome.assertThat_of lockedUsed,
      Outcome.assertThat_of lockedCounted, update_update]
    rw [unlock_of (by simpa using valid) (by simpa [HandleInUse, items_update, lockItem] using used),
      Outcome.ok_bind, update_update]
    simp [update, lockItem, undone]

/-- A release of an object that can be locked, when there are other references. -/
theorem release_of_many {type : PoolType α} {pool : Pool α} {handle : ℕ}
    (locked : pool.lock handle = .ok (0, pool.update handle lockItem))
    (many : 1 < (pool.items handle).references) :
    pool.release type handle = .ok (0, pool.update handle fun wrapper =>
      { wrapper with references := wrapper.references - 1 }) := by
  rcases lock_cases locked with ⟨valid, used, failed | ⟨_, _, undone⟩⟩
  · exact absurd rfl failed.1
  · have lockedUsed : (pool.update handle lockItem).HandleInUse handle := by
      simpa [HandleInUse, items_update, lockItem] using used
    have lockedMany : ((pool.update handle lockItem).items handle).references =
        (pool.items handle).references := by
      simp [items_update, lockItem]
    have notLast : ¬ (pool.items handle).references = 1 := by omega
    have positive : 0 < (pool.items handle).references := by omega
    rw [release, Outcome.assertThat_of valid, Outcome.ok_bind, locked]
    simp only [Outcome.ok_bind, if_true, Outcome.assertThat_of lockedUsed, lockedMany,
      Outcome.assertThat_of positive, notLast, if_false, update_update]
    rw [unlock_of (by simpa using valid) (by simpa [HandleInUse, items_update, lockItem] using used),
      Outcome.ok_bind, update_update]
    simp [update, lockItem, undone]

/-- Giving back a reference that was just counted leaves the pool as it was. -/
theorem reference_release (type : PoolType α) {pool after : Pool α} {handle result : ℕ}
    (counted : result ≠ 0) (success : pool.reference handle = .ok (result, after)) :
    result = handle ∧ after.release type handle = .ok (0, pool) := by
  have both := success
  simp only [reference, Outcome.bind_eq_ok, Outcome.assertThat_eq_ok] at both
  rcases both with ⟨_, _, ⟨status, locked⟩, lockOk, rest⟩
  rcases lock_eq_ok lockOk with ⟨valid, used, rfl, works⟩
  by_cases failed : status ≠ 0
  · simp only [failed, if_false, Except.ok.injEq, Prod.mk.injEq] at rest
    exact absurd rest.1.symm counted
  · have worked : status = 0 := not_not.mp failed
    simp only [worked, if_true, Outcome.bind_eq_ok, Outcome.assertThat_eq_ok] at rest
    rcases rest with ⟨_, _, _, positive, _⟩
    have live : 0 < (pool.items handle).references := by
      simpa [items_update, lockItem] using positive
    rcases reference_eq_ok success with ⟨_, _, ⟨zero, _⟩ | ⟨same, rfl⟩⟩
    · exact absurd zero counted
    · refine ⟨same, ?_⟩
      rw [release_of_many, update_update, update_id]
      · simp
      · rw [lock_of (by simpa using valid) (by simpa [HandleInUse, items_update] using used)]
        simp [items_update, ← works, worked]
      · simp [items_update, live]

/-- The last release of an object that can be locked frees its item. -/
theorem release_of_last {type : PoolType α} {pool : Pool α} {handle : ℕ}
    (valid : pool.HandleValid handle) (used : pool.HandleInUse handle)
    (unlocked : ∀ mutex ∈ (pool.items handle).mutex, mutex.depth = 0)
    (last : (pool.items handle).references = 1) :
    pool.release type handle = .ok (0, pool.freed type handle) := by
  have lockedUsed : (pool.update handle lockItem).HandleInUse handle := by
    simpa [HandleInUse, items_update, lockItem] using used
  have lockedLast : ((pool.update handle lockItem).items handle).references = 1 := by
    simpa [items_update, lockItem] using last
  rw [release, Outcome.assertThat_of valid, Outcome.ok_bind, lock_of_unlocked valid used unlocked]
  simp only [Outcome.ok_bind, if_true, Outcome.assertThat_of lockedUsed, lockedLast,
    Outcome.assertThat_of Nat.one_pos, update_update]
  rw [addToFreeList_of_inUse (by simpa using valid)
    (by simpa [HandleInUse, items_update, lockItem] using used), Outcome.ok_bind, update_update]
  rfl

/-- Releasing an object that was just allocated leaves every count as it was. -/
theorem allocate_release {type : PoolType α} {memory : Memory} {flags : Flags8}
    {pool after : Pool α} {handle : ℕ} (nonzero : handle ≠ 0)
    (success : pool.allocate type memory flags = .ok (handle, after))
    (unlocked : ∀ mutex ∈ (after.items handle).mutex, mutex.depth = 0) :
    ∃ released, after.release type handle = .ok (0, released) ∧
      ∀ other, pool.HandleValid other →
        (released.items other).references = (pool.items other).references := by
  rcases allocate_eq_ok nonzero success with ⟨ready, mutex, rfl, valid, zero, _, source⟩
  refine ⟨_, release_of_last (show ready.HandleValid handle from valid)
    (by simp [initialised, HandleInUse, items_update]) unlocked
    (by simp [initialised, items_update]), ?_⟩
  intro other otherValid
  have ready_items : ready.items other = pool.items other := by
    rcases source with ⟨_, taken⟩ | ⟨_, _, grown⟩
    · rcases takeFirst_eq_ok taken with ⟨_, _, rfl⟩
      rfl
    · rcases grow_eq_ok (Nat.lt_of_lt_of_le otherValid.1 otherValid.2) grown with
        ⟨_, _, _, _, _, items⟩
      rw [items, if_pos otherValid.2]
  by_cases same : other = handle
  · rw [same] at ready_items ⊢
    rw [← ready_items, zero]
    simp [freed, items_update]
  · rw [← ready_items]
    simp [freed, initialised, items_update, same]

end Pool

end Dang
