import Dang.Foundations.Chain
import Dang.Foundations.Run
import Dang.Pool.Operations

/-!
# The free list of a pool

The free list is threaded through `m_next_free`, the field that also marks the
items in use. This file states when it is exact and settles over which runs of
`POOL_ALLOCATE`, `POOL_REFERENCE` and `POOL_RELEASE` it stays exact: those in which
no release gives up the last reference to an object. The scan of
`_POOL_ADD_TO_FREE_LIST` starts at the item being freed, which is still marked in
use, so the item is linked to itself and not into the list.
-/

namespace Dang

variable {α : Type}

namespace Pool

/-- The free list is exact: from the head it visits each handle that is not in use once,
none that is in use, and ends at zero; and the counters agree with it. -/
structure FreeList (pool : Pool α) (members : List ℕ) : Prop where
  chain : Chain 0 pool.nextFree pool.freeListHead members
  nodup : members.Nodup
  mem_iff : ∀ handle, handle ∈ members ↔ pool.HandleValid handle ∧ ¬pool.HandleInUse handle
  length : members.length = pool.freeCount
  total : pool.count + pool.freeCount = pool.allocatedCount

namespace FreeList

/-- Changing an item's object, references or mutex leaves the free list alone. -/
theorem update {pool : Pool α} {members : List ℕ} {handle : ℕ}
    {change : Wrapper α → Wrapper α} (exact : pool.FreeList members)
    (keeps : (change (pool.items handle)).nextFree = (pool.items handle).nextFree) :
    (pool.update handle change).FreeList members := by
  have same : (pool.update handle change).nextFree = pool.nextFree := by
    funext other
    by_cases here : other = handle
    · simp [nextFree, items_update, here, keeps]
    · simp [nextFree, items_update, here]
  have used : ∀ other, (pool.update handle change).HandleInUse other ↔ pool.HandleInUse other := by
    intro other
    exact iff_of_eq (congrArg (· = stateInUse) (congrFun same other))
  refine ⟨?_, exact.nodup, ?_, exact.length, exact.total⟩
  · rw [same]
    exact exact.chain
  · intro other
    rw [handleValid_update, used]
    exact exact.mem_iff other

/-- Setting up the item `handle` as in use takes it off the free handles. -/
theorem initialised {type : PoolType α} {ready : Pool α} {members : List ℕ} {handle : ℕ}
    {mutex : Option Mutex} (chain : Chain 0 ready.nextFree ready.freeListHead members)
    (nodup : members.Nodup)
    (mem_iff : ∀ other, other ∈ members ↔
      other ≠ handle ∧ ready.HandleValid other ∧ ¬ready.HandleInUse other)
    (length : members.length = ready.freeCount)
    (total : ready.count + 1 + ready.freeCount = ready.allocatedCount) :
    (ready.initialised type handle mutex).FreeList members := by
  have elsewhere : ∀ other, other ≠ handle →
      (ready.initialised type handle mutex).items other = ready.items other := by
    intro other different
    simp [Pool.initialised, Pool.update, different]
  have here : (ready.initialised type handle mutex).HandleInUse handle := by
    simp [HandleInUse, Pool.initialised, Pool.update]
  refine ⟨?_, nodup, ?_, length, total⟩
  · apply chain.congr
    intro member mem
    rw [nextFree, elsewhere member ((mem_iff member).mp mem).1, nextFree]
  · intro other
    rw [mem_iff other]
    by_cases same : other = handle
    · subst same
      simp [here]
    · have used : (ready.initialised type handle mutex).HandleInUse other ↔
          ready.HandleInUse other := by
        rw [HandleInUse, elsewhere other same, HandleInUse]
      rw [used]
      exact ⟨fun given => given.2, fun given => ⟨same, given⟩⟩

end FreeList

end Pool

/-- A pool and the references its callers hold. -/
structure PoolState (α : Type) where
  pool : Pool α
  /-- How many references to each handle the callers hold. -/
  held : ℕ → ℕ

/-- The calls a caller makes on a pool. -/
inductive PoolCall
  | allocate (flags : Flags8)
  | reference (handle : ℕ)
  | release (handle : ℕ)
  deriving DecidableEq, Repr

namespace PoolState

/-- One call that returns, with storage at hand, on a handle the callers hold. -/
def Step (type : PoolType α) (source : PoolState α) (call : PoolCall) (target : PoolState α) :
    Prop :=
  match call with
  | .allocate flags => ∃ memory handle,
      source.pool.allocate type memory flags = .ok (handle, target.pool) ∧ handle ≠ 0 ∧
        target.held = Function.update source.held handle (source.held handle + 1)
  | .reference handle => 0 < source.held handle ∧ ∃ result,
      source.pool.reference handle = .ok (result, target.pool) ∧
        target.held = if result = 0 then source.held
          else Function.update source.held handle (source.held handle + 1)
  | .release handle => 0 < source.held handle ∧ ∃ status,
      source.pool.release type handle = .ok (status, target.pool) ∧
        target.held = if status = 0
          then Function.update source.held handle (source.held handle - 1) else source.held

/-- The state after `POOL_INIT`. -/
def Initial (type : PoolType α) (state : PoolState α) : Prop :=
  (∃ memory, Pool.init type memory = .ok (0, state.pool)) ∧ state.held = fun _ => 0

/-- The free list is exact, and the next `POOL_ALLOCATE` fails no assertion. -/
def FreeListExact (type : PoolType α) (state : PoolState α) : Prop :=
  (∃ members, state.pool.FreeList members) ∧
    ∀ memory flags, memory.calloc 1 sizeofMutex = true →
      ∃ result, state.pool.allocate type memory flags = .ok result

/-- The call does not give up the last reference to an object. -/
def KeepsObject (state : PoolState α) (call : PoolCall) : Prop :=
  match call with
  | .release handle => state.held handle ≠ 1
  | _ => True

/-- What every call that keeps the objects preserves, in a pool of at least `least` items. -/
structure Sound (least : ℕ) (state : PoolState α) : Prop where
  positive : 0 < state.pool.allocatedCount
  enough : least ≤ state.pool.allocatedCount
  bounded : state.pool.allocatedCount < stateInUse
  list : ∃ members, state.pool.FreeList members
  used : ∀ handle, state.pool.HandleValid handle → state.pool.HandleInUse handle →
    (state.pool.items handle).references = state.held handle ∧ 0 < state.held handle
  free : ∀ handle, state.pool.HandleValid handle → ¬state.pool.HandleInUse handle →
    (state.pool.items handle).references = 0
  unheld : ∀ handle, ¬(state.pool.HandleValid handle ∧ state.pool.HandleInUse handle) →
    state.held handle = 0
  unlocked : ∀ handle, ∀ mutex ∈ (state.pool.items handle).mutex, mutex.depth = 0

theorem wrapperSize_bound {type : PoolType α} {count : ℕ}
    (fits : count * type.wrapperSize ≤ sizeMax) : count < stateInUse := by
  have larger : count * 24 ≤ count * type.wrapperSize :=
    Nat.mul_le_mul_left count (by simp [PoolType.wrapperSize])
  simp only [stateInUse]
  have value : sizeMax = 18446744073709551615 := by decide
  omega

theorem sound_of_initial {type : PoolType α} {state : PoolState α} {least : ℕ}
    (enough : least ≤ type.initialSize) (initial : state.Initial type) : state.Sound least := by
  rcases initial with ⟨⟨memory, success⟩, none_held⟩
  rcases Pool.init_eq_ok success with ⟨positive, fits, allocated, count, free, head, items⟩
  have bounded := wrapperSize_bound fits
  have next : ∀ handle, state.pool.nextFree handle =
      if 1 ≤ handle ∧ handle < type.initialSize then handle + 1 else 0 := by
    intro handle
    rw [Pool.nextFree, items]
  have unused : ∀ handle, ¬state.pool.HandleInUse handle := by
    intro handle used
    change state.pool.nextFree handle = stateInUse at used
    rw [next] at used
    by_cases inner : 1 ≤ handle ∧ handle < type.initialSize
    · rw [if_pos inner] at used
      omega
    · rw [if_neg inner] at used
      omega
  refine ⟨by omega, by omega, by omega, ⟨List.range' 1 type.initialSize, ?_⟩, ?_, ?_, ?_, ?_⟩
  · refine ⟨?_, List.nodup_range', ?_, by simp [free], by omega⟩
    · rw [head, show type.initialSize = type.initialSize - 1 + 1 by omega]
      apply Chain.range' (by omega)
      · intro handle lower upper
        rw [next, if_pos (by omega)]
      · rw [next, if_neg (by omega)]
    · intro handle
      simp only [List.mem_range'_1, unused, not_false_eq_true, and_true, Pool.HandleValid,
        allocated]
      omega
  · intro handle _ used
    exact absurd used (unused handle)
  · intro handle _ _
    rw [items]
    rfl
  · intro handle _
    rw [none_held]
  · intro handle mutex mem
    rw [items] at mem
    simp [PoolType.zeroWrapper] at mem

/-- The allocated item is held once; the others are as they were before it was set up. -/
theorem Sound.initialised {type : PoolType α} {ready : Pool α} {held : ℕ → ℕ}
    {members : List ℕ} {handle least : ℕ} {mutex : Option Mutex}
    (positive : 0 < ready.allocatedCount) (enough : least ≤ ready.allocatedCount)
    (bounded : ready.allocatedCount < stateInUse)
    (list : (ready.initialised type handle mutex).FreeList members)
    (valid : ready.HandleValid handle) (fresh : held handle = 0)
    (used : ∀ other, other ≠ handle → ready.HandleValid other → ready.HandleInUse other →
      (ready.items other).references = held other ∧ 0 < held other)
    (free : ∀ other, other ≠ handle → ready.HandleValid other → ¬ready.HandleInUse other →
      (ready.items other).references = 0)
    (unheld : ∀ other, other ≠ handle →
      ¬(ready.HandleValid other ∧ ready.HandleInUse other) → held other = 0)
    (unlocked : ∀ other, ∀ owned ∈ (ready.items other).mutex, owned.depth = 0)
    (mutex_free : mutex = (ready.items handle).mutex ∨ ∀ owned ∈ mutex, owned.depth = 0) :
    Sound least ⟨ready.initialised type handle mutex,
      Function.update held handle (held handle + 1)⟩ := by
  have elsewhere : ∀ other, other ≠ handle →
      (ready.initialised type handle mutex).items other = ready.items other := by
    intro other different
    simp [Pool.initialised, Pool.update, different]
  have here : (ready.initialised type handle mutex).items handle =
      ⟨type.init (ready.items handle).object, 1, mutex, stateInUse⟩ := by
    simp [Pool.initialised, Pool.update]
  have marks : ∀ other, other ≠ handle →
      ((ready.initialised type handle mutex).HandleInUse other ↔ ready.HandleInUse other) := by
    intro other different
    rw [Pool.HandleInUse, elsewhere other different, Pool.HandleInUse]
  refine ⟨positive, enough, bounded, ⟨members, list⟩, ?_, ?_, ?_, ?_⟩
  · intro other otherValid inUse
    by_cases same : other = handle
    · subst same
      simp [here, fresh]
    · simp only [elsewhere other same, Function.update_of_ne same]
      exact used other same otherValid ((marks other same).mp inUse)
  · intro other otherValid unused
    by_cases same : other = handle
    · subst same
      exact absurd (congrArg Wrapper.nextFree here) unused
    · simp only [elsewhere other same]
      exact free other same otherValid (fun inUse => unused ((marks other same).mpr inUse))
  · intro other notUsed
    by_cases same : other = handle
    · subst same
      exact absurd ⟨valid, congrArg Wrapper.nextFree here⟩ notUsed
    · simp only [Function.update_of_ne same]
      apply unheld other same
      intro given
      exact notUsed ⟨given.1, (marks other same).mpr given.2⟩
  · intro other owned mem
    by_cases same : other = handle
    · subst same
      simp only [here] at mem
      rcases mutex_free with kept | unowned
      · exact unlocked other owned (kept ▸ mem)
      · exact unowned owned mem
    · simp only [elsewhere other same] at mem
      exact unlocked other owned mem

/-- Allocating from the free list keeps the state sound. -/
theorem Sound.takeFirst {type : PoolType α} {state : PoolState α} {ready : Pool α}
    {handle least : ℕ} {mutex : Option Mutex} (sound : state.Sound least)
    (some : 0 < state.pool.freeCount) (taken : state.pool.takeFirst = .ok (handle, ready))
    (mutex_free : mutex = (ready.items handle).mutex ∨ ∀ owned ∈ mutex, owned.depth = 0) :
    Sound least ⟨ready.initialised type handle mutex,
      Function.update state.held handle (state.held handle + 1)⟩ := by
  rcases Pool.takeFirst_eq_ok taken with ⟨valid, rfl, rfl⟩
  rcases sound.list with ⟨members, exact⟩
  cases members with
  | nil =>
      have length := exact.length
      simp only [List.length_nil] at length
      omega
  | cons first rest =>
      have chain := exact.chain
      have headEq := chain.1
      have nodup := List.nodup_cons.mp exact.nodup
      have firstFree := (exact.mem_iff first).mp List.mem_cons_self
      have length := exact.length
      have total := exact.total
      simp only [List.length_cons] at length
      rw [headEq] at valid mutex_free ⊢
      have list : (Pool.initialised type { state.pool with
          freeListHead := state.pool.nextFree first, freeCount := state.pool.freeCount - 1 }
          first mutex).FreeList rest := by
        apply Pool.FreeList.initialised
        · exact chain.2.2
        · exact nodup.2
        · intro other
          constructor
          · intro mem
            refine ⟨?_, (exact.mem_iff other).mp (List.mem_cons_of_mem _ mem)⟩
            rintro rfl
            exact nodup.1 mem
          · rintro ⟨different, isFree⟩
            rcases List.mem_cons.mp ((exact.mem_iff other).mpr isFree) with same | later
            · exact absurd same different
            · exact later
        · change rest.length = state.pool.freeCount - 1
          omega
        · change state.pool.count + 1 + (state.pool.freeCount - 1) = state.pool.allocatedCount
          omega
      exact Sound.initialised sound.positive sound.enough sound.bounded list valid
        (sound.unheld first (fun given => firstFree.2 given.2))
        (fun other _ => sound.used other) (fun other _ => sound.free other)
        (fun other _ => sound.unheld other) sound.unlocked mutex_free

/-- Allocating from a pool of several items that grows keeps the state sound. -/
theorem Sound.grow {type : PoolType α} {state : PoolState α} {ready : Pool α}
    {handle least : ℕ} {mutex : Option Mutex} (sound : state.Sound least)
    (several : 2 ≤ state.pool.allocatedCount) (none : state.pool.freeCount = 0)
    (fits : 2 * state.pool.allocatedCount * type.wrapperSize ≤ sizeMax)
    (grown : state.pool.grow type = .ok (handle, ready))
    (mutex_free : mutex = (ready.items handle).mutex ∨ ∀ owned ∈ mutex, owned.depth = 0) :
    Sound least ⟨ready.initialised type handle mutex,
      Function.update state.held handle (state.held handle + 1)⟩ := by
  have enough := sound.enough
  rcases Pool.grow_eq_ok sound.positive grown with ⟨rfl, allocated, count, free, head, items⟩
  have bounded := wrapperSize_bound fits
  rcases sound.list with ⟨members, exact⟩
  have total := exact.total
  have noMembers : members = [] := List.length_eq_zero_iff.mp (by rw [exact.length, none])
  have allUsed : ∀ other, state.pool.HandleValid other → state.pool.HandleInUse other := by
    intro other otherValid
    by_contra unused
    have mem := (exact.mem_iff other).mpr ⟨otherValid, unused⟩
    simp [noMembers] at mem
  have oldItems : ∀ other, other ≤ state.pool.allocatedCount →
      ready.items other = state.pool.items other := by
    intro other old
    rw [items, if_pos old]
  have oldMarks : ∀ other, other ≤ state.pool.allocatedCount →
      (ready.HandleInUse other ↔ state.pool.HandleInUse other) := by
    intro other old
    rw [Pool.HandleInUse, oldItems other old, Pool.HandleInUse]
  have newNext : ∀ other, ¬other ≤ state.pool.allocatedCount → ready.nextFree other =
      if state.pool.allocatedCount + 2 ≤ other ∧ other < 2 * state.pool.allocatedCount
        then other + 1 else 0 := by
    intro other new
    rw [Pool.nextFree, items, if_neg new]
  have newUnused : ∀ other, ¬other ≤ state.pool.allocatedCount → ¬ready.HandleInUse other := by
    intro other new used
    change ready.nextFree other = stateInUse at used
    rw [newNext other new] at used
    split at used <;> omega
  have list : (ready.initialised type (state.pool.allocatedCount + 1) mutex).FreeList
      (List.range' (state.pool.allocatedCount + 2) (state.pool.allocatedCount - 2 + 1)) := by
    apply Pool.FreeList.initialised
    · rw [head]
      apply Chain.range' (by omega)
      · intro other lower upper
        rw [newNext other (by omega), if_pos (by omega)]
      · rw [newNext _ (by omega), if_neg (by omega)]
    · exact List.nodup_range'
    · intro other
      simp only [List.mem_range'_1, Pool.HandleValid, allocated]
      by_cases old : other ≤ state.pool.allocatedCount
      · constructor
        · omega
        · rintro ⟨_, ⟨positive, _⟩, unused⟩
          exact absurd ((oldMarks other old).mpr (allUsed other ⟨positive, old⟩)) unused
      · have unused := newUnused other old
        simp only [unused, not_false_eq_true, and_true]
        omega
    · simp only [List.length_range', free]
      omega
    · omega
  have unheldNew : ∀ other, ¬other ≤ state.pool.allocatedCount → state.held other = 0 := by
    intro other new
    exact sound.unheld other (fun given => new given.1.2)
  refine Sound.initialised (by omega) (by omega) (by omega) list ⟨by omega, by omega⟩
    (unheldNew _ (by omega)) ?_ ?_ ?_ ?_ mutex_free
  · intro other _ otherValid used
    by_cases old : other ≤ state.pool.allocatedCount
    · rw [oldItems other old]
      exact sound.used other ⟨otherValid.1, old⟩ ((oldMarks other old).mp used)
    · exact absurd used (newUnused other old)
  · intro other _ otherValid unused
    by_cases old : other ≤ state.pool.allocatedCount
    · exact absurd ((oldMarks other old).mpr (allUsed other ⟨otherValid.1, old⟩)) unused
    · rw [items, if_neg old]
      rfl
  · intro other _ notUsed
    by_cases old : other ≤ state.pool.allocatedCount
    · apply sound.unheld
      intro given
      exact notUsed ⟨⟨given.1.1, by omega⟩, (oldMarks other old).mpr given.2⟩
    · exact unheldNew other old
  · intro other owned mem
    by_cases old : other ≤ state.pool.allocatedCount
    · rw [oldItems other old] at mem
      exact sound.unlocked other owned mem
    · rw [items, if_neg old] at mem
      simp [PoolType.zeroWrapper] at mem

/-- A change of the reference count alone keeps the state sound, if the count stays that
of the references held and positive. -/
theorem Sound.updateReferences {state : PoolState α} {handle count least : ℕ}
    (sound : state.Sound least)
    (valid : state.pool.HandleValid handle) (used : state.pool.HandleInUse handle)
    (positive : 0 < count) :
    Sound least ⟨state.pool.update handle (fun wrapper => { wrapper with references := count }),
      Function.update state.held handle count⟩ := by
  rcases sound.list with ⟨members, exact⟩
  have marks : ∀ other, (state.pool.update handle
      (fun wrapper => { wrapper with references := count })).HandleInUse other ↔
        state.pool.HandleInUse other := by
    intro other
    by_cases same : other = handle
    · simp [Pool.HandleInUse, Pool.items_update, same]
    · simp [Pool.HandleInUse, Pool.items_update, same]
  have list : (state.pool.update handle
      (fun wrapper => { wrapper with references := count })).FreeList members := exact.update rfl
  refine ⟨sound.positive, sound.enough, sound.bounded, ⟨members, list⟩, ?_, ?_, ?_, ?_⟩
  · intro other otherValid inUse
    by_cases same : other = handle
    · subst same
      simp [Pool.items_update, positive]
    · simp only [Pool.items_update, if_neg same, Function.update_of_ne same]
      exact sound.used other otherValid ((marks other).mp inUse)
  · intro other otherValid unused
    have free : ¬state.pool.HandleInUse other := fun inUse => unused ((marks other).mpr inUse)
    by_cases same : other = handle
    · subst same
      exact absurd used free
    · simp only [Pool.items_update, if_neg same]
      exact sound.free other otherValid free
  · intro other notUsed
    by_cases same : other = handle
    · subst same
      exact absurd ⟨valid, (marks other).mpr used⟩ notUsed
    · simp only [Function.update_of_ne same]
      apply sound.unheld
      intro given
      exact notUsed ⟨given.1, (marks other).mpr given.2⟩
  · intro other owned mem
    by_cases same : other = handle
    · subst same
      simp only [Pool.items_update, if_true] at mem
      exact sound.unlocked other owned mem
    · simp only [Pool.items_update, if_neg same] at mem
      exact sound.unlocked other owned mem

/-- A step that keeps the objects, and does not grow a pool of one item, keeps the state
sound. -/
theorem Sound.step {type : PoolType α} {source target : PoolState α} {least : ℕ}
    (sound : source.Sound least) (call : PoolCall) (keeps : source.KeepsObject call)
    (several : 0 < source.pool.freeCount ∨ 2 ≤ source.pool.allocatedCount)
    (step : source.Step type call target) : target.Sound least := by
  rcases target with ⟨after, held⟩
  cases call with
  | allocate flags =>
      rcases step with ⟨memory, handle, success, nonzero, rfl⟩
      rcases Pool.allocate_eq_ok nonzero success with
        ⟨ready, mutex, rfl, _, _, mutex_free, taken | grown⟩
      · exact sound.takeFirst taken.1 taken.2 mutex_free
      · exact sound.grow (by omega) grown.1 grown.2.1 grown.2.2 mutex_free
  | reference handle =>
      rcases step with ⟨_, result, success, heldEq⟩
      rcases Pool.reference_eq_ok success with ⟨valid, used, failed | counted⟩
      · rcases failed with ⟨rfl, rfl⟩
        rw [if_pos rfl] at heldEq
        subst heldEq
        exact sound
      · rcases counted with ⟨rfl, rfl⟩
        rw [if_neg (by have := valid.1; omega)] at heldEq
        subst heldEq
        have count := (sound.used result valid used).1
        rw [Pool.update_congr (fun wrapper =>
          { wrapper with references := source.held result + 1 }) (by simp only [count])]
        exact sound.updateReferences valid used (by omega)
  | release handle =>
      rcases step with ⟨_, status, success, heldEq⟩
      rcases Pool.release_eq_ok success with ⟨valid, used, failed | counted | last⟩
      · rcases failed with ⟨nonzero, rfl, _⟩
        rw [if_neg nonzero] at heldEq
        subst heldEq
        exact sound
      · rcases counted with ⟨rfl, several, rfl⟩
        rw [if_pos rfl] at heldEq
        subst heldEq
        have count := (sound.used handle valid used).1
        rw [Pool.update_congr (fun wrapper =>
          { wrapper with references := source.held handle - 1 }) (by simp only [count])]
        exact sound.updateReferences valid used (by omega)
      · have count := (sound.used handle valid used).1
        exact absurd (count.symm.trans last.2.1) keeps

/-- After the last release the list no longer holds every free handle: the one released
is linked to itself, and no chain from the head reaches it. -/
theorem not_freeList_freed {type : PoolType α} {pool : Pool α} {members others : List ℕ}
    {handle : ℕ} (bounded : pool.allocatedCount < stateInUse) (exact : pool.FreeList members)
    (valid : pool.HandleValid handle) (used : pool.HandleInUse handle) :
    ¬(pool.freed type handle).FreeList others := by
  intro broken
  have notMember : handle ∉ members := fun mem => ((exact.mem_iff handle).mp mem).2 used
  have sameChain : Chain 0 (pool.freed type handle).nextFree pool.freeListHead members := by
    apply exact.chain.congr
    intro member mem
    have different : member ≠ handle := fun same => notMember (same ▸ mem)
    simp [Pool.nextFree, Pool.freed, Pool.update, different]
  have sameMembers : members = others := sameChain.unique broken.chain
  apply notMember
  rw [sameMembers, broken.mem_iff]
  refine ⟨valid, ?_⟩
  have loop : (pool.freed type handle).nextFree handle = handle := by
    simp [Pool.nextFree, Pool.freed, Pool.update]
  intro stillUsed
  change (pool.freed type handle).nextFree handle = stateInUse at stillUsed
  have small := valid.2
  omega

/-- A step from a sound state to one whose free list is exact keeps the objects. -/
theorem Sound.keepsObject {type : PoolType α} {source target : PoolState α} {call : PoolCall}
    {least : ℕ} (sound : source.Sound least) (step : source.Step type call target)
    (exact : target.FreeListExact type) : source.KeepsObject call := by
  cases call with
  | allocate flags => trivial
  | reference handle => trivial
  | release handle =>
      intro once
      rcases step with ⟨_, status, success, _⟩
      rcases Pool.release_eq_ok success with ⟨valid, used, failed | counted | last⟩
      · rcases failed with ⟨_, _, mutex, mem, locked⟩
        exact locked (sound.unlocked handle mutex mem)
      · have count := (sound.used handle valid used).1
        omega
      · rcases exact.1 with ⟨others, broken⟩
        rcases sound.list with ⟨members, before⟩
        rw [last.2.2] at broken
        exact not_freeList_freed sound.bounded before valid used broken

theorem initialise_returns {type : PoolType α} {memory : Memory} {flags : Flags8} {pool : Pool α}
    {handle : ℕ} (storage : memory.calloc 1 sizeofMutex = true)
    (valid : pool.HandleValid handle) (unreferenced : (pool.items handle).references = 0) :
    ∃ result, pool.initialise type memory flags handle = .ok result := by
  simp only [Pool.initialise, Pool.wrapper, Pool.setNextFree, Pool.modify, valid, if_true,
    Outcome.ok_bind, Outcome.assertThat_of unreferenced, Pool.handleValid_update,
    Outcome.assertThat_of storage]
  by_cases shared : flags &&& flagShared ≠ 0
  · exact ⟨_, if_pos shared⟩
  · exact ⟨_, if_neg shared⟩

/-- In a sound state the next `POOL_ALLOCATE` fails no assertion. -/
theorem Sound.allocate_returns {type : PoolType α} {state : PoolState α} {memory : Memory}
    {flags : Flags8} {least : ℕ} (sound : state.Sound least)
    (storage : memory.calloc 1 sizeofMutex = true) :
    ∃ result, state.pool.allocate type memory flags = .ok result := by
  rcases sound.list with ⟨members, exact⟩
  by_cases some : 0 < state.pool.freeCount
  · cases members with
    | nil =>
        have length := exact.length
        simp only [List.length_nil] at length
        omega
    | cons first rest =>
        have headEq : state.pool.freeListHead = first := exact.chain.1
        have nonzero : first ≠ 0 := exact.chain.2.1
        rcases (exact.mem_iff first).mp List.mem_cons_self with ⟨valid, unused⟩
        have unreferenced := sound.free first valid unused
        simp only [Pool.allocate, some, if_true, Pool.takeFirst, Pool.wrapper, headEq, valid,
          Outcome.assertThat_of nonzero, Outcome.ok_bind]
        exact initialise_returns storage valid unreferenced
  · by_cases room : memory.calloc (2 * state.pool.allocatedCount) type.wrapperSize = true
    · have positive := sound.positive
      rcases Pool.grow_returns type positive with ⟨⟨handle, ready⟩, grown⟩
      rcases Pool.grow_eq_ok positive grown with ⟨rfl, allocated, _, _, _, items⟩
      simp only [Pool.allocate, some, room, if_true, if_false, grown, Outcome.ok_bind]
      apply initialise_returns storage
      · exact ⟨by omega, by omega⟩
      · rw [items, if_neg (by omega)]
        rfl
    · simp [Pool.allocate, some, room]

theorem Sound.freeListExact {type : PoolType α} {state : PoolState α} {least : ℕ}
    (sound : state.Sound least) : state.FreeListExact type :=
  ⟨sound.list, fun _ _ storage => sound.allocate_returns storage⟩

/-- The free list is exact in every state of a run if and only if no release of the run
gives up the last reference to an object. -/
theorem freeListExact_iff_keepsObject {type : PoolType α} {start : PoolState α}
    {steps : List (PoolCall × PoolState α)} (enough : 2 ≤ type.initialSize)
    (initial : start.Initial type) (run : IsRun (Step type) start steps) :
    (∀ state ∈ visited start steps, state.FreeListExact type) ↔
      StepsMeet KeepsObject start steps := by
  apply IsRun.forall_visited_iff (Step type) (Sound 2)
  · intro source call target sound keeps step
    exact sound.step call keeps (Or.inr sound.enough) step
  · intro state sound
    exact sound.freeListExact
  · intro source call target sound step exact
    exact sound.keepsObject step exact
  · exact sound_of_initial enough initial
  · exact run

section TwoItems

/-- Objects without contents, with room for two at first. -/
def unitType : PoolType Unit where
  initialSize := 2
  objectSize := 8
  mutexKind := .errorcheck
  zero := ()
  init := id
  destroy := id

/-- The pool of two items, before any call. -/
def unitStart : PoolState Unit where
  pool :=
    { allocatedCount := 2
      count := 0
      freeCount := 2
      items := Function.update (Function.update (fun _ => unitType.zeroWrapper) 1 ⟨(), 0, none, 2⟩)
        2 ⟨(), 0, none, 0⟩
      freeListHead := 1 }
  held := fun _ => 0

/-- The first item allocated. -/
def unitAllocated : PoolState Unit where
  pool := ((unitStart.pool.allocate unitType Memory.ample 0).toOption.getD (0, unitStart.pool)).2
  held := Function.update (fun _ => 0) 1 1

/-- The first item allocated and released. -/
def unitReleased : PoolState Unit where
  pool := ((unitAllocated.pool.release unitType 1).toOption.getD (0, unitStart.pool)).2
  held := Function.update unitAllocated.held 1 0

/-- The run that allocates the first item and releases it. -/
def unitSteps : List (PoolCall × PoolState Unit) :=
  [(.allocate 0, unitAllocated), (.release 1, unitReleased)]

theorem unitStart_initial : unitStart.Initial unitType :=
  ⟨⟨Memory.ample, rfl⟩, rfl⟩

theorem unitStart_allocate : unitStart.Step unitType (.allocate 0) unitAllocated :=
  ⟨Memory.ample, 1, rfl, by decide, rfl⟩

theorem unitAllocated_release : unitAllocated.Step unitType (.release 1) unitReleased :=
  ⟨by decide, 0, rfl, rfl⟩

theorem unitSteps_isRun : IsRun (Step unitType) unitStart unitSteps :=
  ⟨unitStart_allocate, unitAllocated_release, trivial⟩

theorem freeListExact_iff_keepsObject_unit :
    (∀ state ∈ visited unitStart unitSteps, state.FreeListExact unitType) ↔
      StepsMeet KeepsObject unitStart unitSteps :=
  freeListExact_iff_keepsObject (by decide) unitStart_initial unitSteps_isRun

/-- One allocation and one release end with a handle that is free and not in the list. -/
theorem release_not_freeListExact :
    unitStart.Initial unitType ∧ IsRun (Step unitType) unitStart unitSteps ∧
      ∃ state ∈ visited unitStart unitSteps, ¬state.FreeListExact unitType := by
  refine ⟨unitStart_initial, unitSteps_isRun, unitReleased, by simp [visited, unitSteps], ?_⟩
  intro exact
  have sound : unitAllocated.Sound 2 :=
    (sound_of_initial (by decide) unitStart_initial).step (.allocate 0) trivial
      (Or.inl (by decide)) unitStart_allocate
  exact sound.keepsObject unitAllocated_release exact rfl

end TwoItems

end PoolState

end Dang
