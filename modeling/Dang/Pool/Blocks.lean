import Dang.Pool.FreeList
import Mathlib.Data.List.Nodup

/-!
# Allocating blocks

`POOL_ALLOCATE_MANY` serves a block of consecutive handles from the free list, or
grows the pool. Neither way keeps `m_free_count` right: a block taken off the list
is not subtracted, and after growing the count is one short of the new items left
over and forgets the items that were free before. So the runs in which the count
and the list stay right are those that never allocate a block.
-/

namespace Dang

variable {α : Type}

namespace Pool

/-- The loop of `_POOL_FIND_FREE_SEQUENCE_UNLOCKED`. -/
def searchSequence (pool : Pool α) (len : ℕ) : ℕ → ℕ → ℕ → ℕ → ℕ → Outcome ℕ
  | 0, _, _, _, _ => .error .outOfFuel
  | fuel + 1, iter, sequence, prev, found =>
      if pool.HandleValid iter then
        if pool.HandleInUse iter then do
          let wrapper ← pool.wrapper prev
          pool.searchSequence len fuel wrapper.nextFree wrapper.nextFree 0 0
        else if found + 1 = len then
          .ok sequence
        else
          pool.searchSequence len fuel (iter + 1) sequence iter (found + 1)
      else
        .ok (if len ≤ found then sequence else 0)

/-- `_POOL_FIND_FREE_SEQUENCE_UNLOCKED` -/
def findFreeSequence (fuel : ℕ) (pool : Pool α) (len : ℕ) : Outcome ℕ := do
  Outcome.assertThat (0 < len)
  if len < pool.freeCount then
    pool.searchSequence len fuel pool.freeListHead pool.freeListHead 0 0
  else
    .ok 0

/-- The loop `while (prev > 0 && POOL_HANDLE_IN_USE(type, prev)) --prev`. -/
def skipInUse (pool : Pool α) : ℕ → ℕ
  | 0 => 0
  | prev + 1 => if pool.HandleInUse (prev + 1) then pool.skipInUse prev else prev + 1

/-- The branch of `POOL_ALLOCATE_MANY` that takes the block off the free list. -/
def unlinkSequence (pool : Pool α) (allocStart many : ℕ) : Outcome (Pool α) := do
  let prev := pool.skipInUse (allocStart - 1)
  let last ← pool.wrapper (allocStart + many - 1)
  if prev = 0 then
    .ok { pool with freeListHead := last.nextFree }
  else
    pool.setNextFree prev last.nextFree

/-- The loop that adds `m_allocated_count` to the new size until the block fits. -/
def growSize (pool : Pool α) (many : ℕ) : ℕ → ℕ → Outcome ℕ
  | 0, _ => .error .outOfFuel
  | fuel + 1, newSize =>
      if newSize < sizeAdd pool.allocatedCount many then
        pool.growSize many fuel (sizeAdd newSize pool.allocatedCount)
      else
        .ok newSize

/-- The walk to the end of the free list. -/
def lastFree (pool : Pool α) : ℕ → ℕ → Outcome ℕ
  | 0, _ => .error .outOfFuel
  | fuel + 1, i => do
      let wrapper ← pool.wrapper i
      if wrapper.nextFree ≠ 0 then pool.lastFree fuel wrapper.nextFree else .ok i

/-- Attaches the new items that are left over, from `leftover` on, to the free list. -/
def attach (fuel : ℕ) (pool : Pool α) (leftover : ℕ) : Outcome (Pool α) :=
  if pool.freeListHead = 0 then
    .ok { pool with freeListHead := leftover }
  else do
    let i ← pool.lastFree fuel pool.freeListHead
    pool.setNextFree i leftover

/-- The branch of `POOL_ALLOCATE_MANY` that grows the pool to `newSize` items, the block
after the old ones and the rest at the end of the free list. -/
def growMany (fuel : ℕ) (type : PoolType α) (pool : Pool α) (newSize many : ℕ) :
    Outcome (Pool α) := do
  let allocStart := pool.allocatedCount + 1
  let leftover := sizeAdd allocStart many
  let pool ← (moveItems type pool newSize).attach fuel leftover
  let pool ← pool.linkRange leftover (newSize - leftover)
  let pool ← pool.setNextFree newSize 0
  .ok { pool with freeCount := sizeSub newSize leftover }

/-- Gives the item a mutex if the flags ask for one. A mutex whose `pthread_mutex_init`
failed must not be locked. -/
def shareItem (type : PoolType α) (memory : Memory) (flags : Flags8) (pool : Pool α)
    (i : ℕ) : Outcome (Pool α) :=
  if flags &&& flagShared ≠ 0 then do
    Outcome.assertThat (memory.calloc 1 sizeofMutex)
    if memory.mutexInit then
      pool.modify i (fun wrapper => { wrapper with mutex := some ⟨type.mutexKind, 0⟩ })
    else
      .error .invalidAccess
  else
    .ok pool

/-- One round of the loop of `POOL_ALLOCATE_MANY` that sets up the items. -/
def initialiseItem (type : PoolType α) (memory : Memory) (flags : Flags8) (pool : Pool α)
    (i : ℕ) : Outcome (Pool α) := do
  let wrapper ← pool.wrapper i
  Outcome.assertThat (wrapper.references = 0)
  let pool ← pool.shareItem type memory flags i
  let pool ← pool.setNextFree i stateInUse
  let (status, pool) ← pool.lock i
  if status = 0 then
    let pool ← pool.modify i (fun wrapper =>
      { wrapper with references := 1, object := type.init wrapper.object })
    pool.unlock i
  else
    .ok pool

/-- The loop of `POOL_ALLOCATE_MANY` that sets up the items from `i` on. -/
def initialiseItems (type : PoolType α) (memory : Memory) (flags : Flags8) (pool : Pool α)
    (i : ℕ) : ℕ → Outcome (Pool α)
  | 0 => .ok pool
  | rounds + 1 => do
      let pool ← pool.initialiseItem type memory flags i
      pool.initialiseItems type memory flags (i + 1) rounds

/-- `POOL_ALLOCATE_MANY`: the first handle of the block, or zero when there is no storage
to grow into. -/
def allocateMany (fuel : ℕ) (type : PoolType α) (memory : Memory) (many : ℕ) (flags : Flags8)
    (pool : Pool α) : Outcome (ℕ × Pool α) := do
  Outcome.assertThat (0 < many)
  let found ← pool.findFreeSequence fuel many
  if found ≠ 0 then
    let pool ← pool.unlinkSequence found many
    let pool ← pool.initialiseItems type memory flags found (sizeAdd found many - found)
    .ok (found, { pool with count := sizeAdd pool.count many })
  else
    let allocStart := pool.allocatedCount + 1
    let newSize ← pool.growSize many fuel pool.allocatedCount
    if memory.calloc newSize type.wrapperSize then
      let pool ← pool.growMany fuel type newSize many
      let pool ← pool.initialiseItems type memory flags allocStart
        (sizeAdd allocStart many - allocStart)
      .ok (allocStart, { pool with count := sizeAdd pool.count many })
    else
      .ok (0, pool)

/-- The pool has as many items, and as many free ones by its count, as the other. -/
def SameSize (pool other : Pool α) : Prop :=
  pool.allocatedCount = other.allocatedCount ∧ pool.freeCount = other.freeCount

theorem sameSize_modify {pool after : Pool α} {handle : ℕ} {change : Wrapper α → Wrapper α}
    (success : pool.modify handle change = .ok after) : after.SameSize pool := by
  rcases modify_eq_ok.mp success with ⟨_, rfl⟩
  exact ⟨rfl, rfl⟩

theorem sameSize_lock {pool after : Pool α} {handle : ℕ} {status : ℤ}
    (success : pool.lock handle = .ok (status, after)) : after.SameSize pool := by
  rcases lock_eq_ok success with ⟨_, _, rfl, _⟩
  exact ⟨rfl, rfl⟩

theorem sameSize_unlock {pool after : Pool α} {handle : ℕ}
    (success : pool.unlock handle = .ok after) : after.SameSize pool := by
  simp only [unlock, Outcome.bind_eq_ok, Except.ok.injEq] at success
  rcases success with ⟨_, _, _, _, rfl⟩
  exact ⟨rfl, rfl⟩

theorem SameSize.trans {first second third : Pool α} (left : first.SameSize second)
    (right : second.SameSize third) : first.SameSize third :=
  ⟨left.1.trans right.1, left.2.trans right.2⟩

theorem sameSize_linkRange {pool after : Pool α} {start rounds : ℕ}
    (success : pool.linkRange start rounds = .ok after) : after.SameSize pool := by
  induction rounds generalizing pool start with
  | zero =>
      simp only [linkRange, Except.ok.injEq] at success
      exact success ▸ ⟨rfl, rfl⟩
  | succ rounds ih =>
      simp only [linkRange, Outcome.bind_eq_ok] at success
      rcases success with ⟨linked, first, rest⟩
      exact (ih rest).trans (sameSize_modify first)

theorem sameSize_unlinkSequence {pool after : Pool α} {allocStart many : ℕ}
    (success : pool.unlinkSequence allocStart many = .ok after) : after.SameSize pool := by
  simp only [unlinkSequence, Outcome.bind_eq_ok] at success
  rcases success with ⟨last, _, rest⟩
  split at rest
  · simp only [Except.ok.injEq] at rest
    exact rest ▸ ⟨rfl, rfl⟩
  · exact sameSize_modify rest

theorem sameSize_shareItem {type : PoolType α} {memory : Memory} {flags : Flags8}
    {pool after : Pool α} {i : ℕ}
    (success : pool.shareItem type memory flags i = .ok after) : after.SameSize pool := by
  simp only [shareItem] at success
  split at success
  · simp only [Outcome.bind_eq_ok] at success
    rcases success with ⟨_, _, success⟩
    split at success
    · exact sameSize_modify success
    · simp at success
  · simp only [Except.ok.injEq] at success
    exact success ▸ ⟨rfl, rfl⟩

theorem sameSize_initialiseItem {type : PoolType α} {memory : Memory} {flags : Flags8}
    {pool after : Pool α} {i : ℕ}
    (success : pool.initialiseItem type memory flags i = .ok after) : after.SameSize pool := by
  simp only [initialiseItem, Outcome.bind_eq_ok] at success
  rcases success with ⟨_, _, _, _, shared, sharing, marked, marking, ⟨status, locked⟩, locking, rest⟩
  have sizeLocked := (sameSize_lock locking).trans
    ((sameSize_modify marking).trans (sameSize_shareItem sharing))
  by_cases works : status = 0
  · simp only [works, if_true, Outcome.bind_eq_ok] at rest
    rcases rest with ⟨filled, filling, unlocking⟩
    exact (sameSize_unlock unlocking).trans ((sameSize_modify filling).trans sizeLocked)
  · simp only [works, if_false, Except.ok.injEq] at rest
    exact rest ▸ sizeLocked

theorem sameSize_initialiseItems {type : PoolType α} {memory : Memory} {flags : Flags8}
    {pool after : Pool α} {i rounds : ℕ}
    (success : pool.initialiseItems type memory flags i rounds = .ok after) :
    after.SameSize pool := by
  induction rounds generalizing pool i with
  | zero =>
      simp only [initialiseItems, Except.ok.injEq] at success
      exact success ▸ ⟨rfl, rfl⟩
  | succ rounds ih =>
      simp only [initialiseItems, Outcome.bind_eq_ok] at success
      rcases success with ⟨set, first, rest⟩
      exact (ih rest).trans (sameSize_initialiseItem first)

theorem sameSize_attach {fuel : ℕ} {pool after : Pool α} {leftover : ℕ}
    (success : pool.attach fuel leftover = .ok after) : after.SameSize pool := by
  simp only [attach] at success
  split at success
  · simp only [Except.ok.injEq] at success
    exact success ▸ ⟨rfl, rfl⟩
  · simp only [Outcome.bind_eq_ok] at success
    rcases success with ⟨_, _, success⟩
    exact sameSize_modify success

/-- What growing for a block does to the counts. -/
theorem growMany_eq_ok {fuel : ℕ} {type : PoolType α} {pool after : Pool α} {newSize many : ℕ}
    (success : pool.growMany fuel type newSize many = .ok after) :
    after.allocatedCount = newSize ∧
      after.freeCount = sizeSub newSize (sizeAdd (pool.allocatedCount + 1) many) := by
  simp only [growMany, Outcome.bind_eq_ok, Except.ok.injEq] at success
  rcases success with ⟨joined, joining, linked, linking, last, ending, rfl⟩
  have size := (sameSize_modify ending).trans
    ((sameSize_linkRange linking).trans (sameSize_attach joining))
  exact ⟨size.1, rfl⟩

/-- The two ways in which `POOL_ALLOCATE_MANY` returns a block, and what each does to the
counts. -/
theorem allocateMany_eq_ok {fuel : ℕ} {type : PoolType α} {memory : Memory} {many : ℕ}
    {flags : Flags8} {pool after : Pool α} {start : ℕ} (nonzero : start ≠ 0)
    (success : pool.allocateMany fuel type memory many flags = .ok (start, after)) :
    0 < many ∧ (after.SameSize pool ∨
      after.allocatedCount * type.wrapperSize ≤ sizeMax ∧ start = pool.allocatedCount + 1 ∧
        after.freeCount =
          sizeSub after.allocatedCount (sizeAdd (pool.allocatedCount + 1) many)) := by
  simp only [allocateMany, Outcome.bind_eq_ok, Outcome.assertThat_eq_ok] at success
  rcases success with ⟨_, positive, found, _, rest⟩
  refine ⟨positive, ?_⟩
  by_cases some : found ≠ 0
  · simp only [some, if_true, Outcome.bind_eq_ok, Except.ok.injEq, Prod.mk.injEq, ne_eq,
      not_false_eq_true] at rest
    rcases rest with ⟨unlinked, unlinking, set, setting, _, rfl⟩
    exact Or.inl ((sameSize_initialiseItems setting).trans (sameSize_unlinkSequence unlinking))
  · simp only [some, if_false, Outcome.bind_eq_ok] at rest
    rcases rest with ⟨newSize, _, rest⟩
    by_cases storage : memory.calloc newSize type.wrapperSize = true
    · simp only [storage, if_true, Outcome.bind_eq_ok, Except.ok.injEq, Prod.mk.injEq] at rest
      rcases rest with ⟨grown, growing, set, setting, rfl, rfl⟩
      have size := sameSize_initialiseItems setting
      have counts := growMany_eq_ok growing
      refine Or.inr ⟨?_, rfl, ?_⟩
      · simpa only [size.1, counts.1] using memory.calloc_fits _ _ storage
      · simp only [size.1, size.2, counts.1, counts.2]
    · simp only [storage, Bool.false_eq_true, if_false, Except.ok.injEq, Prod.mk.injEq] at rest
      exact absurd rest.1.symm nonzero

end Pool

/-- A pool and the handles it has handed out. -/
structure BlockState (α : Type) where
  pool : Pool α
  handed : List ℕ

/-- The calls that hand out one handle or a block of them. -/
inductive BlockCall
  | allocate (flags : Flags8)
  | allocateMany (many : ℕ) (flags : Flags8)
  deriving DecidableEq, Repr

namespace BlockState

/-- One call that returns, with storage at hand. -/
def Step (type : PoolType α) (source : BlockState α) (call : BlockCall) (target : BlockState α) :
    Prop :=
  match call with
  | .allocate flags => ∃ memory handle,
      source.pool.allocate type memory flags = .ok (handle, target.pool) ∧ handle ≠ 0 ∧
        target.handed = handle :: source.handed
  | .allocateMany many flags => many ≤ sizeMax ∧ ∃ fuel memory start,
      source.pool.allocateMany fuel type memory many flags = .ok (start, target.pool) ∧
        start ≠ 0 ∧ target.handed = List.range' start many ++ source.handed

/-- The state after `POOL_INIT`. -/
def Initial (type : PoolType α) (state : BlockState α) : Prop :=
  (∃ memory, Pool.init type memory = .ok (0, state.pool)) ∧ state.handed = []

/-- The handles that are not handed out. -/
def freeHandles (state : BlockState α) : List ℕ :=
  (List.range' 1 state.pool.allocatedCount).filter (fun handle => handle ∉ state.handed)

/-- What was handed out lies in the pool and is disjoint, and the count and the free list
are those of the handles that were not. -/
structure BlocksExact (state : BlockState α) : Prop where
  inside : ∀ handle ∈ state.handed, state.pool.HandleValid handle
  disjoint : state.handed.Nodup
  count : state.pool.freeCount = state.freeHandles.length
  list : ∃ members, Chain 0 state.pool.nextFree state.pool.freeListHead members ∧
    members.Perm state.freeHandles

/-- The call allocates one item, and does not grow a pool of one item. -/
def AllocatesItem (state : BlockState α) (call : BlockCall) : Prop :=
  match call with
  | .allocate _ => 0 < state.pool.freeCount ∨ 2 ≤ state.pool.allocatedCount
  | .allocateMany _ _ => False

/-- The state as a caller that holds one reference to each handle sees it. -/
def toPoolState (state : BlockState α) : PoolState α where
  pool := state.pool
  held := fun handle => state.handed.count handle

theorem mem_freeHandles {state : BlockState α} {handle : ℕ} :
    handle ∈ state.freeHandles ↔ state.pool.HandleValid handle ∧ handle ∉ state.handed := by
  simp only [freeHandles, List.mem_filter, List.mem_range'_1, decide_eq_true_eq, Pool.HandleValid,
    Nat.add_comm 1, Nat.lt_succ_iff, Nat.succ_le_iff]

theorem nodup_freeHandles (state : BlockState α) : state.freeHandles.Nodup :=
  List.Nodup.filter _ List.nodup_range'

theorem BlocksExact.length {state : BlockState α} (exact : state.BlocksExact) :
    state.handed.length + state.pool.freeCount = state.pool.allocatedCount := by
  have nodup : (state.handed ++ state.freeHandles).Nodup := by
    apply List.Nodup.append exact.disjoint state.nodup_freeHandles
    intro handle given free
    exact (mem_freeHandles.mp free).2 given
  have every : (state.handed ++ state.freeHandles).Perm
      (List.range' 1 state.pool.allocatedCount) := by
    apply (List.perm_ext_iff_of_nodup nodup List.nodup_range').mpr
    intro handle
    have valid : handle ∈ List.range' 1 state.pool.allocatedCount ↔
        state.pool.HandleValid handle := by
      simp only [List.mem_range'_1, Pool.HandleValid]
      omega
    rw [List.mem_append, mem_freeHandles, valid]
    constructor
    · rintro (given | free)
      · exact exact.inside handle given
      · exact free.1
    · intro inPool
      by_cases given : handle ∈ state.handed
      · exact Or.inl given
      · exact Or.inr ⟨inPool, given⟩
  have length := every.length_eq
  rw [List.length_append, List.length_range', ← exact.count] at length
  exact length

/-- What every call that allocates one item preserves. -/
def Sound (state : BlockState α) : Prop :=
  state.toPoolState.Sound 1 ∧ state.handed.Nodup

theorem sound_of_initial {type : PoolType α} {state : BlockState α}
    (initial : state.Initial type) : state.Sound := by
  rcases initial with ⟨⟨memory, success⟩, empty⟩
  refine ⟨PoolState.sound_of_initial (Pool.init_eq_ok success).1 ⟨⟨memory, success⟩, ?_⟩, ?_⟩
  · funext handle
    simp [toPoolState, empty]
  · simp [empty]

/-- A sound pool hands out a handle that nobody holds. -/
theorem allocate_fresh {type : PoolType α} {memory : Memory} {flags : Flags8}
    {state : PoolState α} {after : Pool α} {handle least : ℕ} (sound : state.Sound least)
    (nonzero : handle ≠ 0)
    (success : state.pool.allocate type memory flags = .ok (handle, after)) :
    state.held handle = 0 := by
  apply sound.unheld
  rintro ⟨valid, used⟩
  have counts := sound.used handle valid used
  rcases Pool.allocate_eq_ok nonzero success with
    ⟨ready, mutex, _, _, unreferenced, _, taken | grown⟩
  · rcases Pool.takeFirst_eq_ok taken.2 with ⟨_, _, rfl⟩
    change (state.pool.items handle).references = 0 at unreferenced
    omega
  · have last := (Pool.grow_eq_ok sound.positive grown.2.2).1
    have small := valid.2
    omega

theorem Sound.step {type : PoolType α} {source target : BlockState α} {call : BlockCall}
    (sound : source.Sound) (single : source.AllocatesItem call)
    (step : source.Step type call target) : target.Sound := by
  cases call with
  | allocateMany many flags => exact absurd single id
  | allocate flags =>
      rcases step with ⟨memory, handle, success, nonzero, handed⟩
      have fresh := allocate_fresh sound.1 nonzero success
      have held : target.toPoolState.held =
          Function.update source.toPoolState.held handle (source.toPoolState.held handle + 1) := by
        funext other
        by_cases same : other = handle
        · subst same
          simp [toPoolState, handed]
        · simp [toPoolState, handed, Function.update_of_ne same, Ne.symm same]
      refine ⟨?_, ?_⟩
      · exact sound.1.step (.allocate flags) trivial single
          ⟨memory, handle, success, nonzero, held⟩
      · rw [handed, List.nodup_cons]
        exact ⟨List.count_eq_zero.mp fresh, sound.2⟩

theorem Sound.blocksExact {state : BlockState α} (sound : state.Sound) : state.BlocksExact := by
  rcases sound with ⟨sound, nodup⟩
  rcases sound.list with ⟨members, exact⟩
  have used : ∀ handle, handle ∈ state.handed ↔
      state.pool.HandleValid handle ∧ state.pool.HandleInUse handle := by
    intro handle
    constructor
    · intro given
      by_contra unused
      exact List.count_eq_zero.mp (sound.unheld handle unused) given
    · rintro ⟨valid, inUse⟩
      exact List.count_pos_iff.mp (sound.used handle valid inUse).2
  have perm : members.Perm state.freeHandles := by
    apply (List.perm_ext_iff_of_nodup exact.nodup state.nodup_freeHandles).mpr
    intro handle
    have free : handle ∈ members ↔
        state.pool.HandleValid handle ∧ ¬state.pool.HandleInUse handle := exact.mem_iff handle
    rw [free, mem_freeHandles, used]
    constructor
    · rintro ⟨valid, unused⟩
      exact ⟨valid, fun given => unused given.2⟩
    · rintro ⟨valid, unused⟩
      exact ⟨valid, fun inUse => unused ⟨valid, inUse⟩⟩
  refine ⟨?_, nodup, ?_, members, exact.chain, perm⟩
  · intro handle given
    exact ((used handle).mp given).1
  · have length : members.length = state.pool.freeCount := exact.length
    rw [← length, perm.length_eq]

/-- No call that allocates a block leaves the count right. -/
theorem not_blocksExact_allocateMany {type : PoolType α} {source target : BlockState α}
    {many : ℕ} {flags : Flags8} (sound : source.Sound)
    (step : source.Step type (.allocateMany many flags) target) : ¬target.BlocksExact := by
  intro exact
  rcases step with ⟨size, fuel, memory, start, success, nonzero, handed⟩
  have before := sound.blocksExact.length
  have after := exact.length
  have small : source.pool.allocatedCount < stateInUse := sound.1.bounded
  simp only [handed, List.length_append, List.length_range'] at after
  rcases Pool.allocateMany_eq_ok nonzero success with ⟨positive, found | grown⟩
  · have counts := found.1
    have frees := found.2
    omega
  · rcases grown with ⟨fits, _, frees⟩
    have bounded := PoolState.wrapperSize_bound fits
    simp only [sizeSub, sizeAdd, stateInUse, sizeMax] at frees small bounded size
    omega

/-- Growing a pool of one item leaves a free list that starts outside the pool. -/
theorem not_blocksExact_grow {type : PoolType α} {source target : BlockState α}
    {flags : Flags8} (sound : source.Sound) (single : source.pool.allocatedCount = 1)
    (none : source.pool.freeCount = 0) (step : source.Step type (.allocate flags) target) :
    ¬target.BlocksExact := by
  intro exact
  rcases step with ⟨memory, handle, success, nonzero, handed⟩
  rcases Pool.allocate_eq_ok nonzero success with ⟨ready, mutex, after, _, _, _, taken | grown⟩
  · omega
  · have positive : 0 < source.pool.allocatedCount := sound.1.positive
    rcases Pool.grow_eq_ok positive grown.2.2 with ⟨_, _, _, free, head, _⟩
    have count := exact.count
    rcases exact.list with ⟨members, chain, perm⟩
    simp only [after, Pool.initialised, Pool.update, free, single] at count chain
    have empty : members = [] := by
      apply List.length_eq_zero_iff.mp
      rw [perm.length_eq, ← count]
    subst empty
    have ends : ready.freeListHead = 0 := chain
    omega

/-- The blocks, the count and the free list are exact in every state of a run if and only
if the run allocates single items only, and never grows a pool of one item. -/
theorem blocksExact_iff_allocatesItem {type : PoolType α} {start : BlockState α}
    {steps : List (BlockCall × BlockState α)} (initial : start.Initial type)
    (run : IsRun (Step type) start steps) :
    (∀ state ∈ visited start steps, state.BlocksExact) ↔
      StepsMeet AllocatesItem start steps := by
  apply IsRun.forall_visited_iff (Step type) Sound
  · intro source call target sound single step
    exact sound.step single step
  · intro state sound
    exact sound.blocksExact
  · intro source call target sound step exact
    cases call with
    | allocate flags =>
        by_contra neither
        simp only [AllocatesItem, not_or] at neither
        have positive : 0 < source.pool.allocatedCount := sound.1.positive
        exact not_blocksExact_grow sound (by omega) (by omega) step exact
    | allocateMany many flags => exact not_blocksExact_allocateMany sound step exact
  · exact sound_of_initial initial
  · exact run

section TwoItems

/-- The pool of two items, before any call. -/
def unitStart : BlockState Unit where
  pool := PoolState.unitStart.pool
  handed := []

/-- Both items allocated as one block. -/
def unitBlock : BlockState Unit where
  pool := ((unitStart.pool.allocateMany 5 PoolState.unitType Memory.ample 2 0).toOption.getD
    (0, unitStart.pool)).2
  handed := [3, 4]

/-- The run that allocates both items as one block. -/
def unitSteps : List (BlockCall × BlockState Unit) :=
  [(.allocateMany 2 0, unitBlock)]

theorem unitSteps_isRun : IsRun (Step PoolState.unitType) unitStart unitSteps :=
  ⟨⟨by decide, 5, Memory.ample, 3, rfl, by decide, rfl⟩, trivial⟩

theorem blocksExact_iff_allocatesItem_unit :
    (∀ state ∈ visited unitStart unitSteps, state.BlocksExact) ↔
      StepsMeet AllocatesItem unitStart unitSteps :=
  blocksExact_iff_allocatesItem ⟨⟨Memory.ample, rfl⟩, rfl⟩ unitSteps_isRun

/-- A block as large as the pool leaves `SIZE_MAX` free items where there are two. -/
theorem allocateMany_not_blocksExact :
    unitStart.Initial PoolState.unitType ∧
      IsRun (Step PoolState.unitType) unitStart unitSteps ∧
      unitBlock ∈ visited unitStart unitSteps ∧ unitBlock.pool.freeCount = sizeMax ∧
      unitBlock.freeHandles = [1, 2] ∧ ¬unitBlock.BlocksExact := by
  refine ⟨⟨⟨Memory.ample, rfl⟩, rfl⟩, unitSteps_isRun, by simp [visited, unitSteps], rfl, rfl, ?_⟩
  intro exact
  exact absurd exact.count (by decide)

end TwoItems

end BlockState

end Dang
