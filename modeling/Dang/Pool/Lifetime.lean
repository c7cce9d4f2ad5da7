import Dang.Pool.FreeList

/-!
# Lifetimes of pooled objects

Over every run of `POOL_ALLOCATE`, `POOL_REFERENCE` and `POOL_RELEASE`, handles are
unique and an object lives as long as references to it are held. The free list may
have lost handles, but what it names is not in use, and that is enough. A
destructor that counts its runs shows when it is called.
-/

namespace Dang

variable {α : Type}

/-- A type of objects whose destructor counts its runs. -/
def PoolType.counting (type : PoolType α) : PoolType (α × ℕ) where
  initialSize := type.initialSize
  objectSize := type.objectSize
  mutexKind := type.mutexKind
  zero := (type.zero, 0)
  init object := (type.init object.1, object.2)
  destroy object := (type.destroy object.1, object.2 + 1)

/-- A pool, and what its callers have done with each handle. -/
structure PoolLife (α : Type) where
  pool : Pool (α × ℕ)
  /-- The references counted since the handle was allocated. -/
  references : ℕ → ℕ
  /-- The releases since the handle was allocated. -/
  releases : ℕ → ℕ
  /-- How often the handle was allocated. -/
  allocations : ℕ → ℕ

/-- A call, with what it returns. -/
inductive PoolReturn
  | allocate (flags : Flags8) (handle : ℕ)
  | reference (handle result : ℕ)
  | release (handle : ℕ) (status : ℤ)
  deriving DecidableEq, Repr

/-- The handle that a call is about. -/
def PoolReturn.handle : PoolReturn → ℕ
  | .allocate _ handle => handle
  | .reference handle _ => handle
  | .release handle _ => handle

namespace PoolLife

/-- The handle is in use. -/
def InUse (life : PoolLife α) (handle : ℕ) : Prop :=
  life.pool.HandleValid handle ∧ life.pool.HandleInUse handle

instance (life : PoolLife α) (handle : ℕ) : Decidable (life.InUse handle) :=
  inferInstanceAs (Decidable (_ ∧ _))

/-- The object of a handle. -/
def object (life : PoolLife α) (handle : ℕ) : α := (life.pool.items handle).object.1

/-- How often the destructor ran on the object of a handle. -/
def destroyed (life : PoolLife α) (handle : ℕ) : ℕ := (life.pool.items handle).object.2

/-- The `m_references` of a handle. -/
def count (life : PoolLife α) (handle : ℕ) : ℕ := (life.pool.items handle).references

/-- One call that returns. A reference is held when it has not been released. -/
def Step (type : PoolType α) (source : PoolLife α) (call : PoolReturn) (target : PoolLife α) :
    Prop :=
  match call with
  | .allocate flags handle => ∃ memory,
      source.pool.allocate type.counting memory flags = .ok (handle, target.pool) ∧
        target = if handle = 0 then { source with pool := target.pool }
          else
            { pool := target.pool
              references := Function.update source.references handle 0
              releases := Function.update source.releases handle 0
              allocations :=
                Function.update source.allocations handle (source.allocations handle + 1) }
  | .reference handle result =>
      source.pool.reference handle = .ok (result, target.pool) ∧
        target = if result = 0 then { source with pool := target.pool }
          else { source with
            pool := target.pool
            references :=
              Function.update source.references handle (source.references handle + 1) }
  | .release handle status =>
      source.releases handle < 1 + source.references handle ∧
        source.pool.release type.counting handle = .ok (status, target.pool) ∧
        target = if status = 0 then { source with
            pool := target.pool
            releases := Function.update source.releases handle (source.releases handle + 1) }
          else { source with pool := target.pool }

/-- The state after `POOL_INIT`. -/
def Initial (type : PoolType α) (life : PoolLife α) : Prop :=
  (∃ memory, Pool.init type.counting memory = .ok (0, life.pool)) ∧
    life.allocations = fun _ => 0

/-- The counts are those of the calls: `m_references` is one more than the references minus the
releases since the allocation, and each allocation but the current one has ended in the
destructor. -/
structure Counted (life : PoolLife α) : Prop where
  references : ∀ handle, life.InUse handle →
    life.count handle + life.releases handle = 1 + life.references handle
  destroyed : ∀ handle, life.pool.HandleValid handle →
    life.allocations handle = life.destroyed handle + if life.InUse handle then 1 else 0

/-- What a call does: an allocated handle was not in use, the destructor runs at the release that
takes the count to zero, and all that happens is about the call's own handle. -/
structure Respects (source : PoolLife α) (call : PoolReturn) (target : PoolLife α) : Prop where
  unique : ∀ flags handle, call = .allocate flags handle → handle ≠ 0 →
    ¬ source.InUse handle ∧ target.InUse handle
  destroyed : ∀ handle, source.pool.HandleValid handle →
    target.destroyed handle = source.destroyed handle +
      if call = .release handle 0 ∧ target.count handle = 0 then 1 else 0
  frame : ∀ other, source.pool.HandleValid other → other ≠ call.handle →
    target.object other = source.object other ∧ target.count other = source.count other ∧
      (target.InUse other ↔ source.InUse other)

/-- The free list names handles that are not in use, and no more than the counter says. -/
structure Available (pool : Pool (α × ℕ)) (members : List ℕ) : Prop where
  chain : Chain 0 pool.nextFree pool.freeListHead members
  nodup : members.Nodup
  free : ∀ handle ∈ members, pool.HandleValid handle ∧ ¬ pool.HandleInUse handle
  length_le : members.length ≤ pool.freeCount

/-- What every call preserves. -/
structure Sound (life : PoolLife α) (members : List ℕ) : Prop where
  enough : 2 ≤ life.pool.allocatedCount
  bounded : life.pool.allocatedCount < stateInUse
  available : Available life.pool members
  counted : life.Counted
  unallocated : ∀ handle, ¬ life.pool.HandleValid handle → life.allocations handle = 0
  unlocked : ∀ handle, ∀ mutex ∈ (life.pool.items handle).mutex, mutex.depth = 0

variable {type : PoolType α} {life : PoolLife α} {members : List ℕ} {handle : ℕ}

theorem sound_of_initial (enough : 2 ≤ type.initialSize) (initial : life.Initial type) :
    ∃ members, life.Sound members := by
  rcases initial with ⟨⟨memory, success⟩, unallocated⟩
  rcases Pool.init_eq_ok success with ⟨positive, fits, allocated, count, free, head, items⟩
  have size : type.counting.initialSize = type.initialSize := rfl
  have bounded : type.initialSize < stateInUse := PoolState.wrapperSize_bound fits
  have next : ∀ handle, life.pool.nextFree handle =
      if 1 ≤ handle ∧ handle < type.initialSize then handle + 1 else 0 := by
    intro handle
    rw [Pool.nextFree, items]
    rfl
  have unused : ∀ handle, ¬ life.pool.HandleInUse handle := by
    intro handle used
    change life.pool.nextFree handle = stateInUse at used
    rw [next] at used
    split at used
    · omega
    · omega
  refine ⟨List.range' 1 type.initialSize, by omega, by omega, ⟨?_, List.nodup_range', ?_, ?_⟩,
    ⟨?_, ?_⟩, ?_, ?_⟩
  · rw [head, show type.initialSize = type.initialSize - 1 + 1 by omega]
    apply Chain.range' (by omega)
    · intro handle lower upper
      rw [next, if_pos (by omega)]
    · rw [next, if_neg (by omega)]
  · intro handle mem
    rw [List.mem_range'_1] at mem
    exact ⟨⟨by omega, by omega⟩, unused handle⟩
  · have length : (List.range' 1 type.initialSize).length = life.pool.freeCount := by
      rw [List.length_range', free, size]
    exact Nat.le_of_eq length
  · intro handle inUse
    exact absurd inUse.2 (unused handle)
  · intro handle valid
    rw [unallocated, if_neg (fun inUse => unused handle inUse.2), destroyed, items]
    rfl
  · intro handle _
    rw [unallocated]
  · intro handle mutex mem
    rw [items] at mem
    simp [PoolType.zeroWrapper] at mem

/-- Where the items of one state are those of another up to their objects and counts, the list
stays available. -/
theorem Available.congr {pool after : Pool (α × ℕ)} (available : Available pool members)
    (head : after.freeListHead = pool.freeListHead)
    (valid : ∀ other, pool.HandleValid other → after.HandleValid other)
    (next : ∀ other ∈ members, after.nextFree other = pool.nextFree other)
    (length_le : pool.freeCount ≤ after.freeCount) : Available after members where
  chain := by
    rw [head]
    exact available.chain.congr next
  nodup := available.nodup
  free := by
    intro other mem
    rcases available.free other mem with ⟨inside, unused⟩
    refine ⟨valid other inside, ?_⟩
    intro used
    apply unused
    exact (next other mem).symm.trans used
  length_le := Nat.le_trans available.length_le length_le

theorem Sound.takeFirst {ready : Pool (α × ℕ)} (sound : life.Sound members)
    (taken : life.pool.takeFirst = .ok (handle, ready)) :
    ∃ rest, Sound { life with pool := ready } rest ∧ handle ∉ rest ∧ ready.HandleValid handle ∧
      ¬ ready.HandleInUse handle ∧ ¬ life.InUse handle ∧
      ready.allocatedCount = life.pool.allocatedCount ∧ ready.items = life.pool.items := by
  rcases Pool.takeFirst_eq_ok taken with ⟨valid, rfl, rfl⟩
  cases members with
  | nil =>
      have empty : life.pool.freeListHead = 0 := sound.available.chain
      exact absurd empty (Nat.ne_of_gt valid.1)
  | cons first rest =>
      rcases sound.available with ⟨⟨isFirst, _, chain⟩, nodup, free, length_le⟩
      rw [List.length_cons] at length_le
      have unused := (free first List.mem_cons_self).2
      rw [isFirst] at valid ⊢
      refine ⟨rest, ⟨sound.enough, sound.bounded, ⟨chain, nodup.of_cons, ?_, ?_⟩,
        ⟨sound.counted.references, sound.counted.destroyed⟩, sound.unallocated, sound.unlocked⟩,
        (List.nodup_cons.mp nodup).1, valid, unused, fun inUse => unused inUse.2, rfl, rfl⟩
      · intro other mem
        exact free other (List.mem_cons_of_mem _ mem)
      · exact Nat.le_sub_one_of_lt length_le

theorem Sound.grow {ready : Pool (α × ℕ)} (sound : life.Sound members)
    (fits : 2 * life.pool.allocatedCount * type.counting.wrapperSize ≤ sizeMax)
    (grown : life.pool.grow type.counting = .ok (handle, ready)) :
    ∃ rest, Sound { life with pool := ready } rest ∧ handle ∉ rest ∧ ready.HandleValid handle ∧
      ¬ ready.HandleInUse handle ∧ ¬ life.InUse handle ∧
      life.pool.allocatedCount ≤ ready.allocatedCount ∧
      ∀ other, life.pool.HandleValid other → ready.items other = life.pool.items other := by
  have enough := sound.enough
  have bounded := PoolState.wrapperSize_bound fits
  rcases Pool.grow_eq_ok (by omega) grown with ⟨rfl, allocated, _, free, head, items⟩
  have old : ∀ other, life.pool.HandleValid other →
      ready.items other = life.pool.items other := by
    intro other valid
    rw [items, if_pos valid.2]
  have next : ∀ other, ¬ other ≤ life.pool.allocatedCount → ready.nextFree other =
      if life.pool.allocatedCount + 2 ≤ other ∧ other < 2 * life.pool.allocatedCount
        then other + 1 else 0 := by
    intro other new
    rw [Pool.nextFree, items, if_neg new]
  have unused : ∀ other, ¬ other ≤ life.pool.allocatedCount → ¬ ready.HandleInUse other := by
    intro other new used
    change ready.nextFree other = stateInUse at used
    rw [next other new] at used
    split at used
    · omega
    · omega
  have validOld : ∀ other, ready.HandleValid other → other ≤ life.pool.allocatedCount →
      life.pool.HandleValid other := fun other valid inside => ⟨valid.1, inside⟩
  refine ⟨List.range' (life.pool.allocatedCount + 2) (life.pool.allocatedCount - 2 + 1),
    ⟨by simp only; omega, by simp only; omega, ⟨?_, List.nodup_range', ?_, ?_⟩, ⟨?_, ?_⟩, ?_, ?_⟩,
    ?_, ⟨by omega, by omega⟩, unused _ (by omega), ?_, by omega, old⟩
  · simp only [head]
    apply Chain.range' (by omega)
    · intro other lower upper
      rw [next other (by omega), if_pos (by omega)]
    · rw [next _ (by omega), if_neg (by omega)]
  · intro other mem
    rw [List.mem_range'_1] at mem
    exact ⟨⟨by omega, by simp only; omega⟩, unused other (by omega)⟩
  · rw [List.length_range']
    simp only
    omega
  · intro other inUse
    by_cases inside : other ≤ life.pool.allocatedCount
    · have valid := validOld other inUse.1 inside
      have same := old other valid
      have inUse' : life.InUse other := ⟨valid, by
        have used : ready.HandleInUse other := inUse.2
        rwa [Pool.HandleInUse, same] at used⟩
      have counted := sound.counted.references other inUse'
      simpa only [count, same] using counted
    · exact absurd inUse.2 (unused other inside)
  · intro other validReady
    by_cases inside : other ≤ life.pool.allocatedCount
    · have valid := validOld other validReady inside
      have same := old other valid
      have marks : InUse { life with pool := ready } other ↔ life.InUse other := by
        simp only [InUse, Pool.HandleInUse, same]
        exact ⟨fun inUse => ⟨valid, inUse.2⟩, fun inUse => ⟨validReady, inUse.2⟩⟩
      have counted := sound.counted.destroyed other valid
      simpa only [destroyed, same, marks] using counted
    · rw [if_neg (fun inUse => unused other inside inUse.2)]
      have fresh : ¬ life.pool.HandleValid other := fun valid => inside valid.2
      simp only [destroyed, items, if_neg inside, sound.unallocated other fresh]
      rfl
  · intro other invalid
    apply sound.unallocated
    intro valid
    exact invalid ⟨valid.1, by have upper := valid.2; simp only; omega⟩
  · intro other mutex mem
    by_cases inside : other ≤ life.pool.allocatedCount
    · simp only [items, if_pos inside] at mem
      exact sound.unlocked other mutex mem
    · simp only [items, if_neg inside] at mem
      simp [PoolType.zeroWrapper] at mem
  · rw [List.mem_range'_1]
    omega
  · intro inUse
    have upper := inUse.1.2
    omega

/-- A change of one item that is not in the free list. -/
theorem Sound.change (sound : life.Sound members) (after : PoolLife α)
    (change : Wrapper (α × ℕ) → Wrapper (α × ℕ)) (inside : life.pool.HandleValid handle)
    (outside : handle ∉ members)
    (allocated : after.pool.allocatedCount = life.pool.allocatedCount)
    (items : ∀ other, after.pool.items other =
      if other = handle then change (life.pool.items handle) else life.pool.items other)
    (head : after.pool.freeListHead = life.pool.freeListHead)
    (freeCount : life.pool.freeCount ≤ after.pool.freeCount)
    (references : ∀ other, other ≠ handle → after.references other = life.references other)
    (releases : ∀ other, other ≠ handle → after.releases other = life.releases other)
    (allocations : ∀ other, other ≠ handle → after.allocations other = life.allocations other)
    (counted : after.InUse handle →
      after.count handle + after.releases handle = 1 + after.references handle)
    (destroyed : after.allocations handle =
      after.destroyed handle + if after.InUse handle then 1 else 0)
    (unlocked : ∀ mutex ∈ (change (life.pool.items handle)).mutex, mutex.depth = 0) :
    after.Sound members := by
  have valid : ∀ other, after.pool.HandleValid other ↔ life.pool.HandleValid other := by
    intro other
    rw [Pool.HandleValid, allocated, Pool.HandleValid]
  have same : ∀ other, other ≠ handle → after.pool.items other = life.pool.items other := by
    intro other apart
    rw [items, if_neg apart]
  have inUse : ∀ other, other ≠ handle → (after.InUse other ↔ life.InUse other) := by
    intro other apart
    rw [InUse, InUse, valid, Pool.HandleInUse, same other apart, Pool.HandleInUse]
  refine ⟨?_, ?_, ?_, ⟨?_, ?_⟩, ?_, ?_⟩
  · rw [allocated]
    exact sound.enough
  · rw [allocated]
    exact sound.bounded
  · apply sound.available.congr head (fun other => (valid other).mpr) _ freeCount
    intro other mem
    have apart : other ≠ handle := fun isHandle => outside (isHandle ▸ mem)
    rw [Pool.nextFree, same other apart, Pool.nextFree]
  · intro other otherInUse
    by_cases isHandle : other = handle
    · subst isHandle
      exact counted otherInUse
    · rw [count, same other isHandle, releases other isHandle, references other isHandle]
      exact sound.counted.references other ((inUse other isHandle).mp otherInUse)
  · intro other otherValid
    by_cases isHandle : other = handle
    · subst isHandle
      exact destroyed
    · rw [allocations other isHandle, PoolLife.destroyed, same other isHandle]
      simp only [inUse other isHandle]
      exact sound.counted.destroyed other ((valid other).mp otherValid)
  · intro other invalid
    have apart : other ≠ handle := fun isHandle => invalid ((valid other).mpr (isHandle ▸ inside))
    rw [allocations other apart]
    exact sound.unallocated other (fun otherValid => invalid ((valid other).mpr otherValid))
  · intro other mutex mem
    rw [items] at mem
    by_cases isHandle : other = handle
    · rw [if_pos isHandle] at mem
      exact unlocked mutex mem
    · rw [if_neg isHandle] at mem
      exact sound.unlocked other mutex mem

theorem items_initialised (type : PoolType α) (handle : ℕ) (pool : Pool (α × ℕ))
    (mutex : Option Mutex) (other : ℕ) :
    (pool.initialised type.counting handle mutex).items other =
      if other = handle then
        ⟨type.counting.init (pool.items handle).object, 1, mutex, stateInUse⟩
      else pool.items other := by
  simp [Pool.initialised, Pool.items_update]

/-- A handle is set up. -/
theorem Sound.initialised (type : PoolType α) {mutex : Option Mutex} (sound : life.Sound members)
    (valid : life.pool.HandleValid handle) (unused : ¬ life.pool.HandleInUse handle)
    (outside : handle ∉ members)
    (unlocked : mutex = (life.pool.items handle).mutex ∨ ∀ owned ∈ mutex, owned.depth = 0) :
    Sound
      { pool := life.pool.initialised type.counting handle mutex
        references := Function.update life.references handle 0
        releases := Function.update life.releases handle 0
        allocations :=
          Function.update life.allocations handle (life.allocations handle + 1) } members := by
  have used : (life.pool.initialised type.counting handle mutex).HandleInUse handle := by
    rw [Pool.HandleInUse, items_initialised, if_pos rfl]
  refine sound.change _ (fun wrapper =>
    ⟨type.counting.init wrapper.object, 1, mutex, stateInUse⟩) valid outside rfl
    (items_initialised type handle life.pool mutex) rfl (Nat.le_refl _) ?_ ?_ ?_ ?_ ?_ ?_
  · intro other apart
    exact Function.update_of_ne apart _ _
  · intro other apart
    exact Function.update_of_ne apart _ _
  · intro other apart
    exact Function.update_of_ne apart _ _
  · intro _
    simp only [count, items_initialised, if_true, Function.update_self]
  · have before := sound.counted.destroyed handle valid
    rw [if_neg (fun inUse => unused inUse.2)] at before
    rw [if_pos ⟨valid, used⟩]
    simp only [destroyed, items_initialised, if_true, Function.update_self]
    rw [before]
    rfl
  · intro owned mem
    rcases unlocked with rfl | free
    · exact sound.unlocked handle owned mem
    · exact free owned mem

/-- What `POOL_ALLOCATE` leaves. -/
theorem Sound.allocate {memory : Memory} {flags : Flags8} {after : Pool (α × ℕ)}
    (sound : life.Sound members) (nonzero : handle ≠ 0)
    (success : life.pool.allocate type.counting memory flags = .ok (handle, after)) :
    ∃ rest ready mutex, after = ready.initialised type.counting handle mutex ∧
      Sound { life with pool := ready } rest ∧ handle ∉ rest ∧ ready.HandleValid handle ∧
      ¬ ready.HandleInUse handle ∧ ¬ life.InUse handle ∧
      (mutex = (ready.items handle).mutex ∨ ∀ owned ∈ mutex, owned.depth = 0) ∧
      ∀ other, life.pool.HandleValid other →
        ready.HandleValid other ∧ ready.items other = life.pool.items other := by
  rcases Pool.allocate_eq_ok nonzero success with
    ⟨ready, mutex, rfl, _, _, unlocked, ⟨_, taken⟩ | ⟨_, fits, grown⟩⟩
  · rcases sound.takeFirst taken with
      ⟨rest, soundReady, outside, valid, unused, notInUse, allocated, items⟩
    refine ⟨rest, ready, mutex, rfl, soundReady, outside, valid, unused, notInUse, unlocked, ?_⟩
    intro other otherValid
    rw [Pool.HandleValid, allocated, items]
    exact ⟨otherValid, rfl⟩
  · rcases sound.grow fits grown with
      ⟨rest, soundReady, outside, valid, unused, notInUse, le, items⟩
    refine ⟨rest, ready, mutex, rfl, soundReady, outside, valid, unused, notInUse, unlocked, ?_⟩
    intro other otherValid
    exact ⟨⟨otherValid.1, Nat.le_trans otherValid.2 le⟩, items other otherValid⟩

/-- A call of `POOL_ALLOCATE` that grows nothing for want of storage leaves the pool alone. -/
theorem allocate_zero {memory : Memory} {flags : Flags8} {after : Pool (α × ℕ)}
    (success : life.pool.allocate type.counting memory flags = .ok (0, after)) :
    after = life.pool := by
  simp only [Pool.allocate] at success
  split at success
  case isTrue =>
    rcases Outcome.bind_eq_ok.mp success with ⟨⟨handle, ready⟩, taken, initialised⟩
    rcases Pool.initialise_eq_ok initialised with ⟨valid, _, rfl, _⟩
    exact absurd rfl (Nat.ne_of_gt valid.1)
  case isFalse =>
    split at success
    case isTrue =>
      rcases Outcome.bind_eq_ok.mp success with ⟨⟨handle, ready⟩, grown, initialised⟩
      rcases Pool.initialise_eq_ok initialised with ⟨valid, _, rfl, _⟩
      exact absurd rfl (Nat.ne_of_gt valid.1)
    case isFalse =>
      exact (Prod.ext_iff.mp (Except.ok.inj success)).2.symm

/-- A handle in use is not in the free list. -/
theorem Sound.not_mem (sound : life.Sound members) (used : life.pool.HandleInUse handle) :
    handle ∉ members := fun mem => (sound.available.free handle mem).2 used

/-- A call that changes the item of its own handle at most, and runs no destructor. -/
theorem respects_of_items {source target : PoolLife α} {call : PoolReturn}
    (notAllocated : ∀ flags handle, call = .allocate flags handle → handle = 0)
    (allocated : target.pool.allocatedCount = source.pool.allocatedCount)
    (items : ∀ other, other ≠ call.handle → target.pool.items other = source.pool.items other)
    (destroyed : source.pool.HandleValid call.handle →
      target.destroyed call.handle = source.destroyed call.handle +
        if call = .release call.handle 0 ∧ target.count call.handle = 0 then 1 else 0) :
    source.Respects call target where
  unique := by
    intro flags handle isAllocate nonzero
    exact absurd (notAllocated flags handle isAllocate) nonzero
  destroyed := by
    intro other valid
    by_cases own : other = call.handle
    · subst own
      exact destroyed valid
    · have notRelease : ¬ (call = .release other 0 ∧ target.count other = 0) := by
        rintro ⟨isRelease, _⟩
        apply own
        rw [isRelease]
        rfl
      rw [if_neg notRelease, PoolLife.destroyed, items other own]
      rfl
  frame := by
    intro other valid own
    simp only [object, count, InUse, Pool.HandleValid, Pool.HandleInUse, allocated,
      items other own, and_self]

/-- A call that changes the count of a handle in use. -/
theorem Sound.updateCount {source target : PoolLife α} {call : PoolReturn} {number : ℕ}
    (sound : source.Sound members) (valid : source.pool.HandleValid call.handle)
    (used : source.pool.HandleInUse call.handle) (positive : 0 < number)
    (notAllocate : ∀ flags handle, call ≠ .allocate flags handle)
    (after : target.pool = source.pool.update call.handle fun wrapper =>
      { wrapper with references := number })
    (references : ∀ other, other ≠ call.handle →
      target.references other = source.references other)
    (releases : ∀ other, other ≠ call.handle → target.releases other = source.releases other)
    (allocations : target.allocations = source.allocations)
    (counted : number + target.releases call.handle = 1 + target.references call.handle) :
    (∃ rest, target.Sound rest) ∧ source.Respects call target := by
  have items : ∀ other, target.pool.items other =
      if other = call.handle then { source.pool.items call.handle with references := number }
      else source.pool.items other := by
    intro other
    rw [after, Pool.items_update]
  have allocated : target.pool.allocatedCount = source.pool.allocatedCount := by
    rw [after, Pool.update_allocatedCount]
  have stillUsed : target.pool.HandleInUse call.handle := by
    rw [Pool.HandleInUse, items, if_pos rfl]
    exact used
  have stillValid : target.pool.HandleValid call.handle := by
    rw [Pool.HandleValid, allocated]
    exact valid
  have lives := sound.counted.destroyed call.handle valid
  rw [if_pos ⟨valid, used⟩] at lives
  refine ⟨⟨members, ?_⟩, respects_of_items ?_ allocated ?_ ?_⟩
  · refine sound.change target (fun wrapper => { wrapper with references := number }) valid
      (sound.not_mem used) allocated items ?_ ?_ references releases ?_ ?_ ?_ ?_
    · rw [after]
      rfl
    · rw [after]
      exact Nat.le_refl _
    · intro other _
      rw [allocations]
    · intro _
      simp only [count, items, if_true]
      exact counted
    · rw [if_pos ⟨stillValid, stillUsed⟩, allocations]
      simpa only [destroyed, items, if_true] using lives
    · exact sound.unlocked call.handle
  · intro flags handle isAllocate
    exact absurd isAllocate (notAllocate flags handle)
  · intro other apart
    rw [items, if_neg apart]
  · intro _
    have alive : target.count call.handle ≠ 0 := by
      simp only [count, items, if_true]
      exact Nat.ne_of_gt positive
    rw [if_neg (fun ends => alive ends.2)]
    simp only [destroyed, items, if_true, Nat.add_zero]

theorem Sound.stepAllocate {source target : PoolLife α} {flags : Flags8}
    (sound : source.Sound members) (step : source.Step type (.allocate flags handle) target) :
    (∃ rest, target.Sound rest) ∧ source.Respects (.allocate flags handle) target := by
  rcases step with ⟨memory, success, same⟩
  by_cases zero : handle = 0
  · subst zero
    rw [if_pos rfl, allocate_zero success] at same
    subst same
    refine ⟨⟨members, sound⟩, respects_of_items ?_ rfl (fun _ _ => rfl) ?_⟩
    · intro flags handle isAllocate
      exact (PoolReturn.allocate.inj isAllocate).2.symm
    · intro valid
      exact absurd rfl (Nat.ne_of_gt valid.1)
  · rw [if_neg zero] at same
    rcases sound.allocate zero success with
      ⟨rest, ready, mutex, after, soundReady, outside, valid, unused, notInUse, unlocked, old⟩
    rw [after] at same
    have soundTarget := soundReady.initialised type valid unused outside unlocked
    rw [same]
    refine ⟨⟨rest, soundTarget⟩, ?_, ?_, ?_⟩
    · intro otherFlags other isAllocate _
      rcases PoolReturn.allocate.inj isAllocate with ⟨_, rfl⟩
      refine ⟨notInUse, valid, ?_⟩
      rw [Pool.HandleInUse, items_initialised, if_pos rfl]
    · intro other otherValid
      have sameItem := (old other otherValid).2
      rw [if_neg (fun isRelease => by cases isRelease.1), destroyed, items_initialised]
      by_cases own : other = handle
      · subst own
        rw [if_pos rfl, sameItem]
        rfl
      · rw [if_neg own, sameItem]
        rfl
    · intro other otherValid own
      have sameItem := items_initialised type handle ready mutex other
      rw [if_neg (show ¬ other = handle from own), (old other otherValid).2] at sameItem
      simp only [object, count, InUse, Pool.HandleInUse, sameItem, true_and]
      exact ⟨fun inUse => ⟨otherValid, inUse.2⟩,
        fun inUse => ⟨(old other otherValid).1, inUse.2⟩⟩

theorem Sound.stepReference {source target : PoolLife α} {result : ℕ}
    (sound : source.Sound members) (step : source.Step type (.reference handle result) target) :
    (∃ rest, target.Sound rest) ∧ source.Respects (.reference handle result) target := by
  rcases step with ⟨success, same⟩
  rcases Pool.reference_eq_ok success with ⟨valid, used, failed | counted⟩
  · rcases failed with ⟨rfl, after⟩
    rw [if_pos rfl, after] at same
    subst same
    refine ⟨⟨members, sound⟩, respects_of_items ?_ rfl (fun _ _ => rfl) ?_⟩
    · intro flags other isAllocate
      cases isAllocate
    · intro _
      rw [if_neg (fun isRelease => by cases isRelease.1)]
      rfl
  · rcases counted with ⟨rfl, after⟩
    rw [if_neg (Nat.ne_of_gt valid.1)] at same
    have counts := sound.counted.references result ⟨valid, used⟩
    have number : source.count result = (source.pool.items result).references := rfl
    rw [Pool.update_congr (fun wrapper => { wrapper with references := source.count result + 1 })
      rfl] at after
    refine sound.updateCount valid used (Nat.succ_pos _) (fun _ _ isAllocate => by cases isAllocate)
      after ?_ ?_ ?_ ?_
    · intro other apart
      rw [same]
      exact Function.update_of_ne apart _ _
    · intro other _
      rw [same]
    · rw [same]
    · rw [same]
      simp only [PoolReturn.handle, Function.update_self]
      omega

theorem Sound.stepRelease {source target : PoolLife α} {status : ℤ}
    (sound : source.Sound members) (step : source.Step type (.release handle status) target) :
    (∃ rest, target.Sound rest) ∧ source.Respects (.release handle status) target := by
  rcases step with ⟨held, success, same⟩
  rcases Pool.release_eq_ok success with ⟨valid, used, failed | counted | last⟩
  · rcases failed with ⟨_, _, mutex, mem, locked⟩
    exact absurd (sound.unlocked handle mutex mem) locked
  · rcases counted with ⟨rfl, several, after⟩
    rw [if_pos rfl] at same
    have counts := sound.counted.references handle ⟨valid, used⟩
    have number : source.count handle = (source.pool.items handle).references := rfl
    rw [Pool.update_congr (fun wrapper => { wrapper with references := source.count handle - 1 })
      rfl] at after
    refine sound.updateCount valid used (by omega) (fun _ _ isAllocate => by cases isAllocate)
      after ?_ ?_ ?_ ?_
    · intro other _
      rw [same]
    · intro other apart
      rw [same]
      exact Function.update_of_ne apart _ _
    · rw [same]
    · rw [same]
      simp only [PoolReturn.handle, Function.update_self]
      omega
  · rcases last with ⟨rfl, once, after⟩
    rw [if_pos rfl] at same
    have items : ∀ other, target.pool.items other =
        if other = handle then
          ⟨type.counting.destroy (source.pool.items handle).object, 0, none, handle⟩
        else source.pool.items other := by
      intro other
      rw [after]
      simp only [Pool.freed, Pool.items_update]
    have allocated : target.pool.allocatedCount = source.pool.allocatedCount := by
      rw [after]
      rfl
    -- the handle is linked to itself, so it is out of use, and the list is left as it was
    have outOfUse : ¬ target.InUse handle := by
      rintro ⟨_, stillUsed⟩
      rw [Pool.HandleInUse, items, if_pos rfl] at stillUsed
      have bounded := sound.bounded
      have upper := valid.2
      change handle = stateInUse at stillUsed
      omega
    have lives := sound.counted.destroyed handle valid
    rw [if_pos ⟨valid, used⟩] at lives
    refine ⟨⟨members, ?_⟩, respects_of_items ?_ allocated ?_ ?_⟩
    · refine sound.change target (fun wrapper =>
        ⟨type.counting.destroy wrapper.object, 0, none, handle⟩) valid (sound.not_mem used)
        allocated items ?_ ?_ ?_ ?_ ?_ ?_ ?_ ?_
      · rw [after]
        rfl
      · rw [after]
        exact Nat.le_succ _
      · intro other _
        rw [same]
      · intro other apart
        rw [same]
        exact Function.update_of_ne apart _ _
      · intro other _
        rw [same]
      · intro inUse
        exact absurd inUse outOfUse
      · have kept : target.allocations = source.allocations := by rw [same]
        rw [if_neg outOfUse, kept, lives]
        simp only [destroyed, items, if_true]
        rfl
      · intro mutex mem
        cases mem
    · intro flags other isAllocate
      cases isAllocate
    · intro other apart
      rw [items, if_neg (show ¬ other = handle from apart)]
    · intro _
      have gone : target.count handle = 0 := by
        simp only [count, items, if_true]
      rw [if_pos ⟨rfl, gone⟩]
      simp only [PoolReturn.handle, destroyed, items, if_true]
      rfl

/-- Every call keeps the pool sound, and does what it should. -/
theorem Sound.step {source target : PoolLife α} {call : PoolReturn}
    (sound : source.Sound members) (step : source.Step type call target) :
    (∃ rest, target.Sound rest) ∧ source.Respects call target := by
  cases call with
  | allocate flags handle => exact sound.stepAllocate step
  | reference handle result => exact sound.stepReference step
  | release handle status => exact sound.stepRelease step

/-- In every run the counts are those of the calls in every state, and every call does what it
should. -/
theorem counted_and_respects {start : PoolLife α} {steps : List (PoolReturn × PoolLife α)}
    (enough : 2 ≤ type.initialSize) (initial : start.Initial type)
    (run : IsRun (Step type) start steps) :
    (∀ life ∈ visited start steps, life.Counted) ∧
      ∀ transition ∈ transitions start steps,
        transition.1.Respects transition.2.1 transition.2.2 := by
  have keep : ∀ (source : PoolLife α) call target, (∃ members, source.Sound members) → True →
      source.Step type call target → ∃ members, target.Sound members := by
    intro source call target sound _ step
    rcases sound with ⟨members, sound⟩
    exact (sound.step step).1
  have always : StepsMeet (fun (_ : PoolLife α) (_ : PoolReturn) => True) start steps :=
    StepsMeet.of_forall fun _ _ => trivial
  constructor
  · intro life visits
    rcases IsRun.forall_visited (Step type) _ _ keep (sound_of_initial enough initial) run always
      life visits with ⟨members, sound⟩
    exact sound.counted
  · refine IsRun.forall_transitions (Step type) _ _ keep ?_ (sound_of_initial enough initial) run
      always
    intro source call target sound _ step
    rcases sound with ⟨members, sound⟩
    exact (sound.step step).2

section Sample

/-- A pool of two items, before any call. -/
def sampleStart : PoolLife Unit where
  pool := ((Pool.init PoolState.unitType.counting Memory.ample).toOption.getD
    (0, ⟨0, 0, 0, fun _ => PoolState.unitType.counting.zeroWrapper, 0⟩)).2
  references := fun _ => 0
  releases := fun _ => 0
  allocations := fun _ => 0

/-- What a call that succeeds leaves. -/
def sampleAfter (life : PoolLife Unit) : PoolReturn → PoolLife Unit
  | .allocate flags handle =>
      { pool := ((life.pool.allocate PoolState.unitType.counting Memory.ample flags).toOption.getD
          (0, life.pool)).2
        references := Function.update life.references handle 0
        releases := Function.update life.releases handle 0
        allocations := Function.update life.allocations handle (life.allocations handle + 1) }
  | .reference handle _ =>
      { life with
        pool := ((life.pool.reference handle).toOption.getD (0, life.pool)).2
        references := Function.update life.references handle (life.references handle + 1) }
  | .release handle _ =>
      { life with
        pool := ((life.pool.release PoolState.unitType.counting handle).toOption.getD
          (0, life.pool)).2
        releases := Function.update life.releases handle (life.releases handle + 1) }

/-- Three objects, the last of which makes the pool grow, and a reference to the first. -/
def sampleThree : PoolLife Unit :=
  sampleAfter (sampleAfter (sampleAfter sampleStart (.allocate 0 1)) (.allocate 0 2))
    (.allocate 0 3)

def sampleReferenced : PoolLife Unit := sampleAfter sampleThree (.reference 1 1)

/-- The first release leaves the object in use, the second one does not. -/
def sampleReleased : PoolLife Unit :=
  sampleAfter (sampleAfter sampleReferenced (.release 1 0)) (.release 1 0)

def sampleSteps : List (PoolReturn × PoolLife Unit) :=
  [(.allocate 0 1, sampleAfter sampleStart (.allocate 0 1)),
    (.allocate 0 2, sampleAfter (sampleAfter sampleStart (.allocate 0 1)) (.allocate 0 2)),
    (.allocate 0 3, sampleThree), (.reference 1 1, sampleReferenced),
    (.release 1 0, sampleAfter sampleReferenced (.release 1 0)), (.release 1 0, sampleReleased),
    (.allocate 0 4, sampleAfter sampleReleased (.allocate 0 4))]

theorem sampleStart_initial : sampleStart.Initial PoolState.unitType :=
  ⟨⟨Memory.ample, rfl⟩, rfl⟩

theorem sampleSteps_isRun : IsRun (Step PoolState.unitType) sampleStart sampleSteps :=
  ⟨⟨Memory.ample, rfl, rfl⟩, ⟨Memory.ample, rfl, rfl⟩, ⟨Memory.ample, rfl, rfl⟩, ⟨rfl, rfl⟩,
    ⟨by decide, rfl, rfl⟩, ⟨by decide, rfl, rfl⟩, ⟨Memory.ample, rfl, rfl⟩, trivial⟩

theorem counted_and_respects_sample :
    (∀ life ∈ visited sampleStart sampleSteps, life.Counted) ∧
      ∀ transition ∈ transitions sampleStart sampleSteps,
        transition.1.Respects transition.2.1 transition.2.2 :=
  counted_and_respects (by decide) sampleStart_initial sampleSteps_isRun

end Sample

end PoolLife

end Dang
