import Dang.Array.Arrays
import Dang.Foundations.Run
import Dang.Scalar.Value

/-!
# Indexing an array

`array_item_at` returns the element at an index inside the array, and never extends
the array by what an index beyond its end asks for: the handle of the new scalars
hides the handle of the array.
-/

namespace Dang

/-- The calls that the arrays serve. -/
inductive ArrayCall (α : Type)
  | push (handle : ℕ) (values : List α)
  | unshift (handle : ℕ) (values : List α)
  | pop (handle : ℕ)
  | shift (handle : ℕ)
  | fill (handle : ℕ) (values : List α)
  | itemAt (handle : ℕ) (index : ℤ)

/-- A call, with the storage that is there for it and what `scalar_allocate_many` returns. -/
structure ArrayRequest (α : Type) where
  call : ArrayCall α
  memory : Memory
  s : ℕ

namespace ArrayHeap

variable {α : Type} {heap after : ArrayHeap α} {handle : ℕ}

/-- The heap after a call. -/
def perform [ScalarValue α] (heap : ArrayHeap α) (request : ArrayRequest α) :
    Outcome (ArrayHeap α) :=
  match request.call with
  | .push handle values => do
      let (_, heap) ← heap.push request.memory request.s handle values
      .ok heap
  | .unshift handle values => do
      let (_, heap) ← heap.unshift request.memory request.s handle values
      .ok heap
  | .pop handle => do
      let (_, heap) ← heap.pop request.memory handle
      .ok heap
  | .shift handle => do
      let (_, heap) ← heap.shift request.memory handle
      .ok heap
  | .fill handle values => do
      let (_, heap) ← heap.fill request.memory request.s handle values
      .ok heap
  | .itemAt handle index => do
      let (_, heap) ← heap.itemAt request.memory request.s handle index
      .ok heap

/-- The caller passes an object, and the new scalars are fresh where they are allocated. -/
def Allocates (heap : ArrayHeap α) (request : ArrayRequest α) : Prop :=
  match request.call with
  | .push _ values | .unshift _ values =>
      values.length * sizeofScalar ≤ sizeMax ∧
        (values ≠ [] → request.s ≠ 0 ∧ heap.store.Fresh request.s values.length)
  | .fill handle values =>
      values.length * sizeofScalar ≤ sizeMax ∧ request.s ≠ 0 ∧
        ∀ released, ArrayScalars.releaseItems (heap.array handle) heap.store
            (heap.array handle).first (heap.array handle).count = .ok released →
          released.Fresh request.s values.length
  | _ => True

/-- A call that returns. -/
def Step [ScalarValue α] (heap : ArrayHeap α) (request : ArrayRequest α)
    (after : ArrayHeap α) : Prop :=
  heap.Allocates request ∧ heap.perform request = .ok after

/-- An indexed element is inside its array. -/
def IndexInside (heap : ArrayHeap α) (request : ArrayRequest α) : Prop :=
  match request.call with
  | .itemAt handle index =>
      -((heap.array handle).count : ℤ) ≤ index ∧ index < (heap.array handle).count
  | _ => True

/-- What `array_item_at` is to do, for an index from minus the size of the array on. -/
def ItemAtMeets [ScalarValue α] (heap : ArrayHeap α) (handle : ℕ) (index : ℤ)
    (outcome : Outcome (ℕ × ArrayHeap α)) : Prop :=
  let array := heap.array handle
  ∃ result after, outcome = .ok (result, after) ∧
    if index < array.count then
      array.handles[(if index < 0 then index + array.count else index).toNat]? = some result ∧
        heap.store.reference result = .ok (result, after.store) ∧ after.arrays = heap.arrays
    else
      ∃ new, (after.array handle).handles = array.handles ++ new ∧ new.Nodup ∧
        ((after.array handle).count : ℤ) = index + 1 ∧
        (∀ s ∈ new, heap.store.scalars s = none ∧
          after.store.scalars s = some ⟨if s = result then 2 else 1, default⟩) ∧
        (after.array handle).handles[index.toNat]? = some result ∧
        ∀ other ≠ handle, after.array other = heap.array other

/-- A new heap: nothing is in the arrays. -/
def New (heap : ArrayHeap α) : Prop :=
  ∀ handle, heap.InUse handle → heap.Available handle ∧ heap.array handle = ArrayT.init

theorem New.sound (new : heap.New) : heap.Sound where
  available inUse := (new _ inUse).1
  inside inUse := by
    rw [(new _ inUse).2]
    exact ArrayT.init_inside
  distinct inUse := by
    rw [(new _ inUse).2]
    simp [ArrayT.handles, ArrayT.init]
  disjoint inUse _ _ s mem := by
    rw [(new _ inUse).2] at mem
    simp [ArrayT.handles, ArrayT.init] at mem
  used inUse s mem := by
    rw [(new _ inUse).2] at mem
    simp [ArrayT.handles, ArrayT.init] at mem

/-- A public function that returns was given an array in use. -/
theorem onArray_inUse {β : Type} {failed result : β}
    {body : ArrayScalars α → Outcome (β × ArrayScalars α)}
    (success : heap.onArray handle failed body = .ok (result, after)) : heap.InUse handle := by
  simp only [onArray, Outcome.bind_eq_ok, Outcome.assertThat_eq_ok] at success
  rcases success with ⟨_, _, ⟨_, _⟩, locked, _⟩
  rcases Pool.lock_eq_ok locked with ⟨valid, used, _⟩
  exact ⟨valid, used⟩

/-- What a public function did, if it returned. -/
theorem Sound.onArray_eq_ok {β : Type} {failed result : β}
    {body : ArrayScalars α → Outcome (β × ArrayScalars α)} (sound : heap.Sound)
    (success : heap.onArray handle failed body = .ok (result, after)) :
    heap.InUse handle ∧ ∃ state, body ⟨heap.array handle, heap.store⟩ = .ok (result, state) ∧
      after = heap.put handle state := by
  have inUse := onArray_inUse success
  rw [onArray_eq (sound.available inUse)] at success
  simp only [Outcome.bind_eq_ok, Except.ok.injEq, Prod.mk.injEq] at success
  rcases success with ⟨⟨answer, state⟩, done, rfl, rfl⟩
  exact ⟨inUse, state, done, rfl⟩

/-- Adding new scalars at either end keeps the invariant. -/
theorem Sound.add (sound : heap.Sound) (inUse : heap.InUse handle) {state : ArrayScalars α}
    {s : ℕ} {values : List α} (inside : state.array.Inside)
    (fresh : values ≠ [] → heap.store.Fresh s values.length)
    (window : state.array.handles.Perm
      ((heap.array handle).handles ++ List.range' s values.length))
    (store : state.store = heap.store.filled s values) : (heap.put handle state).Sound := by
  have new : ∀ other ∈ List.range' s values.length, heap.store.scalars other = none := by
    intro other mem
    have nonempty : values ≠ [] := by
      rintro rfl
      simp at mem
    rcases List.mem_range'_1.mp mem with ⟨lower, upper⟩
    exact fresh nonempty other lower upper
  apply sound.put inUse inside
  · rw [window.nodup_iff, List.nodup_append]
    refine ⟨sound.distinct inUse, List.nodup_range', ?_⟩
    rintro old oldMem _ newMem rfl
    exact sound.used inUse old oldMem (new old newMem)
  · intro other mem
    rw [store]
    rcases List.mem_append.mp (window.mem_iff.mp mem) with old | added
    · exact ScalarStore.filled_ne_none (sound.used inUse other old)
    · exact ScalarStore.filled_of_range' added
  · intro other mem
    rcases List.mem_append.mp (window.mem_iff.mp mem) with old | added
    · exact Or.inl old
    · exact Or.inr (new other added)
  · intro other _ used
    rw [store]
    exact ScalarStore.filled_ne_none used

/-- Taking a scalar out of an array keeps the invariant. -/
theorem Sound.remove (sound : heap.Sound) (inUse : heap.InUse handle) {array : ArrayT}
    {store : ScalarStore α} {taken : ℕ} (inside : array.Inside)
    (window : (heap.array handle).handles.Perm (taken :: array.handles))
    (released : heap.store.release taken = .ok store) :
    (heap.put handle ⟨array, store⟩).Sound := by
  have distinct := (window.nodup_iff.mp (sound.distinct inUse))
  rw [List.nodup_cons] at distinct
  have kept : ∀ other ∈ array.handles, other ∈ (heap.array handle).handles := by
    intro other mem
    exact window.mem_iff.mpr (List.mem_cons_of_mem _ mem)
  apply sound.put inUse inside distinct.2
  · intro other mem
    have apart : other ≠ taken := by
      rintro rfl
      exact distinct.1 mem
    rw [ScalarStore.release_frame released apart]
    exact sound.used inUse other (kept other mem)
  · intro other mem
    exact Or.inl (kept other mem)
  · intro other outside used
    have apart : other ≠ taken := by
      rintro rfl
      exact outside (window.mem_iff.mpr List.mem_cons_self)
    rw [ScalarStore.release_frame released apart]
    exact used

/-- `array_fill` keeps the invariant: its new scalars may be some it released. -/
theorem Sound.refill (sound : heap.Sound) (inUse : heap.InUse handle) {state : ArrayScalars α}
    {released : ScalarStore α} {s : ℕ} {values : List α} (inside : state.array.Inside)
    (releasing : ArrayScalars.releaseItems (heap.array handle) heap.store
      (heap.array handle).first (heap.array handle).count = .ok released)
    (fresh : released.Fresh s values.length)
    (window : state.array.handles = List.range' s values.length)
    (store : state.store = released.filled s values) : (heap.put handle state).Sound := by
  have frame : ∀ other, other ∉ (heap.array handle).handles →
      released.scalars other = heap.store.scalars other := by
    intro other outside
    exact ArrayScalars.releaseItems_frame releasing outside
  apply sound.put inUse inside
  · rw [window]
    exact List.nodup_range'
  · intro other mem
    rw [store]
    exact ScalarStore.filled_of_range' (window ▸ mem)
  · intro other mem
    by_cases own : other ∈ (heap.array handle).handles
    · exact Or.inl own
    · refine Or.inr ?_
      rw [← frame other own]
      rcases List.mem_range'_1.mp (window ▸ mem) with ⟨lower, upper⟩
      exact fresh other lower upper
  · intro other outside used
    rw [store]
    apply ScalarStore.filled_ne_none
    rw [frame other outside]
    exact used

/-- The arrays stay as they are when the index is inside. -/
theorem itemAt_inside [ScalarValue α] {memory : Memory} {s item : ℕ} {index : ℤ}
    {store : ScalarStore α} (available : heap.Available handle)
    (inside : (heap.array handle).Inside) (lower : -((heap.array handle).count : ℤ) ≤ index)
    (upper : index < (heap.array handle).count)
    (found : (heap.array handle).handles[(if index < 0 then
      index + (heap.array handle).count else index).toNat]? = some item)
    (referenced : heap.store.reference item = .ok (item, store)) :
    heap.itemAt memory s handle index = .ok (item, ⟨heap.arrays, store⟩) := by
  have bound := inside.small
  have window := inside.1
  obtain ⟨position, same⟩ : ∃ position : ℕ, (if index < 0 then
      index + (heap.array handle).count else index) = position := by
    refine ⟨(if index < 0 then index + (heap.array handle).count else index).toNat, ?_⟩
    by_cases negative : index < 0
    · simp only [negative, if_true]
      omega
    · simp only [negative, if_false]
      omega
  have small : position < (heap.array handle).count := by
    by_cases negative : index < 0
    · simp only [negative, if_true] at same
      omega
    · simp only [negative, if_false] at same
      omega
  rw [same, Int.toNat_natCast, ArrayT.getElem?_handles small, Option.some.injEq] at found
  rcases available with ⟨valid, used, unlocked⟩
  have locked := Pool.lock_of_unlocked valid used unlocked
  have stillUsed : (heap.arrays.update handle Pool.lockItem).HandleInUse handle := by
    simpa [Pool.HandleInUse, Pool.items_update, Pool.lockItem] using used
  have object : ((heap.arrays.update handle Pool.lockItem).items handle).object =
      heap.array handle := by
    simp [Pool.items_update, Pool.lockItem, array]
  have within : ¬sizeAdd (heap.array handle).first (heap.array handle).count ≤ position := by
    rw [sizeAdd_eq (by omega)]
    omega
  have read : (heap.array handle).item (sizeAdd (heap.array handle).first position) =
      .ok item := by
    rw [sizeAdd_eq (by omega), ArrayT.item_of (by omega), found]
  simp only [itemAt, Outcome.assertThat_of valid, locked, Outcome.ok_bind, if_true,
    Outcome.assertThat_of stillUsed, object, same,
    sizeOfInt_natCast (show position < 2 ^ 64 by omega), within, if_false]
  have lockedArray : (⟨heap.arrays.update handle Pool.lockItem, heap.store⟩ :
      ArrayHeap α).array handle = heap.array handle := object
  simp only [referenceItem, lockedArray, read, Outcome.ok_bind, referenced,
    Pool.unlock_lockItem valid used unlocked]

/-- The loop after the growth writes to each array at most once. -/
theorem growItems_object {position rounds s : ℕ} {arrays grown : Pool ArrayT} (other : ℕ)
    (success : growItems position arrays s rounds = .ok grown) :
    (grown.items other).object = (arrays.items other).object ∨
      s ≤ other ∧ (grown.items other).object =
        { (arrays.items other).object.placed
            ((arrays.items other).object.first + (arrays.items other).object.count)
            (other + 1) 1 with
          count := (arrays.items other).object.count + 1 } := by
  induction rounds generalizing arrays s with
  | zero => simp [growItems] at success
  | succ rounds ih =>
      simp only [growItems, Outcome.bind_eq_ok, Pool.wrapper_eq_ok] at success
      rcases success with ⟨_, ⟨valid, rfl⟩, rest⟩
      by_cases goesOn : (arrays.items s).object.count ≤
          sizeSub position (arrays.items s).object.first
      · simp only [goesOn, if_true, Outcome.bind_eq_ok] at rest
        rcases rest with ⟨written, writing, rest⟩
        by_cases inside : (arrays.items s).object.first + (arrays.items s).object.count <
            (arrays.items s).object.allocatedCount
        · rw [ArrayT.setItem_of inside, Except.ok.injEq] at writing
          subst writing
          by_cases here : other = s
          · subst here
            rcases ih rest with unchanged | ⟨later, _⟩
            · refine Or.inr ⟨Nat.le_refl _, ?_⟩
              rw [unchanged, Pool.items_update, if_pos rfl]
              rfl
            · omega
          · rcases ih rest with unchanged | ⟨later, changed⟩
            · refine Or.inl ?_
              rw [unchanged, Pool.items_update, if_neg here]
            · refine Or.inr ⟨by omega, ?_⟩
              rw [changed, Pool.items_update, if_neg here]
        · simp [ArrayT.setItem, inside] at writing
      · simp only [goesOn, if_false, Except.ok.injEq] at rest
        exact Or.inl (by rw [rest])

/-- A reference brings no scalar into use. -/
theorem reference_none {store stored : ScalarStore α} {item result s : ℕ}
    (success : store.reference item = .ok (result, stored)) (unused : store.scalars s = none) :
    stored.scalars s = none := by
  cases found : store.scalars item with
  | none => simp [ScalarStore.reference, found] at success
  | some scalar =>
      simp only [ScalarStore.reference, found, Except.ok.injEq, Prod.mk.injEq] at success
      rcases success with ⟨_, rfl⟩
      have apart : s ≠ item := by
        rintro rfl
        simp [unused] at found
      rw [ScalarStore.scalars_set, if_neg apart]
      exact unused

theorem referenceItem_eq_ok {position result : ℕ}
    (success : heap.referenceItem handle position = .ok (result, after)) :
    (∀ other, after.array other = heap.array other) ∧
      ∃ item, heap.store.reference item = .ok (result, after.store) := by
  simp only [referenceItem, Outcome.bind_eq_ok, Except.ok.injEq, Prod.mk.injEq, Pool.unlock,
    Outcome.assertThat_eq_ok] at success
  rcases success with ⟨item, _, ⟨_, store⟩, referenced, _, ⟨_, _, _, _, rfl⟩, rfl, rfl⟩
  refine ⟨?_, item, referenced⟩
  intro other
  simp only [array, Pool.items_update]
  by_cases same : other = handle
  · simp [same]
  · simp [same]

variable [ScalarValue α]

/-- Beyond the end of an array, `array_item_at` leaves at most one new item in it, and that
one names no new scalar. -/
theorem not_meets_beyond {memory : Memory} {s : ℕ} {index : ℤ}
    (available : heap.Available handle) (inside : (heap.array handle).Inside)
    (beyond : ((heap.array handle).count : ℤ) ≤ index) (word : index < 2 ^ 63) :
    ¬heap.ItemAtMeets handle index (heap.itemAt memory s handle index) := by
  rintro ⟨result, after, returned, meets⟩
  rw [if_neg (by omega)] at meets
  rcases meets with ⟨new, window, _, count, fresh, _, _⟩
  obtain ⟨position, rfl⟩ : ∃ position : ℕ, index = position := ⟨index.toNat, by omega⟩
  have bound := inside.small
  have fits := inside.1
  rcases available with ⟨valid, used, unlocked⟩
  have stillUsed : (heap.arrays.update handle Pool.lockItem).HandleInUse handle := by
    simpa [Pool.HandleInUse, Pool.items_update, Pool.lockItem] using used
  have object : ((heap.arrays.update handle Pool.lockItem).items handle).object =
      heap.array handle := by
    simp [Pool.items_update, Pool.lockItem, array]
  have notNegative : ¬(position : ℤ) < 0 := by omega
  simp only [itemAt, Outcome.assertThat_of valid, Pool.lock_of_unlocked valid used unlocked,
    Outcome.ok_bind, if_true, Outcome.assertThat_of stillUsed, object, notNegative, if_false,
    sizeOfInt_natCast (show position < 2 ^ 64 by omega)] at returned
  by_cases grows : sizeAdd (heap.array handle).first (heap.array handle).count ≤ position
  · simp only [grows, if_true, Outcome.bind_eq_ok] at returned
    rcases returned with ⟨⟨status, grown⟩, reserved, rest⟩
    rcases ArrayT.reserve_window inside reserved with ⟨sameFirst, sameCount, sameHandles⟩
    by_cases failed : status ≠ 0
    · rw [if_pos failed] at rest
      simp only [Outcome.bind_eq_ok, Except.ok.injEq, Prod.mk.injEq, Pool.unlock,
        Outcome.assertThat_eq_ok] at rest
      rcases rest with ⟨_, ⟨_, _, _, _, rfl⟩, _, rfl⟩
      simp only [array, Pool.items_update, if_true] at count
      simp only [array] at sameCount beyond
      omega
    · rw [if_neg failed] at rest
      simp only [Outcome.bind_eq_ok] at rest
      rcases rest with ⟨arrays, looped, referenced⟩
      rcases referenceItem_eq_ok referenced with ⟨sameArrays, item, referencing⟩
      have atHandle : ((((heap.arrays.update handle Pool.lockItem).update handle
          fun wrapper => { wrapper with object := grown }).items handle)).object = grown := by
        simp [Pool.items_update]
      rw [sameArrays handle] at count window
      rcases growItems_object handle looped with unchanged | ⟨later, changed⟩
      · rw [atHandle] at unchanged
        simp only [array, unchanged] at count
        simp only [array] at sameCount beyond
        omega
      · rw [atHandle] at changed
        -- One new item, so the index is the size of the array, which starts at slot zero.
        simp only [array, changed] at count
        have exact : position = (heap.array handle).count := by
          simp only [array] at sameCount ⊢
          omega
        rw [sizeAdd_eq (by omega)] at grows
        have start : grown.first = 0 := by omega
        have added : new = [handle + 1] := by
          have both := window
          simp only [array, changed] at both
          rw [ArrayT.placed_back, sameHandles] at both
          exact (List.append_cancel_left both).symm
        have newScalar := fresh (handle + 1) (by simp [added])
        have need : sizeSub position (sizeSub (sizeAdd grown.first grown.count) 1) = 1 := by
          rw [start, sameCount, exact, sizeAdd_eq (by omega)]
          unfold sizeSub
          omega
        rw [need] at referencing
        have unused : (heap.store.allocateMany s 1).scalars (handle + 1) = none := by
          simp only [ScalarStore.allocateMany]
          rw [if_neg (by omega)]
          exact newScalar.1
        simp [reference_none referencing unused] at newScalar
  · simp only [grows, if_false] at returned
    rcases referenceItem_eq_ok returned with ⟨sameArrays, _⟩
    rw [sameArrays handle] at count
    have same : (⟨heap.arrays.update handle Pool.lockItem, heap.store⟩ : ArrayHeap α).array
        handle = heap.array handle := object
    rw [same] at count
    omega

theorem meets_inside (memory : Memory) (s : ℕ) {index : ℤ} (sound : heap.Sound)
    (inUse : heap.InUse handle) (lower : -((heap.array handle).count : ℤ) ≤ index)
    (upper : index < (heap.array handle).count) :
    heap.ItemAtMeets handle index (heap.itemAt memory s handle index) := by
  have small : (if index < 0 then index + (heap.array handle).count else index).toNat <
      (heap.array handle).count := by
    by_cases negative : index < 0
    · simp only [negative, if_true]
      omega
    · simp only [negative, if_false]
      omega
  have found := ArrayT.getElem?_handles small
  have used := sound.used inUse _ (List.mem_of_getElem? found)
  rcases Option.ne_none_iff_exists'.mp used with ⟨scalar, carried⟩
  have referenced := ScalarStore.reference_eq carried
  refine ⟨_, _, itemAt_inside (sound.available inUse) (sound.inside inUse) lower upper found
    referenced, ?_⟩
  rw [if_pos upper]
  exact ⟨found, referenced, rfl⟩

theorem itemAt_meets_iff {memory : Memory} {s : ℕ} {index : ℤ} (sound : heap.Sound)
    (inUse : heap.InUse handle) (lower : -((heap.array handle).count : ℤ) ≤ index)
    (word : index < 2 ^ 63) :
    heap.ItemAtMeets handle index (heap.itemAt memory s handle index) ↔
      index < (heap.array handle).count := by
  constructor
  · intro meets
    by_contra beyond
    exact not_meets_beyond (sound.available inUse) (sound.inside inUse) (by omega) word meets
  · exact meets_inside memory s sound inUse lower

/-- `array_item_at` that returns was given an array in use. -/
theorem itemAt_inUse {memory : Memory} {s result : ℕ} {index : ℤ}
    (success : heap.itemAt memory s handle index = .ok (result, after)) :
    heap.InUse handle := by
  simp only [itemAt, Outcome.bind_eq_ok, Outcome.assertThat_eq_ok] at success
  rcases success with ⟨_, _, ⟨_, _⟩, locked, _⟩
  rcases Pool.lock_eq_ok locked with ⟨valid, used, _⟩
  exact ⟨valid, used⟩

/-- A call that returns keeps the invariant, if an element it indexes is inside its array. -/
theorem Sound.step {request : ArrayRequest α} (sound : heap.Sound)
    (indexInside : heap.IndexInside request) (step : heap.Step request after) :
    after.Sound := by
  rcases request with ⟨call, memory, s⟩
  rcases step with ⟨allocates, performed⟩
  cases call with
  | push handle values =>
      simp only [perform, push, Outcome.bind_eq_ok, Except.ok.injEq] at performed
      rcases performed with ⟨⟨status, _⟩, pushed, rfl⟩
      rcases sound.onArray_eq_ok pushed with ⟨inUse, state, done, rfl⟩
      by_cases copied : ∃ copies, ArrayScalars.Copied memory values copies
      · rcases copied with ⟨copies, copied⟩
        rcases ArrayScalars.push_eq ⟨heap.array handle, heap.store⟩ copied
          (sound.inside inUse) allocates.1 (fun nonempty => (allocates.2 nonempty).1)
          with ⟨_, _, same, inside, ⟨_, window, store⟩ | ⟨_, unchanged, _⟩⟩
        · rw [done, Except.ok.injEq, Prod.mk.injEq] at same
          rcases same with ⟨_, rfl⟩
          have unused : copies ≠ [] → heap.store.Fresh s copies.length := by
            intro nonempty
            rw [← copied.length_eq]
            exact (allocates.2 (copied.ne_nil nonempty)).2
          rw [copied.length_eq] at window
          apply sound.add inUse inside unused ?_ store
          rw [window]
        · rw [done, Except.ok.injEq, Prod.mk.injEq] at same
          rw [same.2, unchanged, put_self]
          exact sound
      · have some : values ≠ [] := by
          rintro rfl
          exact copied ⟨[], List.Forall₂.nil⟩
        rw [(ArrayScalars.push_uncopied copied (sound.inside inUse) allocates.1
          (allocates.2 some).1 done).1, put_self]
        exact sound
  | unshift handle values =>
      simp only [perform, unshift, Outcome.bind_eq_ok, Except.ok.injEq] at performed
      rcases performed with ⟨⟨status, _⟩, unshifted, rfl⟩
      rcases sound.onArray_eq_ok unshifted with ⟨inUse, state, done, rfl⟩
      have nonzero := fun nonempty => (allocates.2 nonempty).1
      rcases ArrayScalars.unshift_copied nonzero done with ⟨copies, copied⟩
      rcases ArrayScalars.unshift_eq ⟨heap.array handle, heap.store⟩ copied
        (sound.inside inUse) allocates.1 nonzero
        with ⟨_, same, inside, window, store⟩ | ⟨failed, _⟩
      · rw [done, Except.ok.injEq, Prod.mk.injEq] at same
        rcases same with ⟨_, rfl⟩
        have unused : copies ≠ [] → heap.store.Fresh s copies.length := by
          intro nonempty
          rw [← copied.length_eq]
          exact (allocates.2 (copied.ne_nil nonempty)).2
        rw [copied.length_eq] at window
        apply sound.add inUse inside unused ?_ store
        rw [window]
        exact List.perm_append_comm
      · exact absurd done (failed _)
  | pop handle =>
      simp only [perform, pop, Outcome.bind_eq_ok, Except.ok.injEq] at performed
      rcases performed with ⟨⟨_, _⟩, popped, rfl⟩
      rcases sound.onArray_eq_ok popped with ⟨inUse, state, done, rfl⟩
      rcases (heap.array handle).handles.eq_nil_or_concat' with empty | ⟨rest, last, window⟩
      · rw [ArrayScalars.pop_empty memory ⟨heap.array handle, heap.store⟩ empty,
          Except.ok.injEq, Prod.mk.injEq] at done
        rw [← done.2, put_self]
        exact sound
      · have used := sound.used inUse last (by simp [window])
        rcases Option.ne_none_iff_exists'.mp used with ⟨scalar, carried⟩
        rcases ArrayScalars.pop_eq memory ⟨heap.array handle, heap.store⟩
          (sound.inside inUse) window carried with ⟨_, _, same, inside, handles, released⟩
        rw [done, eq_comm] at same
        rcases Outcome.bind_eq_ok.mp same with ⟨_, _, result⟩
        cases result
        apply sound.remove inUse inside ?_ released
        rw [window, handles]
        exact List.perm_append_comm
  | shift handle =>
      simp only [perform, shift, Outcome.bind_eq_ok, Except.ok.injEq] at performed
      rcases performed with ⟨⟨_, _⟩, shifted, rfl⟩
      rcases sound.onArray_eq_ok shifted with ⟨inUse, state, done, rfl⟩
      cases window : (heap.array handle).handles with
      | nil =>
          rw [ArrayScalars.shift_empty memory ⟨heap.array handle, heap.store⟩ window,
            Except.ok.injEq, Prod.mk.injEq] at done
          rw [← done.2, put_self]
          exact sound
      | cons first rest =>
          have used := sound.used inUse first (by simp [window])
          rcases Option.ne_none_iff_exists'.mp used with ⟨scalar, carried⟩
          rcases ArrayScalars.shift_eq memory ⟨heap.array handle, heap.store⟩
            (sound.inside inUse) window carried with ⟨_, _, same, inside, handles, released⟩
          rw [done, eq_comm] at same
          rcases Outcome.bind_eq_ok.mp same with ⟨_, _, result⟩
          cases result
          apply sound.remove inUse inside ?_ released
          rw [window, handles]
  | fill handle values =>
      simp only [perform, fill, Outcome.bind_eq_ok, Except.ok.injEq] at performed
      rcases performed with ⟨⟨status, _⟩, filled, rfl⟩
      rcases sound.onArray_eq_ok filled with ⟨inUse, state, done, rfl⟩
      rcases allocates with ⟨object, nonzero, fresh⟩
      rcases ArrayScalars.fill_eq_ok (sound.inside inUse) object nonzero done
        with ⟨released, copies, releasing, copied, inside, window, store⟩
      have unused := fresh released releasing
      rw [copied.length_eq] at window unused
      exact sound.refill inUse inside releasing unused window store
  | itemAt handle index =>
      simp only [perform, Outcome.bind_eq_ok, Except.ok.injEq] at performed
      rcases performed with ⟨⟨result, _⟩, returned, rfl⟩
      have inUse := itemAt_inUse returned
      rcases meets_inside memory s sound inUse indexInside.1 indexInside.2
        with ⟨_, last, same, meets⟩
      rw [returned, Except.ok.injEq, Prod.mk.injEq] at same
      rcases same with ⟨rfl, rfl⟩
      rw [if_pos indexInside.2] at meets
      rcases meets with ⟨_, referenced, arrays⟩
      have kept := sound.reference referenced
      rw [← arrays] at kept
      exact kept

/-- As long as every element indexed was inside its array, in every state reached
`array_item_at` does what it is to do for the indices inside an array, and for no others. -/
theorem itemAt_meets_iff_inside {start : ArrayHeap α}
    {steps : List (ArrayRequest α × ArrayHeap α)} (new : start.New)
    (run : IsRun Step start steps) (meet : StepsMeet IndexInside start steps) :
    ∀ heap ∈ visited start steps, ∀ handle, heap.InUse handle →
      ∀ (memory : Memory) (s : ℕ) (index : ℤ), -((heap.array handle).count : ℤ) ≤ index →
        index < 2 ^ 63 →
          (heap.ItemAtMeets handle index (heap.itemAt memory s handle index) ↔
            index < (heap.array handle).count) := by
  intro heap visits handle inUse memory s index lower word
  have sound := IsRun.forall_visited Step IndexInside Sound
    (fun _ _ _ invariant inside step => invariant.step inside step)
    new.sound run meet heap visits
  exact itemAt_meets_iff sound inUse lower word

/-- Two scalars pushed to a new array. -/
def pair : ArrayHeap Value :=
  ((single Value).perform ⟨.push 1 [.int 5, .int 7], .ample, 1⟩).toOption.getD (single Value)

theorem step_pair : Step (single Value) ⟨.push 1 [.int 5, .int 7], .ample, 1⟩ pair := by
  refine ⟨⟨by decide, fun _ => ⟨by decide, fun _ _ _ => rfl⟩⟩, ?_⟩
  rfl

theorem new_single (α : Type) : (single α).New := by
  rintro handle ⟨valid, used⟩
  by_cases one : handle = 1
  · subst one
    exact ⟨available_single α, rfl⟩
  · simp only [Pool.HandleInUse, single, one, if_false, stateInUse, sizeMax] at used
    split at used
    · omega
    · cases used

theorem itemAt_meets_iff_inside_pair :
    pair.ItemAtMeets 1 (-1) (pair.itemAt .ample 3 1 (-1)) :=
  (itemAt_meets_iff_inside (new_single Value)
    (show IsRun Step (single Value) [(⟨.push 1 [.int 5, .int 7], .ample, 1⟩, pair)] from
      ⟨step_pair, trivial⟩)
    ⟨trivial, trivial⟩ pair (by simp [visited]) 1
    ⟨by decide, rfl⟩ .ample 3 (-1) (by decide) (by decide)).mpr (by decide)

/-- The third element of an array with two: the array is not extended. -/
theorem itemAt_not_meets_end :
    Step (single Value) ⟨.push 1 [.int 5, .int 7], .ample, 1⟩ pair ∧ pair.InUse 1 ∧
      pair.store.Fresh 3 1 ∧
      ¬pair.ItemAtMeets 1 2 (pair.itemAt .ample 3 1 2) := by
  refine ⟨step_pair, ⟨by decide, rfl⟩, ?_, ?_⟩
  · intro handle lower upper
    have exact : handle = 3 := by omega
    subst exact
    rfl
  · have faults : pair.itemAt .ample 3 1 2 = .error .invalidAccess := by rfl
    rintro ⟨_, _, returned, _⟩
    rw [faults] at returned
    cases returned

end ArrayHeap

end Dang
