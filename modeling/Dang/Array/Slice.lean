import Dang.Array.ItemAt

/-!
# Slicing an array

`array_slice` reads each index as an `int` and tests for growth before it makes a negative
index relative to the end. It agrees with `array_item_at` exactly where neither matters.
What the elements held before is not followed.
-/

namespace Dang

namespace ArrayHeap

variable {α : Type}

/-- The end of a round of `array_slice`: the element refers to the item. -/
def sliceReference (heap : ArrayHeap α) (handle : ℕ) (index : ℤ) :
    Outcome (Option ℕ × ArrayHeap α) := do
  let array := heap.array handle
  let index := if index < 0 then Int.bmod (index + array.count) (2 ^ 32) else index
  let item ← array.item (sizeAdd array.first (sizeOfInt index))
  let (s, store) ← heap.store.reference item
  .ok (some s, ⟨heap.arrays, store⟩)

/-- A round of `array_slice`: the item that the element refers to, or none if there is no
storage to grow into. As in `array_item_at`, the new scalars hide the handle of the array. -/
def sliceItem [ScalarValue α] (memory : Memory) (s : ℕ) (heap : ArrayHeap α) (handle : ℕ)
    (value : ℤ) : Outcome (Option ℕ × ArrayHeap α) :=
  let index := Int.bmod value (2 ^ 32)
  let array := heap.array handle
  if sizeAdd array.first array.count ≤ sizeOfInt index then do
    let (status, array) ← array.reserve memory (sizeOfInt (Int.bmod (index + 1) (2 ^ 32)))
    let arrays := heap.arrays.update handle fun wrapper => { wrapper with object := array }
    if status ≠ 0 then .ok (none, ⟨arrays, heap.store⟩)
    else do
      let need := sizeSub (sizeOfInt index) (sizeSub (sizeAdd array.first array.count) 1)
      let store := heap.store.allocateMany s need
      let arrays ← growItems (sizeOfInt index) arrays s (arrays.allocatedCount + 1 - s)
      sliceReference ⟨arrays, store⟩ handle index
  else sliceReference heap handle index

/-- The loop of `array_slice` from round `i` on: whether it came to its end, and the items that
the elements refer to. The elements behind these are as they were. -/
def sliceItems [ScalarValue α] (memory : ℕ → Memory) (s : ℕ → ℕ) (i : ℕ) (heap : ArrayHeap α)
    (handle : ℕ) : List ℤ → Outcome ((Bool × List ℕ) × ArrayHeap α)
  | [] => .ok ((true, []), heap)
  | value :: values => do
      let (item, heap) ← sliceItem (memory i) (s i) heap handle value
      match item with
      | some item => do
          let ((complete, items), heap) ← sliceItems memory s (i + 1) heap handle values
          .ok ((complete, item :: items), heap)
      | none => .ok ((false, []), heap)

/-- `array_slice`. If there is no storage to grow into, it returns zero and leaves the array
locked. -/
def slice [ScalarValue α] (memory : ℕ → Memory) (s : ℕ → ℕ) (heap : ArrayHeap α) (handle : ℕ)
    (values : List ℤ) : Outcome ((ℤ × List ℕ) × ArrayHeap α) := do
  Outcome.assertThat (heap.arrays.HandleValid handle)
  if values = [] then .ok ((0, []), heap)
  else do
    let (status, arrays) ← heap.arrays.lock handle
    if status = 0 then do
      Outcome.assertThat (arrays.HandleInUse handle)
      let ((complete, items), heap) ← sliceItems memory s 0 ⟨arrays, heap.store⟩ handle values
      if complete then do
        let arrays ← heap.arrays.unlock handle
        .ok ((0, items), ⟨arrays, heap.store⟩)
      else .ok ((0, items), heap)
    else .ok ((-1, []), ⟨arrays, heap.store⟩)

/-- The place of an index, from the start of an array. -/
def place (count : ℕ) (index : ℤ) : ℤ := if index < 0 then index + count else index

/-- Slicing agrees with indexing: each element refers to the item that `array_item_at` returns,
the arrays stay as they are, and each element takes one new reference. -/
def SliceMeets [ScalarValue α] (heap : ArrayHeap α) (handle : ℕ) (values : List ℤ)
    (outcome : Outcome ((ℤ × List ℕ) × ArrayHeap α)) : Prop :=
  ∃ items after, outcome = .ok ((0, items), after) ∧ after.arrays = heap.arrays ∧
    (∀ memory s, List.Forall₂ (fun index item =>
      ∃ next, heap.itemAt memory s handle index = .ok (item, next)) values items) ∧
    ∀ s, after.store.scalars s = (heap.store.scalars s).map fun scalar =>
      { scalar with references := scalar.references + items.count s }

variable {heap after : ArrayHeap α} {handle : ℕ}

/-- Growing an array does not shrink its buffer. -/
theorem reserve_inside {memory : Memory} {array grown : ArrayT} {targetSize : ℕ} {status : ℤ}
    (inside : array.Inside) (success : array.reserve memory targetSize = .ok (status, grown)) :
    grown.Inside := by
  simp only [ArrayT.reserve] at success
  split at success
  · simp only [ArrayT.growBack] at success
    split at success
    case isTrue storage =>
      split at success
      · simp only [Except.ok.injEq, Prod.mk.injEq] at success
        rcases success with ⟨_, rfl⟩
        have window := inside.1
        refine ⟨?_, memory.calloc_fits _ _ storage⟩
        simp only
        omega
      · cases success
    case isFalse =>
      cases success
      exact inside
  · cases success
    exact inside

/-- With the number of a negative index, the loop after the growth never ends inside the pool. -/
theorem growItems_never {position rounds s : ℕ} {arrays grown : Pool ArrayT}
    (beyond : 2 ^ 63 ≤ position) (word : position < 2 ^ 64)
    (inside : ∀ other, (arrays.items other).object.Inside) :
    growItems position arrays s rounds ≠ .ok grown := by
  induction rounds generalizing arrays s with
  | zero => simp [growItems]
  | succ rounds ih =>
      intro success
      simp only [growItems, Outcome.bind_eq_ok, Pool.wrapper_eq_ok] at success
      rcases success with ⟨_, ⟨_, rfl⟩, rest⟩
      have window := (inside s).1
      have small := (inside s).small
      have goesOn : (arrays.items s).object.count ≤
          sizeSub position (arrays.items s).object.first := by
        rw [sizeSub_eq (by omega) word]
        omega
      simp only [goesOn, if_true, Outcome.bind_eq_ok] at rest
      rcases rest with ⟨written, writing, rest⟩
      by_cases room : (arrays.items s).object.first + (arrays.items s).object.count <
          (arrays.items s).object.allocatedCount
      · rw [ArrayT.setItem_of room, Except.ok.injEq] at writing
        subst writing
        apply ih _ rest
        intro other
        rw [Pool.items_update]
        by_cases here : other = s
        · subst here
          rw [if_pos rfl]
          refine ⟨?_, (inside other).2⟩
          simp only [ArrayT.placed]
          omega
        · rw [if_neg here]
          exact inside other
      · simp [ArrayT.setItem, room] at writing

/-- One more reference to a scalar in use. -/
theorem exists_reference {store : ScalarStore α} {item : ℕ} (used : store.scalars item ≠ none) :
    ∃ next, store.reference item = .ok (item, next) ∧ ∀ s, next.scalars s =
      (store.scalars s).map fun scalar =>
        { scalar with references := scalar.references + [item].count s } := by
  rcases Option.ne_none_iff_exists'.mp used with ⟨scalar, carried⟩
  refine ⟨_, ScalarStore.reference_eq carried, ?_⟩
  intro s
  rw [ScalarStore.scalars_set, List.count_singleton]
  by_cases same : s = item
  · subst same
    simp [carried]
  · simp [same, Ne.symm same]

/-- The array of a heap whose arrays are locked. -/
theorem array_lockItem (heap : ArrayHeap α) (handle : ℕ) (store : ScalarStore α) (other : ℕ) :
    (⟨heap.arrays.update handle Pool.lockItem, store⟩ : ArrayHeap α).array other =
      heap.array other := by
  simp only [array, Pool.items_update]
  by_cases here : other = handle
  · subst here
    rw [if_pos rfl]
    rfl
  · rw [if_neg here]

/-- A scalar has one place in an array. -/
theorem Sound.place_unique (sound : heap.Sound) (inUse : heap.InUse handle) {first second item : ℕ}
    (found : (heap.array handle).handles[first]? = some item)
    (other : (heap.array handle).handles[second]? = some item) : first = second := by
  rcases List.getElem?_eq_some_iff.mp found with ⟨below, _⟩
  exact (List.getElem?_inj below (sound.distinct inUse)).mp (found.trans other.symm)

variable [ScalarValue α]

/-- A round of `array_slice` on a place inside the array. -/
theorem sliceItem_inside (memory : Memory) (s : ℕ) {value : ℤ} {item : ℕ} {store : ScalarStore α}
    (inside : (heap.array handle).Inside) (lower : 0 ≤ Int.bmod value (2 ^ 32))
    (found : (heap.array handle).handles[(Int.bmod value (2 ^ 32)).toNat]? = some item)
    (referenced : heap.store.reference item = .ok (item, store)) :
    heap.sliceItem memory s handle value = .ok (some item, ⟨heap.arrays, store⟩) := by
  have window := inside.1
  have small := inside.small
  rcases Int.eq_ofNat_of_zero_le lower with ⟨position, same⟩
  rw [same, Int.toNat_natCast] at found
  have below : position < (heap.array handle).count := by
    have some := List.getElem?_eq_some_iff.mp found
    rcases some with ⟨below, _⟩
    rwa [ArrayT.length_handles] at below
  rw [ArrayT.getElem?_handles below, Option.some.injEq] at found
  have within : ¬sizeAdd (heap.array handle).first (heap.array handle).count ≤ position := by
    rw [sizeAdd_eq (by omega)]
    omega
  have read : (heap.array handle).item (sizeAdd (heap.array handle).first position) =
      .ok item := by
    rw [sizeAdd_eq (by omega), ArrayT.item_of (by omega), found]
  have notNegative : ¬(position : ℤ) < 0 := by omega
  simp only [sliceItem, same, sizeOfInt_natCast (show position < 2 ^ 64 by omega), within, if_false,
    sliceReference, notNegative, read, Outcome.ok_bind, referenced]

/-- A round of `array_slice` on a negative index does not come to its end. -/
theorem sliceItem_negative {memory : Memory} {s : ℕ} {value : ℤ} {result : Option ℕ}
    (inside : ∀ other, (heap.array other).Inside) (negative : Int.bmod value (2 ^ 32) < 0)
    (success : heap.sliceItem memory s handle value = .ok (result, after)) : result = none := by
  have window := (inside handle).1
  have small := (inside handle).small
  have lower : -(2 ^ 31) ≤ Int.bmod value (2 ^ 32) := by
    unfold Int.bmod
    dsimp only
    split
    · omega
    · omega
  have position : sizeOfInt (Int.bmod value (2 ^ 32)) =
      (Int.bmod value (2 ^ 32) + 2 ^ 64).toNat := by
    unfold sizeOfInt
    omega
  have grows : sizeAdd (heap.array handle).first (heap.array handle).count ≤
      sizeOfInt (Int.bmod value (2 ^ 32)) := by
    rw [sizeAdd_eq (by omega), position]
    omega
  simp only [sliceItem, grows, if_true, Outcome.bind_eq_ok] at success
  rcases success with ⟨⟨status, grown⟩, reserved, rest⟩
  by_cases failed : status ≠ 0
  · rw [if_pos failed] at rest
    cases rest
    rfl
  · rw [if_neg failed] at rest
    simp only [Outcome.bind_eq_ok] at rest
    rcases rest with ⟨arrays, looped, _⟩
    refine absurd looped (growItems_never (by omega) (by omega) ?_)
    intro other
    rw [Pool.items_update]
    by_cases here : other = handle
    · rw [if_pos here]
      exact reserve_inside (inside handle) reserved
    · rw [if_neg here]
      exact inside other

/-- An index that leads inside the array as an `int` leads inside it, if it is inside itself. -/
theorem bmod_lt {count : ℕ} {value : ℤ} (inside : -(count : ℤ) ≤ value ∧ value < count) :
    Int.bmod value (2 ^ 32) < count := by
  unfold Int.bmod
  dsimp only
  split
  · omega
  · omega

/-- The loop of `array_slice`, where each index leads to its place as an `int`. -/
theorem sliceItems_eq (memory : ℕ → Memory) (s : ℕ → ℕ) (i : ℕ) {values : List ℤ}
    (inside : (heap.array handle).Inside)
    (used : ∀ item ∈ (heap.array handle).handles, heap.store.scalars item ≠ none)
    (places : ∀ value ∈ values, 0 ≤ Int.bmod value (2 ^ 32) ∧
      Int.bmod value (2 ^ 32) < (heap.array handle).count) :
    ∃ items store, heap.sliceItems memory s i handle values =
        .ok ((true, items), ⟨heap.arrays, store⟩) ∧
      List.Forall₂ (fun value item => (heap.array handle).handles[(Int.bmod value
        (2 ^ 32)).toNat]? = some item) values items ∧
      ∀ s, store.scalars s = (heap.store.scalars s).map fun scalar =>
        { scalar with references := scalar.references + items.count s } := by
  induction values generalizing heap i with
  | nil =>
      refine ⟨[], heap.store, rfl, List.Forall₂.nil, ?_⟩
      intro s
      simp
  | cons value values ih =>
      rcases places value List.mem_cons_self with ⟨lower, upper⟩
      have below : (Int.bmod value (2 ^ 32)).toNat < (heap.array handle).count := by omega
      have found := ArrayT.getElem?_handles below
      rcases exists_reference (used _ (List.mem_of_getElem? found))
        with ⟨next, referenced, counts⟩
      have round := sliceItem_inside (memory i) (s i) inside lower found referenced
      have stillUsed : ∀ item ∈ (heap.array handle).handles, next.scalars item ≠ none := by
        intro item mem
        rw [counts, ne_eq, Option.map_eq_none_iff]
        exact used item mem
      have rest := @ih ⟨heap.arrays, next⟩ (i + 1) inside stillUsed
        (fun other mem => places other (List.mem_cons_of_mem _ mem))
      rcases rest with ⟨items, store, sliced, agree, later⟩
      refine ⟨_, store, ?_, List.Forall₂.cons found agree, ?_⟩
      · simp only [sliceItems, round, Outcome.ok_bind, sliced]
      · intro s
        rw [later, counts, Option.map_map]
        congr 1
        funext scalar
        simp only [Function.comp_apply, List.count_nil, List.count_cons,
          PooledScalar.mk.injEq, and_true]
        omega

/-- How far the loop of `array_slice` comes: each index up to there leads to its item as an `int`,
and the next one, if there is one left, is negative as an `int`. -/
theorem sliceItems_reached {memory : ℕ → Memory} {s : ℕ → ℕ} {i : ℕ} {values : List ℤ}
    {complete : Bool} {items : List ℕ} (inside : ∀ other, (heap.array other).Inside)
    (used : ∀ item ∈ (heap.array handle).handles, heap.store.scalars item ≠ none)
    (range : ∀ value ∈ values, -((heap.array handle).count : ℤ) ≤ value ∧
      value < (heap.array handle).count)
    (success : heap.sliceItems memory s i handle values = .ok ((complete, items), after)) :
    ∃ done left, values = done ++ left ∧
      List.Forall₂ (fun value item => 0 ≤ Int.bmod value (2 ^ 32) ∧
        (heap.array handle).handles[(Int.bmod value (2 ^ 32)).toNat]? = some item) done items ∧
      ∀ value ∈ left.head?, Int.bmod value (2 ^ 32) < 0 := by
  induction values generalizing heap i complete items with
  | nil =>
      simp only [sliceItems, Except.ok.injEq, Prod.mk.injEq] at success
      rcases success with ⟨⟨_, rfl⟩, _⟩
      exact ⟨[], [], rfl, List.Forall₂.nil, by simp⟩
  | cons value values ih =>
      have upper := bmod_lt (range value List.mem_cons_self)
      simp only [sliceItems, Outcome.bind_eq_ok] at success
      rcases success with ⟨⟨result, next⟩, round, rest⟩
      by_cases lower : 0 ≤ Int.bmod value (2 ^ 32)
      · have below : (Int.bmod value (2 ^ 32)).toNat < (heap.array handle).count := by omega
        have found := ArrayT.getElem?_handles below
        rcases exists_reference (used _ (List.mem_of_getElem? found))
          with ⟨store, referenced, counts⟩
        rw [sliceItem_inside (memory i) (s i) (inside handle) lower found referenced,
          Except.ok.injEq, Prod.mk.injEq] at round
        rcases round with ⟨rfl, rfl⟩
        simp only [Outcome.bind_eq_ok, Except.ok.injEq, Prod.mk.injEq] at rest
        rcases rest with ⟨⟨⟨complete', others⟩, last⟩, sliced, ⟨_, rfl⟩, rfl⟩
        have stillUsed : ∀ item ∈ (heap.array handle).handles, store.scalars item ≠ none := by
          intro item mem
          rw [counts, ne_eq, Option.map_eq_none_iff]
          exact used item mem
        rcases @ih ⟨heap.arrays, store⟩ (i + 1) complete' others inside stillUsed
          (fun other mem => range other (List.mem_cons_of_mem _ mem)) sliced with
          ⟨done, left, rfl, leads, stops⟩
        exact ⟨value :: done, left, rfl, List.Forall₂.cons ⟨lower, found⟩ leads, stops⟩
      · have negative : Int.bmod value (2 ^ 32) < 0 := by omega
        rw [sliceItem_negative inside negative round] at rest
        simp only [Except.ok.injEq, Prod.mk.injEq] at rest
        rcases rest with ⟨⟨_, rfl⟩, _⟩
        refine ⟨[], value :: values, rfl, List.Forall₂.nil, ?_⟩
        intro first mem
        cases mem
        exact negative

/-- What `array_slice` does to an array that is not locked, after it locked it. -/
theorem slice_eq {memory : ℕ → Memory} {s : ℕ → ℕ} {values : List ℤ}
    (available : heap.Available handle) (nonempty : values ≠ []) :
    heap.slice memory s handle values = (do
      let ((complete, items), heap) ← sliceItems memory s 0
        ⟨heap.arrays.update handle Pool.lockItem, heap.store⟩ handle values
      if complete then do
        let arrays ← heap.arrays.unlock handle
        .ok ((0, items), ⟨arrays, heap.store⟩)
      else .ok ((0, items), heap)) := by
  rcases available with ⟨valid, used, unlocked⟩
  have stillUsed : (heap.arrays.update handle Pool.lockItem).HandleInUse handle := by
    simpa [Pool.HandleInUse, Pool.items_update, Pool.lockItem] using used
  simp only [slice, Outcome.assertThat_of valid, Outcome.ok_bind, if_neg nonempty,
    Pool.lock_of_unlocked valid used unlocked, if_true, Outcome.assertThat_of stillUsed]

/-- `array_item_at` inside an array. -/
theorem itemAt_place (memory : Memory) (s : ℕ) {index : ℤ} (sound : heap.Sound)
    (inUse : heap.InUse handle)
    (range : -((heap.array handle).count : ℤ) ≤ index ∧ index < (heap.array handle).count) :
    ∃ item next, heap.itemAt memory s handle index = .ok (item, next) ∧
      (heap.array handle).handles[(place (heap.array handle).count index).toNat]? = some item := by
  have below : (place (heap.array handle).count index).toNat < (heap.array handle).count := by
    unfold place
    split
    · omega
    · omega
  have found := ArrayT.getElem?_handles below
  rcases exists_reference (sound.used inUse _ (List.mem_of_getElem? found))
    with ⟨next, referenced, _⟩
  exact ⟨_, _, itemAt_inside (sound.available inUse) (sound.inside inUse) range.1 range.2 found
    referenced, found⟩

/-- Slicing where each index leads inside the array as an `int`. -/
theorem slice_of (memory : ℕ → Memory) (s : ℕ → ℕ) {values : List ℤ} (sound : heap.Sound)
    (inUse : heap.InUse handle)
    (places : ∀ value ∈ values, 0 ≤ Int.bmod value (2 ^ 32) ∧
      Int.bmod value (2 ^ 32) < (heap.array handle).count) :
    ∃ items store, heap.slice memory s handle values = .ok ((0, items), ⟨heap.arrays, store⟩) ∧
      List.Forall₂ (fun value item => (heap.array handle).handles[(Int.bmod value
        (2 ^ 32)).toNat]? = some item) values items ∧
      ∀ s, store.scalars s = (heap.store.scalars s).map fun scalar =>
        { scalar with references := scalar.references + items.count s } := by
  rcases sound.available inUse with ⟨valid, used, unlocked⟩
  by_cases empty : values = []
  · subst empty
    refine ⟨[], heap.store, ?_, List.Forall₂.nil, fun s => by simp⟩
    simp only [slice, Outcome.assertThat_of valid, Outcome.ok_bind, if_true]
  · have same := array_lockItem heap handle heap.store handle
    rcases @sliceItems_eq α ⟨heap.arrays.update handle Pool.lockItem, heap.store⟩ handle _ memory s
      0 values (by rw [same]; exact sound.inside inUse) (by rw [same]; exact sound.used inUse)
      (by rw [same]; exact places) with ⟨items, store, sliced, agree, counts⟩
    rw [same] at agree
    refine ⟨items, store, ?_, agree, counts⟩
    simp only [slice_eq (sound.available inUse) empty, sliced, Outcome.ok_bind, if_true,
      Pool.unlock_lockItem valid used unlocked]

/-- How far `array_slice` comes, if it returns. -/
theorem slice_reached {memory : ℕ → Memory} {s : ℕ → ℕ} {values : List ℤ} {status : ℤ}
    {items : List ℕ} (sound : heap.Sound) (inUse : heap.InUse handle)
    (unused : ∀ other, ¬heap.InUse other → (heap.array other).Inside)
    (range : ∀ value ∈ values, -((heap.array handle).count : ℤ) ≤ value ∧
      value < (heap.array handle).count)
    (success : heap.slice memory s handle values = .ok ((status, items), after)) :
    ∃ done left, values = done ++ left ∧
      List.Forall₂ (fun value item => 0 ≤ Int.bmod value (2 ^ 32) ∧
        (heap.array handle).handles[(Int.bmod value (2 ^ 32)).toNat]? = some item) done items ∧
      ∀ value ∈ left.head?, Int.bmod value (2 ^ 32) < 0 := by
  have inside : ∀ other, (heap.array other).Inside := by
    intro other
    by_cases inUse : heap.InUse other
    · exact sound.inside inUse
    · exact unused other inUse
  by_cases empty : values = []
  · subst empty
    have valid := (sound.available inUse).1
    simp only [slice, Outcome.assertThat_of valid, Outcome.ok_bind, if_true, Except.ok.injEq,
      Prod.mk.injEq] at success
    rcases success with ⟨⟨_, rfl⟩, _⟩
    exact ⟨[], [], rfl, List.Forall₂.nil, by simp⟩
  · have same := array_lockItem heap handle heap.store
    simp only [slice_eq (sound.available inUse) empty, Outcome.bind_eq_ok] at success
    rcases success with ⟨⟨⟨complete, others⟩, last⟩, looped, rest⟩
    have items_eq : others = items := by
      cases complete with
      | false =>
          cases rest
          rfl
      | true =>
          simp only [if_true, Outcome.bind_eq_ok, Except.ok.injEq, Prod.mk.injEq] at rest
          rcases rest with ⟨_, _, ⟨_, rfl⟩, _⟩
          rfl
    subst items_eq
    have reached := sliceItems_reached (by intro other; rw [same]; exact inside other)
      (by rw [same]; exact sound.used inUse) (by rw [same]; exact range) looped
    rw [same] at reached
    exact reached

/-- Slicing agrees with indexing where each index leads to its place as an `int`. -/
theorem slice_meets {memory : ℕ → Memory} {s : ℕ → ℕ} {values : List ℤ} (sound : heap.Sound)
    (inUse : heap.InUse handle)
    (range : ∀ value ∈ values, -((heap.array handle).count : ℤ) ≤ value ∧
      value < (heap.array handle).count)
    (places : ∀ value ∈ values,
      Int.bmod value (2 ^ 32) = place (heap.array handle).count value) :
    heap.SliceMeets handle values (heap.slice memory s handle values) := by
  have bounds : ∀ value ∈ values, 0 ≤ Int.bmod value (2 ^ 32) ∧
      Int.bmod value (2 ^ 32) < (heap.array handle).count := by
    intro value mem
    have inRange := range value mem
    rw [places value mem, place]
    split
    · omega
    · omega
  rcases slice_of memory s sound inUse bounds with ⟨items, store, sliced, agree, counts⟩
  refine ⟨items, ⟨heap.arrays, store⟩, sliced, rfl, ?_, counts⟩
  intro memory s
  have both := (List.forall₂_and_left (p := fun value : ℤ =>
    (-((heap.array handle).count : ℤ) ≤ value ∧ value < (heap.array handle).count) ∧
      Int.bmod value (2 ^ 32) = place (heap.array handle).count value) values items).mpr
    ⟨fun value mem => ⟨range value mem, places value mem⟩, agree⟩
  apply both.imp
  rintro value item ⟨⟨inRange, leads⟩, found⟩
  rcases itemAt_place memory s sound inUse inRange with ⟨other, next, returned, foundOther⟩
  rw [leads, foundOther, Option.some.injEq] at found
  subst found
  exact ⟨next, returned⟩

/-- Slicing agrees with indexing exactly if each index leads to its place as an `int`. Arrays
that are not in use are as `calloc` or `_array_destroy` leaves them. -/
theorem slice_meets_iff {memory : ℕ → Memory} {s : ℕ → ℕ} {values : List ℤ} (sound : heap.Sound)
    (inUse : heap.InUse handle) (unused : ∀ other, ¬heap.InUse other → (heap.array other).Inside)
    (range : ∀ value ∈ values, -((heap.array handle).count : ℤ) ≤ value ∧
      value < (heap.array handle).count) :
    heap.SliceMeets handle values (heap.slice memory s handle values) ↔
      ∀ value ∈ values, Int.bmod value (2 ^ 32) = place (heap.array handle).count value := by
  constructor
  · rintro ⟨items, after, sliced, _, agree, _⟩
    have length := (agree .ample 0).length_eq
    rcases slice_reached sound inUse unused range sliced with ⟨done, left, rfl, leads, _⟩
    have none : left = [] := by
      have counts := leads.length_eq
      rw [List.length_append] at length
      exact List.length_eq_zero_iff.mp (by omega)
    subst none
    rw [List.append_nil] at range agree ⊢
    have ranged := (List.forall₂_and_left (p := fun value : ℤ =>
      -((heap.array handle).count : ℤ) ≤ value ∧ value < (heap.array handle).count)
      done items).mpr ⟨range, leads⟩
    have places : List.Forall₂ (fun value item => Int.bmod value (2 ^ 32) =
        place (heap.array handle).count value ∧ True) done items := by
      apply List.Forall₂.mp ?_ ranged (agree .ample 0)
      rintro value item ⟨inRange, lower, found⟩ ⟨next, returned⟩
      rcases itemAt_place .ample 0 sound inUse inRange with ⟨other, next', returned', foundOther⟩
      rw [returned, Except.ok.injEq, Prod.mk.injEq] at returned'
      rcases returned' with ⟨rfl, _⟩
      have position := sound.place_unique inUse found foundOther
      have atLeast : 0 ≤ place (heap.array handle).count value := by
        unfold place
        split
        · omega
        · omega
      refine ⟨?_, trivial⟩
      omega
    exact ((List.forall₂_and_left done items).mp places).1
  · exact slice_meets sound inUse range

theorem slice_meets_iff_pair : pair.SliceMeets 1 [1, 0, 1]
    (pair.slice (fun _ => .ample) (fun _ => 0) 1 [1, 0, 1]) := by
  have one_inside : (single Value).IndexInside ⟨.push 1 [.int 5, .int 7], .ample, 1⟩ := trivial
  have sound : pair.Sound := (new_single Value).sound.step one_inside step_pair
  have inUse : pair.InUse 1 := ⟨by decide, rfl⟩
  have pushed : (single Value).push .ample 1 1 [.int 5, .int 7] = .ok (0, pair) := by rfl
  rcases (new_single Value).sound.onArray_eq_ok pushed with ⟨_, state, _, same⟩
  have unused : ∀ other, ¬pair.InUse other → (pair.array other).Inside := by
    intro other outside
    by_cases one : other = 1
    · subst one
      exact absurd inUse outside
    · rw [same, array_put, if_neg one]
      simp [single, array, one, ArrayT.Inside]
  exact (slice_meets_iff sound inUse unused (by decide)).mpr (by decide)

/-- The last element of an array with two: `array_slice` takes its index for one beyond the
end. -/
theorem slice_not_meets_last :
    Step (single Value) ⟨.push 1 [.int 5, .int 7], .ample, 1⟩ pair ∧ pair.InUse 1 ∧
      pair.slice (fun _ => .ample) (fun _ => 0) 1 [-1] = .error .invalidAccess ∧
      ¬pair.SliceMeets 1 [-1] (pair.slice (fun _ => .ample) (fun _ => 0) 1 [-1]) := by
  have faults : pair.slice (fun _ => .ample) (fun _ => 0) 1 [-1] = .error .invalidAccess := by
    rfl
  refine ⟨step_pair, ⟨by decide, rfl⟩, faults, ?_⟩
  rintro ⟨_, _, returned, _⟩
  rw [faults] at returned
  cases returned

end ArrayHeap

end Dang
