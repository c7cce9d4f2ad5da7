import Dang.Pool.Basic
import Dang.Scalar.Store
import Dang.Util

/-!
# Arrays

The arrays of `array.c`: a window of scalar handles inside a buffer that grows at
either end. Functions on the array and the scalars alone come first; the public
functions reach the array through its pool. A parameter `s` is what
`scalar_allocate_many` returned, zero for a failure.
-/

namespace Dang

/-- `sizeof(scalar_handle_t)` -/
def sizeofHandle : ℕ := 8

/-- `array_t`, with `items index` for `m_items[index]`. -/
structure ArrayT where
  allocatedCount : ℕ
  count : ℕ
  first : ℕ
  items : ℕ → ℕ

namespace ArrayT

/-- `_array_init` with `_array_initial_reserve_size` -/
def init : ArrayT where
  allocatedCount := 16
  count := 0
  first := 0
  items := fun _ => 0

/-- Reading `m_items[index]`. -/
def item (array : ArrayT) (index : ℕ) : Outcome ℕ :=
  if index < array.allocatedCount then .ok (array.items index) else .error .invalidAccess

/-- Writing `m_items[index]`. -/
def setItem (array : ArrayT) (index handle : ℕ) : Outcome ArrayT :=
  if index < array.allocatedCount then
    .ok { array with items := Function.update array.items index handle }
  else
    .error .invalidAccess

/-- `_array_grow_back_unlocked` -/
def growBack (memory : Memory) (array : ArrayT) (n : ℕ) : Outcome (ℤ × ArrayT) :=
  let newSize := nextupow2 (sizeAdd array.allocatedCount n)
  if memory.calloc newSize sizeofHandle then
    if array.allocatedCount ≤ newSize then
      .ok (0,
        { array with
          allocatedCount := newSize
          items := fun index => if index < array.allocatedCount then array.items index else 0 })
    else
      .error .invalidAccess
  else
    .ok (-1, array)

/-- `_array_grow_front_unlocked` -/
def growFront (memory : Memory) (array : ArrayT) (n : ℕ) : Outcome (ℤ × ArrayT) :=
  let n := nextupow2 n
  let newSize := sizeAdd array.allocatedCount n
  if memory.calloc newSize sizeofHandle then
    if n + array.allocatedCount ≤ newSize then
      .ok (0,
        { array with
          allocatedCount := newSize
          first := array.first + n
          items := fun index =>
            if n ≤ index ∧ index < n + array.allocatedCount then array.items (index - n) else 0 })
    else
      .error .invalidAccess
  else
    .ok (-1, array)

/-- `_array_reserve_unlocked` -/
def reserve (memory : Memory) (array : ArrayT) (targetSize : ℕ) : Outcome (ℤ × ArrayT) :=
  let effectiveSize := sizeSub array.allocatedCount array.first
  if effectiveSize < targetSize then array.growBack memory (targetSize - effectiveSize)
  else .ok (0, array)

/-- The handles in the window. -/
def handles (array : ArrayT) : List ℕ := (List.range' array.first array.count).map array.items

end ArrayT

/-- An array and the scalars. -/
structure ArrayScalars (α : Type) where
  array : ArrayT
  store : ScalarStore α

namespace ArrayScalars

variable {α : Type} [ScalarValue α]

/-- The loop that gives new scalars their values and puts them into the array. -/
def fillItems (memory : Memory) (state : ArrayScalars α) (index s : ℕ) :
    List α → Outcome (ArrayScalars α)
  | [] => .ok state
  | value :: values => do
      let store ← state.store.setValue memory s value
      let array ← state.array.setItem index s
      fillItems memory ⟨array, store⟩ (index + 1) (s + 1) values

/-- The loop that releases the scalars in the items from `index` on. -/
def releaseItems (array : ArrayT) (store : ScalarStore α) (index : ℕ) :
    ℕ → Outcome (ScalarStore α)
  | 0 => .ok store
  | rounds + 1 => do
      let handle ← array.item index
      let store ← store.release handle
      releaseItems array store (index + 1) rounds

/-- The loop of `array_list`. -/
def listItems (memory : Memory) (state : ArrayScalars α) (index : ℕ) : ℕ → Outcome (List α)
  | 0 => .ok []
  | rounds + 1 => do
      let handle ← state.array.item index
      let value ← state.store.getValue memory handle
      let values ← state.listItems memory (index + 1) rounds
      .ok (value :: values)

/-- `array_push` on the locked array. -/
def push (memory : Memory) (s : ℕ) (state : ArrayScalars α) (values : List α) :
    Outcome (ℤ × ArrayScalars α) :=
  if 0 < values.length then do
    let (status, array) ← state.array.reserve memory (state.array.count + values.length)
    if status ≠ 0 then .ok (-1, { state with array := array })
    else if s ≠ 0 then do
      let store := state.store.allocateMany s values.length
      let state ← fillItems memory ⟨array, store⟩ (array.first + array.count) s values
      .ok (0, { state with
        array := { state.array with count := state.array.count + values.length } })
    else .ok (-1, { state with array := array })
  else .ok (0, state)

/-- Where `array_unshift` makes room for new items: the array, and the index they start at. -/
def unshiftStart (memory : Memory) (array : ArrayT) (count : ℕ) : Outcome (ℕ × ArrayT) :=
  if array.count = 0 then do
    let (_, array) ← array.reserve memory count
    .ok (0, array)
  else if array.first ≤ count then do
    let (_, array) ← array.growFront memory count
    .ok (sizeSub array.first count, array)
  else .ok (sizeSub array.first count, array)

/-- `array_unshift` on the locked array. -/
def unshift (memory : Memory) (s : ℕ) (state : ArrayScalars α) (values : List α) :
    Outcome (ℤ × ArrayScalars α) :=
  if 0 < values.length then do
    let (start, array) ← unshiftStart memory state.array values.length
    if s ≠ 0 then do
      let store := state.store.allocateMany s values.length
      let state ← fillItems memory ⟨array, store⟩ start s values
      .ok (0, { state with
        array := { state.array with
          first := start, count := state.array.count + values.length } })
    else .ok (-1, { state with array := array })
  else .ok (0, state)

/-- `array_pop` on the locked array, with the value for `result`. -/
def pop (memory : Memory) (state : ArrayScalars α) :
    Outcome ((ℤ × Option α) × ArrayScalars α) :=
  if 0 < state.array.count then do
    let array := { state.array with count := state.array.count - 1 }
    let s ← array.item (array.first + array.count)
    let value ← state.store.getValue memory s
    let store ← state.store.release s
    .ok ((0, some value), ⟨array, store⟩)
  else .ok ((-1, none), state)

/-- `array_shift` on the locked array, with the value for `result`. -/
def shift (memory : Memory) (state : ArrayScalars α) :
    Outcome ((ℤ × Option α) × ArrayScalars α) :=
  if 0 < state.array.count then do
    let array := { state.array with count := state.array.count - 1 }
    let s ← array.item array.first
    let array := { array with first := array.first + 1 }
    let value ← state.store.getValue memory s
    let store ← state.store.release s
    .ok ((0, some value), ⟨array, store⟩)
  else .ok ((-1, none), state)

/-- `array_list` on the locked array: the status, and the values passed back. -/
def list (memory : Memory) (state : ArrayScalars α) : Outcome (ℤ × List α) :=
  if 0 < state.array.count then
    if memory.calloc state.array.count sizeofScalar then do
      let values ← state.listItems memory state.array.first state.array.count
      .ok (0, values)
    else .ok (-1, [])
  else .ok (0, [])

/-- `array_fill` on the locked array. `scalar_allocate_many` asserts that the count is not
zero. -/
def fill (memory : Memory) (s : ℕ) (state : ArrayScalars α) (values : List α) :
    Outcome (ℤ × ArrayScalars α) := do
  let store ← releaseItems state.array state.store state.array.first state.array.count
  let array := { state.array with items := fun _ => 0, first := 0 }
  let (_, array) ← array.reserve memory values.length
  Outcome.assertThat (0 < values.length)
  let state ← fillItems memory ⟨array, store.allocateMany s values.length⟩ 0 s values
  .ok (0, { state with array := { state.array with count := values.length } })

end ArrayScalars

/-- The pool of arrays and the pool of scalars. -/
structure ArrayHeap (α : Type) where
  arrays : Pool ArrayT
  store : ScalarStore α

namespace ArrayHeap

variable {α β : Type} [ScalarValue α]

/-- `ARRAY(handle)` -/
def array (heap : ArrayHeap α) (handle : ℕ) : ArrayT := (heap.arrays.items handle).object

/-- The heap with one array replaced, and its scalars. -/
def put (heap : ArrayHeap α) (handle : ℕ) (state : ArrayScalars α) : ArrayHeap α where
  arrays := heap.arrays.update handle fun wrapper => { wrapper with object := state.array }
  store := state.store

/-- What the public functions do around their bodies. They return `failed` when the array
cannot be locked. -/
def onArray (heap : ArrayHeap α) (handle : ℕ) (failed : β)
    (body : ArrayScalars α → Outcome (β × ArrayScalars α)) : Outcome (β × ArrayHeap α) := do
  Outcome.assertThat (heap.arrays.HandleValid handle)
  let (status, arrays) ← heap.arrays.lock handle
  if status = 0 then
    Outcome.assertThat (arrays.HandleInUse handle)
    let heap : ArrayHeap α := ⟨arrays, heap.store⟩
    let (result, state) ← body ⟨heap.array handle, heap.store⟩
    let heap := heap.put handle state
    let arrays ← heap.arrays.unlock handle
    .ok (result, { heap with arrays := arrays })
  else
    .ok (failed, { heap with arrays := arrays })

/-- `array_push` -/
def push (memory : Memory) (s : ℕ) (heap : ArrayHeap α) (handle : ℕ) (values : List α) :
    Outcome (ℤ × ArrayHeap α) :=
  heap.onArray handle (-1) fun state => state.push memory s values

/-- `array_unshift` -/
def unshift (memory : Memory) (s : ℕ) (heap : ArrayHeap α) (handle : ℕ) (values : List α) :
    Outcome (ℤ × ArrayHeap α) :=
  heap.onArray handle (-1) fun state => state.unshift memory s values

/-- `array_pop`, with the value for `result`. -/
def pop (memory : Memory) (heap : ArrayHeap α) (handle : ℕ) :
    Outcome ((ℤ × Option α) × ArrayHeap α) :=
  heap.onArray handle (-1, none) fun state => state.pop memory

/-- `array_shift`, with the value for `result`. -/
def shift (memory : Memory) (heap : ArrayHeap α) (handle : ℕ) :
    Outcome ((ℤ × Option α) × ArrayHeap α) :=
  heap.onArray handle (-1, none) fun state => state.shift memory

/-- `array_list`: the status, and the values passed back. -/
def list (memory : Memory) (heap : ArrayHeap α) (handle : ℕ) :
    Outcome ((ℤ × List α) × ArrayHeap α) :=
  heap.onArray handle (-1, []) fun state => do
    let answer ← state.list memory
    .ok (answer, state)

/-- `array_size` -/
def size (heap : ArrayHeap α) (handle : ℕ) : Outcome (ℕ × ArrayHeap α) :=
  heap.onArray handle 0 fun state => .ok (state.array.count, state)

/-- `array_fill` -/
def fill (memory : Memory) (s : ℕ) (heap : ArrayHeap α) (handle : ℕ) (values : List α) :
    Outcome (ℤ × ArrayHeap α) :=
  heap.onArray handle (-1) fun state => state.fill memory s values

/-- The loop of `array_item_at` after the growth. The handle it counts is that of the new
scalars, which hides the handle of the array: it writes to the array with that number. Past
the last array there is none. -/
def growItems (position : ℕ) (arrays : Pool ArrayT) (handle : ℕ) : ℕ → Outcome (Pool ArrayT)
  | 0 => .error .invalidAccess
  | rounds + 1 => do
      let wrapper ← arrays.wrapper handle
      let array := wrapper.object
      if array.count ≤ sizeSub position array.first then
        let array ← array.setItem (array.first + array.count) (handle + 1)
        let array := { array with count := array.count + 1 }
        let arrays := arrays.update handle fun wrapper => { wrapper with object := array }
        growItems position arrays (handle + 1) rounds
      else
        .ok arrays

/-- The end of `array_item_at`: one more reference to the item. -/
def referenceItem (heap : ArrayHeap α) (handle position : ℕ) : Outcome (ℕ × ArrayHeap α) := do
  let item ← (heap.array handle).item (sizeAdd (heap.array handle).first position)
  let (s, store) ← heap.store.reference item
  let arrays ← heap.arrays.unlock handle
  .ok (s, ⟨arrays, store⟩)

/-- `array_item_at` -/
def itemAt (memory : Memory) (s : ℕ) (heap : ArrayHeap α) (handle : ℕ) (index : ℤ) :
    Outcome (ℕ × ArrayHeap α) := do
  Outcome.assertThat (heap.arrays.HandleValid handle)
  let (status, arrays) ← heap.arrays.lock handle
  if status = 0 then
    Outcome.assertThat (arrays.HandleInUse handle)
    let array := (arrays.items handle).object
    let position := sizeOfInt (if index < 0 then index + array.count else index)
    if sizeAdd array.first array.count ≤ position then
      let (status, array) ← array.reserve memory (sizeAdd position 1)
      let arrays := arrays.update handle fun wrapper => { wrapper with object := array }
      if status ≠ 0 then
        let arrays ← arrays.unlock handle
        .ok (0, ⟨arrays, heap.store⟩)
      else
        let need := sizeSub position (sizeSub (sizeAdd array.first array.count) 1)
        let store := heap.store.allocateMany s need
        let arrays ← growItems position arrays s (arrays.allocatedCount + 1 - s)
        referenceItem ⟨arrays, store⟩ handle position
    else
      referenceItem ⟨arrays, heap.store⟩ handle position
  else
    .ok (0, ⟨arrays, heap.store⟩)

end ArrayHeap

end Dang
