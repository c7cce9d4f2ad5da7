import Dang.Array.Failure
import Dang.Hash.Refinement
import Dang.Machine.ValueStack

/-!
# Copying an array over the data stack

`inst_ARLIST` leaves the values of an array and their number on the data stack, and
`inst_ARFILL` puts as many values as it is told into an array. Neither heeds what the functions
it calls return, and `scalar_allocate_many` asserts that there is something to allocate, so an
array cannot be emptied.
-/

namespace Dang

namespace Value

/-- `m_value.as_array_handle`, whatever the type. The address of a string is no handle. -/
def asArrayHandle : Value → Outcome ℕ
  | .undefined => .ok 0
  | .int value => .ok value.toNat
  | .float bits => .ok bits.toNat
  | .string _ => .error .assertion
  | .reference _ handle => .ok handle
  | .function handle => .ok handle

/-- `anon_scalar_deref_array_reference` -/
def derefArrayReference : Value → Outcome ℕ := derefReference .array

end Value

/-- There is storage for copies of the values of an array. -/
def ArrayHeap.ValuesStored (memory : Memory) (heap : ArrayHeap Value) (handle : ℕ) : Prop :=
  ∀ value, some value ∈ heap.contents handle → Stored memory value

/-- The data stack of a context, and the arrays. -/
structure ArrayVm where
  stack : ValueStack
  heap : ArrayHeap Value

namespace ArrayVm

/-- `inst_ARLIST`. It allocates the list of values with their strings, the slots for them with
copies of these, and the slot for the count. -/
def arlist (memory : ℕ → Memory) (vm : ArrayVm) : Outcome (ℤ × ArrayVm) := do
  let (ar, stack) ← vm.stack.vmDsPop (memory 3)
  let handle ← ar.asArrayHandle
  let ((status, values), heap) ← vm.heap.list (memory 0) handle
  let (count, stack) ← stack.pushListed (memory 1) status values
  let (_, stack) ← stack.vmDsPush (memory 2) count
  .ok (1, ⟨stack, heap⟩)

/-- `inst_ARFILL`. It allocates the list of the values to pop, and returns zero if it cannot,
and then the buffer of the array. The values that are popped and those in the array are copies. -/
def arfill (conversions : Conversions) (memory : ℕ → Memory) (s : ℕ) (vm : ArrayVm) :
    Outcome (ℤ × ArrayVm) := do
  let (ar, stack) ← vm.stack.vmDsPop (memory 2)
  let handle ← ar.derefArrayReference
  let (count, stack) ← stack.vmDsPop (memory 3)
  let n := (count.intValue conversions).toNat
  if 0 < n then
    if (memory 0).calloc n sizeofScalar then do
      let (values, stack) ← stack.vmDsNpop (memory 4) n
      let (_, heap) ← vm.heap.fill (memory 1) s handle values
      .ok (1, ⟨stack, heap⟩)
    else .ok (0, { vm with stack := stack })
  else do
    let (_, heap) ← vm.heap.fill (memory 1) s handle []
    .ok (1, ⟨stack, heap⟩)

/-- An array that the stack has a reference to is listed, a reference to another array pushed
and this array filled. Both instructions return one, the first array and all others are as they
were, with their scalars, and so is the rest of the stack. The second array has lost its scalars, each
released once, and got new ones with the values of the first. -/
def Copies (conversions : Conversions) (memory : ℕ → Memory) (s : ℕ) (vm : ArrayVm)
    (source target : ℕ) (rest : List Value) : Prop :=
  ∃ listed pushed filled released values,
    vm.arlist memory = .ok (1, listed) ∧
      listed.stack.vmDsPush (memory 4) (.reference .array target) = .ok (0, pushed) ∧
      arfill conversions (fun request => memory (request + 5)) s ⟨pushed, listed.heap⟩ =
        .ok (1, filled) ∧
      Stack.contents filled.stack = rest ∧
      (∀ other ≠ target, filled.heap.array other = vm.heap.array other) ∧
      (∀ handle ∈ (vm.heap.array source).handles,
        filled.heap.store.scalars handle = vm.heap.store.scalars handle) ∧
      vm.heap.store.releaseAll (vm.heap.array target).handles = .ok released ∧
      vm.heap.contents source = values.map some ∧
      filled.heap.contents target = vm.heap.contents source ∧
      filled.heap.store = released.filled s values

/-- The array has values and every allocation finds its storage: the list of the values, the
slots for them, for the count and for the reference, the list of the values to pop, the buffer of
the array that is filled and its scalars, and the copies of the values in the list, on the stack,
when they are popped and in the other array. -/
structure Supplied (memory : ℕ → Memory) (s : ℕ) (vm : ArrayVm) (source target left : ℕ) : Prop where
  nonempty : 0 < (vm.heap.array source).count
  listing : (memory 0).calloc (vm.heap.array source).count sizeofScalar = true
  listed : vm.heap.ValuesStored (memory 0) source
  values : ValueStack.Room (memory 1) vm.stack.items.length (left + (vm.heap.array source).count)
  pushed : vm.heap.ValuesStored (memory 1) source
  count : ValueStack.Room (memory 2)
    (ValueStack.grown vm.stack.items.length (left + (vm.heap.array source).count))
    (left + (vm.heap.array source).count + 1)
  reference : ValueStack.Room (memory 4)
    (ValueStack.grown (ValueStack.grown vm.stack.items.length
      (left + (vm.heap.array source).count)) (left + (vm.heap.array source).count + 1))
    (left + (vm.heap.array source).count + 2)
  popping : (memory 5).calloc (vm.heap.array source).count sizeofScalar = true
  popped : vm.heap.ValuesStored (memory 9) source
  buffer : { vm.heap.array target with first := 0 }.Reserves (memory 6)
    (vm.heap.array source).count
  filled : vm.heap.ValuesStored (memory 6) source
  scalars : s ≠ 0

end ArrayVm

namespace ArrayHeap

variable {α : Type} {heap : ArrayHeap α} {handle : ℕ} {values : List α}

/-- The scalars of an array in use hold values. -/
theorem Sound.exists_values (sound : heap.Sound) (inUse : heap.InUse handle) :
    ∃ values : List α, heap.contents handle = values.map some := by
  have used := sound.used inUse
  simp only [contents, ArrayScalars.contents]
  generalize (heap.array handle).handles = handles at used ⊢
  induction handles with
  | nil => exact ⟨[], rfl⟩
  | cons s handles ih =>
      rcases ih fun other mem => used other (List.mem_cons_of_mem _ mem) with ⟨values, same⟩
      rcases Option.ne_none_iff_exists'.mp (used s List.mem_cons_self) with ⟨scalar, carried⟩
      refine ⟨scalar.value :: values, ?_⟩
      simp only [List.map_cons, same, carried, Option.map_some]

theorem count_eq (holds : heap.contents handle = values.map some) :
    (heap.array handle).count = values.length := by
  have lengths := congrArg List.length holds
  simpa [contents, ArrayScalars.contents] using lengths

/-- `array_list` leaves the arrays as they are. -/
theorem Sound.list_eq [ScalarValue α] (sound : heap.Sound) (inUse : heap.InUse handle)
    {memory : Memory} (holds : heap.contents handle = values.map some)
    (stored : ∀ value ∈ values, Stored memory value) :
    heap.list memory handle = .ok
      (if 0 < values.length → memory.calloc values.length sizeofScalar = true then (0, values)
        else (-1, []), heap) := by
  have listed := ArrayScalars.list_eq memory ⟨heap.array handle, heap.store⟩
    (sound.inside inUse) holds stored
  simp only [list, onArray_eq (sound.available inUse), listed]
  split
  case isTrue => simp only [Outcome.ok_bind, put_self]
  case isFalse => simp only [Outcome.ok_bind, put_self]

/-- Without storage for the list there are no values in it. -/
theorem Sound.list_refused [ScalarValue α] (sound : heap.Sound) (inUse : heap.InUse handle)
    {memory : Memory} (holds : heap.contents handle = values.map some)
    (refused : ¬(0 < values.length → memory.calloc values.length sizeofScalar = true)) :
    heap.list memory handle = .ok ((-1, []), heap) := by
  rw [Classical.not_imp] at refused
  have counted := count_eq holds
  simp only [list, onArray_eq (sound.available inUse), ArrayScalars.list, counted, refused.1,
    if_true, refused.2, Bool.false_eq_true, if_false, Outcome.ok_bind, put_self]

end ArrayHeap

/-- What is copied are the values themselves. -/
theorem ArrayScalars.copied_iff {memory : Memory} {values copies : List Value} :
    Copied memory values copies ↔ ValueStack.AllStored memory values ∧ copies = values := by
  constructor
  · intro copied
    induction copied with
    | nil => exact ⟨fun value mem => absurd mem List.not_mem_nil, rfl⟩
    | @cons value copy values copies cloned _ ih =>
        rcases Value.clone_eq_ok.mp cloned with ⟨stored, rfl⟩
        rcases ih with ⟨others, rfl⟩
        exact ⟨List.forall_mem_cons.mpr ⟨stored, others⟩, rfl⟩
  · rintro ⟨stored, rfl⟩
    exact copied_self.mpr stored

namespace ArrayHeap

theorem valuesStored_iff {memory : Memory} {heap : ArrayHeap Value} {handle : ℕ}
    {values : List Value} (holds : heap.contents handle = values.map some) :
    heap.ValuesStored memory handle ↔ ValueStack.AllStored memory values := by
  simp only [ValuesStored, holds, List.mem_map, Option.some.injEq, exists_eq_right,
    ValueStack.AllStored]

/-- What `array_list` passes back, if it returns: copies of the values, or none without storage
for the list. -/
theorem Sound.list_eq_ok {memory : Memory} {heap after : ArrayHeap Value} {handle : ℕ}
    {values listed : List Value} {status : ℤ} (sound : heap.Sound) (inUse : heap.InUse handle)
    (holds : heap.contents handle = values.map some)
    (success : heap.list memory handle = .ok ((status, listed), after)) :
    after = heap ∧ (status = -1 ∧ listed = [] ∨
      (0 < values.length → memory.calloc values.length sizeofScalar = true) ∧
        ValueStack.AllStored memory values ∧ status = 0 ∧ listed = values) := by
  by_cases granted : 0 < values.length → memory.calloc values.length sizeofScalar = true
  · have stored : ValueStack.AllStored memory values := by
      unfold list at success
      rw [onArray_eq (sound.available inUse)] at success
      rcases Outcome.bind_eq_ok.mp success with ⟨⟨_, _⟩, done, _⟩
      rcases Outcome.bind_eq_ok.mp done with ⟨⟨_, _⟩, lists, _⟩
      have copied := ArrayScalars.list_copied (sound.inside inUse) holds granted lists
      exact (ArrayScalars.copied_iff.mp copied).1
    rw [sound.list_eq inUse holds stored, if_pos granted, Except.ok.injEq, Prod.mk.injEq,
      Prod.mk.injEq] at success
    rcases success with ⟨⟨rfl, rfl⟩, rfl⟩
    exact ⟨rfl, Or.inr ⟨granted, stored, rfl, rfl⟩⟩
  · rw [sound.list_refused inUse holds granted, Except.ok.injEq, Prod.mk.injEq,
      Prod.mk.injEq] at success
    rcases success with ⟨⟨rfl, rfl⟩, rfl⟩
    exact ⟨rfl, Or.inl ⟨rfl, rfl⟩⟩

/-- The heap after the second `array_allocate`. -/
def twins : ArrayHeap Value where
  arrays :=
    { allocatedCount := 64
      count := 2
      freeCount := 62
      items := fun handle =>
        if handle = 1 ∨ handle = 2 then ⟨ArrayT.init, 1, none, stateInUse⟩
        else ⟨⟨0, 0, 0, fun _ => 0⟩, 0, none, if handle < 64 then handle + 1 else 0⟩
      freeListHead := 3 }
  store := ⟨fun _ => none⟩

theorem new_twins : twins.New := by
  rintro handle ⟨valid, used⟩
  by_cases either : handle = 1 ∨ handle = 2
  · refine ⟨⟨valid, used, ?_⟩, ?_⟩
    · intro mutex mem
      simp [twins, either] at mem
    · simp [array, twins, either]
  · simp only [Pool.HandleInUse, twins, either, if_false, stateInUse, sizeMax] at used
    split at used
    · omega
    · cases used

/-- The heap after two values were pushed to the first array. -/
def filledTwins : ArrayHeap Value :=
  (twins.perform ⟨.push 1 [.int 5, .int 7], .ample, 1⟩).toOption.getD twins

theorem step_twins : Step twins ⟨.push 1 [.int 5, .int 7], .ample, 1⟩ filledTwins := by
  refine ⟨⟨by decide, fun _ => ⟨by decide, fun _ _ _ => rfl⟩⟩, ?_⟩
  rfl

end ArrayHeap

/-- Releasing the scalars in the items of an array releases the handles. -/
theorem ArrayScalars.releaseItems_eq {α : Type} {array : ArrayT} {store : ScalarStore α}
    {index rounds : ℕ} (inside : index + rounds ≤ array.allocatedCount) :
    releaseItems array store index rounds =
      store.releaseAll ((List.range' index rounds).map array.items) := by
  induction rounds generalizing index store with
  | zero => rfl
  | succ rounds ih =>
      have here : index < array.allocatedCount := by omega
      simp only [releaseItems, ArrayT.item_of here, Outcome.ok_bind, List.range'_succ,
        List.map_cons, ScalarStore.releaseAll]
      cases store.release (array.items index) with
      | error fault => rfl
      | ok released => exact ih (by omega)

theorem ArrayScalars.releaseItems_window {α : Type} {array : ArrayT} (store : ScalarStore α)
    (inside : array.Inside) :
    releaseItems array store array.first array.count = store.releaseAll array.handles :=
  releaseItems_eq inside.1

namespace ArrayVm

open ValueStack ArrayHeap

variable {vm after : ArrayVm} {memory : ℕ → Memory} {conversions : Conversions} {s source : ℕ}
  {rest contents values : List Value} {capacity : ℕ} {status : ℤ}

/-- What `inst_ARLIST` leaves, if it returns: the values or none of them, and the count or not. -/
theorem arlist_eq_ok (sound : vm.heap.Sound) (inUse : vm.heap.InUse source)
    (holds : vm.heap.contents source = values.map some)
    (shows : vm.stack.Shows (.reference .array source :: rest) capacity)
    (success : vm.arlist memory = .ok (status, after)) :
    after.heap = vm.heap ∧ ∃ pushed counted reached last,
      after.stack.Shows (counted ++ (pushed ++ rest)) last ∧
      (pushed = [] ∨ 0 < values.length ∧
        (memory 0).calloc values.length sizeofScalar = true ∧ AllStored (memory 0) values ∧
        pushed = values ∧ Room (memory 1) capacity (rest.length + values.length) ∧
        AllStored (memory 1) values ∧ reached = grown capacity (rest.length + values.length)) ∧
      (counted = [] ∨ counted.length = 1 ∧
        Room (memory 2) reached ((pushed ++ rest).length + 1) ∧
        last = grown reached ((pushed ++ rest).length + 1)) := by
  simp only [arlist, Outcome.bind_eq_ok, Prod.exists, Except.ok.injEq, Prod.mk.injEq] at success
  rcases success with ⟨ar, popped, pops, handle, read, answer, some, heap, lists, count, listed,
    listing, _, pushed, pushes, _, rfl⟩
  rcases shows.pop_eq_ok pops with ⟨_, left, same, shown⟩
  rw [List.cons.injEq] at same
  rcases same with ⟨rfl, rfl⟩
  simp only [Value.asArrayHandle, Except.ok.injEq] at read
  subst read
  rcases sound.list_eq_ok inUse holds lists with ⟨rfl, answered⟩
  refine ⟨rfl, ?_⟩
  rcases answered with ⟨rfl, rfl⟩ | ⟨granted, stored, rfl, rfl⟩
  · rcases shown.pushCounted_eq_ok (Nat.zero_le _) listing pushes with
      ⟨some, counted, reached, last, shown, ⟨nothing, _⟩ | ⟨failed, _⟩, numbered⟩
    · refine ⟨some, counted, reached, last, shown, Or.inl nothing, ?_⟩
      rcases numbered with nothing | ⟨rfl, _, room, grew⟩
      · exact Or.inl nothing
      · exact Or.inr ⟨rfl, room, grew⟩
    · cases failed
  · have object : some.length * sizeofScalar ≤ sizeMax := by
      rcases Nat.eq_zero_or_pos some.length with empty | positive
      · rw [empty, Nat.zero_mul]
        exact Nat.zero_le _
      · exact (memory 0).calloc_fits _ _ (granted positive)
    rcases shown.pushCounted_eq_ok object listing pushes with
      ⟨all, counted, reached, last, shown, complete, numbered⟩
    refine ⟨all, counted, reached, last, shown, ?_, ?_⟩
    · rcases complete with ⟨nothing, _⟩ | ⟨_, positive, same, room, copied, grew⟩
      · exact Or.inl nothing
      · exact Or.inr ⟨positive, granted positive, stored, same, room, copied, grew⟩
    · rcases numbered with nothing | ⟨rfl, _, room, grew⟩
      · exact Or.inl nothing
      · exact Or.inr ⟨rfl, room, grew⟩

/-- What `inst_ARFILL` did, if it returned one. -/
theorem arfill_eq_ok (success : arfill conversions memory s vm = .ok (1, after))
    (shows : vm.stack.Shows contents capacity) :
    ∃ target count values left answer,
      contents = .reference .array target :: count :: (values ++ left) ∧
      after.stack.Shows left capacity ∧
      (0 < values.length → (memory 0).calloc values.length sizeofScalar = true) ∧
      AllStored (memory 4) values ∧
      vm.heap.fill (memory 1) s target values = .ok (answer, after.heap) := by
  simp only [arfill, Outcome.bind_eq_ok, Prod.exists] at success
  rcases success with ⟨ar, first, pops, target, read, count, second, counts, filling⟩
  rcases shows.popReference_eq_ok pops read counts with ⟨_, beneath, rfl, bare⟩
  split at filling
  case isTrue positive =>
    split at filling
    case isTrue storage =>
      simp only [Outcome.bind_eq_ok, Prod.exists, Except.ok.injEq, Prod.mk.injEq] at filling
      rcases filling with ⟨values, popped, pops, answer, heap, fills, _, rfl⟩
      rcases bare.npop_split positive pops with ⟨length, stored, left, rfl, emptied⟩
      refine ⟨target, count, values, left, answer, rfl, emptied, ?_, stored, fills⟩
      intro _
      rw [length]
      exact storage
    case isFalse =>
      rw [Except.ok.injEq, Prod.mk.injEq] at filling
      cases filling.1
  case isFalse =>
    simp only [Outcome.bind_eq_ok, Prod.exists, Except.ok.injEq, Prod.mk.injEq] at filling
    rcases filling with ⟨answer, heap, fills, _, rfl⟩
    refine ⟨target, count, [], beneath, answer, rfl, bare, ?_, ?_, fills⟩
    · intro positive
      cases positive
    · intro value mem
      cases mem

/-- `inst_ARLIST` with room for the values and the count. -/
theorem arlist_of (sound : vm.heap.Sound) (inUse : vm.heap.InUse source)
    (holds : vm.heap.contents source = values.map some)
    (shows : vm.stack.Shows (.reference .array source :: rest) capacity)
    (positive : 0 < values.length)
    (storage : (memory 0).calloc values.length sizeofScalar = true)
    (stored : AllStored (memory 0) values) (copied : AllStored (memory 1) values)
    (room : Room (memory 1) capacity (rest.length + values.length))
    (another : Room (memory 2) (grown capacity (rest.length + values.length))
      (rest.length + values.length + 1)) :
    ∃ listed, vm.arlist memory = .ok (1, ⟨listed, vm.heap⟩) ∧
      listed.Shows (.int (BitVec.ofNat 64 values.length) :: (values ++ rest))
        (grown (grown capacity (rest.length + values.length))
          (rest.length + values.length + 1)) := by
  have length : (values ++ rest).length = rest.length + values.length := by
    rw [List.length_append, Nat.add_comm]
  have lists := sound.list_eq inUse holds stored
  rw [if_pos fun _ => storage] at lists
  rcases shows.popReference (memory 3) with ⟨popped, pops, shown⟩
  rcases shown.pushListed positive ((memory 0).calloc_fits _ _ storage) room copied with
    ⟨listed, lists', shown⟩
  have further : Room (memory 2) (grown capacity (rest.length + values.length))
      ((values ++ rest).length + 1) := by
    rw [length]
    exact another
  rcases shown.push (.int (BitVec.ofNat 64 values.length)) further (stored_int _) with
    ⟨counted, pushes, shown⟩
  refine ⟨counted, ?_, ?_⟩
  · simp only [arlist, pops, Outcome.ok_bind, Value.asArrayHandle, lists, lists', pushes]
  · rw [length] at shown
    exact shown

/-- `inst_ARFILL` with as many values on the stack as the count says. -/
theorem arfill_of (vm : ArrayVm) (memory : ℕ → Memory) {target : ℕ} {count : Value}
    {heap : ArrayHeap Value} {answer : ℤ}
    (shows : vm.stack.Shows (.reference .array target :: count :: (values ++ rest)) capacity)
    (counts : (count.intValue conversions).toNat = values.length) (positive : 0 < values.length)
    (counted : Stored (memory 3) count)
    (storage : (memory 0).calloc values.length sizeofScalar = true)
    (stored : AllStored (memory 4) values)
    (fills : vm.heap.fill (memory 1) s target values = .ok (answer, heap)) :
    ∃ next, arfill conversions memory s vm = .ok (1, ⟨next, heap⟩) ∧ next.Shows rest capacity := by
  rcases shows.popReference (memory 2) with ⟨first, pops, shown⟩
  rcases shown.pop counted with ⟨second, counting, bare⟩
  rcases bare.npop_front positive stored with ⟨next, popping, emptied⟩
  refine ⟨next, ?_, emptied⟩
  simp only [arfill, pops, Outcome.ok_bind, Value.derefArrayReference, Value.derefReference_self,
    counting, counts, positive, if_true, storage, popping, fills]

variable {target : ℕ}

/-- If the copy is made, the array has values and nothing fails. -/
theorem Copies.supplied (sound : vm.heap.Sound) (sourceInUse : vm.heap.InUse source)
    (targetInUse : vm.heap.InUse target) (absent : vm.heap.store.scalars 0 = none)
    (shows : vm.stack.Shows (.reference .array source :: rest) capacity)
    (fresh : s ≠ 0 → ∀ released, vm.heap.store.releaseAll (vm.heap.array target).handles =
      .ok released → released.Fresh s (vm.heap.array source).count)
    (copies : vm.Copies conversions memory s source target rest) :
    vm.Supplied memory s source target rest.length := by
  rcases copies with ⟨listed, pushed, filled, released, values, lists, pushes, fills, emptied,
    others, _, releasing, holds, copied, _⟩
  have counted := ArrayHeap.count_eq holds
  rcases arlist_eq_ok sound sourceInUse holds shows lists with
    ⟨sameHeap, some, number, reached, last, shown, complete, numbered⟩
  rcases shown.push_eq_ok pushes with ⟨referring, final, shown, refers⟩
  rcases arfill_eq_ok fills shown with
    ⟨handle, count, popped, left, answer, split, bare, storage, offStack, filling⟩
  rw [bare.contents] at emptied
  subst emptied
  simp only [sameHeap] at filling
  rcases sound.onArray_eq_ok filling with ⟨inUse, state, done, after⟩
  have object : popped.length * sizeofScalar ≤ sizeMax := by
    rcases Nat.eq_zero_or_pos popped.length with empty | positive
    · rw [empty, Nat.zero_mul]
      exact Nat.zero_le _
    · exact Memory.calloc_fits _ _ _ (storage positive)
  rcases ArrayScalars.fill_supplied (sound.inside inUse) (sound.used inUse) object absent done with
    ⟨nonempty, grows, nonzero, copies, inArray⟩
  rcases ArrayScalars.fill_eq_ok (sound.inside inUse) object nonzero done with
    ⟨_, _, _, _, _, window, _⟩
  have poppedSome : 0 < popped.length := List.length_pos_iff.mpr nonempty
  -- As many values are popped as were pushed, and as the array has, so all were pushed.
  have lengths := congrArg List.length split
  simp only [List.length_append, List.length_cons] at lengths
  have few : number.length ≤ 1 := by
    rcases numbered with rfl | ⟨one, _⟩
    · exact Nat.zero_le 1
    · exact Nat.le_of_eq one
  have fewer : referring.length ≤ 1 := by
    rcases refers with ⟨rfl, _⟩ | ⟨rfl, _⟩
    · exact Nat.zero_le 1
    · exact Nat.le_refl 1
  rcases complete with rfl | ⟨positive, listing, inList, rfl, room, onStack, rfl⟩
  · simp only [List.length_nil] at lengths
    omega
  have isTarget : handle = target := by
    by_contra apart
    have same := others handle apart
    rw [after, ArrayHeap.array_put, if_pos rfl] at same
    rw [same] at window
    have mem : s ∈ (vm.heap.array handle).handles := by
      rw [window]
      exact List.mem_range'_1.mpr ⟨Nat.le_refl s, by omega⟩
    have outside := sound.disjoint inUse targetInUse apart s mem
    have kept := ScalarStore.releaseAll_frame releasing outside
    have new := fresh nonzero released releasing s (Nat.le_refl s) (by omega)
    rw [kept] at new
    exact sound.used inUse s mem new
  subst isTarget
  have filledUp : popped.length = some.length := by
    have sizes := congrArg List.length (copied.trans holds)
    rw [after, ArrayHeap.contents_put] at sizes
    simpa [ArrayScalars.contents, window] using sizes
  rcases numbered with rfl | ⟨_, another, rfl⟩
  · simp only [List.length_nil] at lengths
    omega
  rcases refers with ⟨rfl, _⟩ | ⟨_, further, _⟩
  · simp only [List.length_nil] at lengths
    omega
  have size : (some ++ left).length = left.length + some.length := by
    rw [List.length_append, Nat.add_comm]
  have taller : (number ++ (some ++ left)).length = left.length + some.length + 1 := by
    rw [List.length_append, size]
    omega
  rw [size] at another further
  rw [taller] at further
  have same : popped = some := by
    have whole : (referring ++ number) ++ some = [.reference .array handle, count] ++ popped := by
      refine List.append_cancel_right (?_ : _ ++ left = _ ++ left)
      simpa using split
    exact (List.append_inj_right' whole filledUp.symm).symm
  subst same
  constructor
  case nonempty =>
    rw [counted]
    exact positive
  case listing =>
    rw [counted]
    exact listing
  case listed => exact (ArrayHeap.valuesStored_iff holds).mpr inList
  case values =>
    rw [counted, shows.capacity]
    exact room
  case pushed => exact (ArrayHeap.valuesStored_iff holds).mpr onStack
  case count =>
    rw [counted, shows.capacity]
    exact another
  case reference =>
    rw [counted, shows.capacity]
    exact further
  case popping =>
    rw [counted]
    exact storage poppedSome
  case popped => exact (ArrayHeap.valuesStored_iff holds).mpr offStack
  case buffer =>
    rw [counted]
    exact grows
  case filled =>
    exact (ArrayHeap.valuesStored_iff holds).mpr (ArrayScalars.copied_iff.mp inArray).1
  case scalars => exact nonzero

/-- With values, and nothing failing, the copy is made. -/
theorem Supplied.copies (sound : vm.heap.Sound) (sourceInUse : vm.heap.InUse source)
    (targetInUse : vm.heap.InUse target) (apart : source ≠ target)
    (shows : vm.stack.Shows (.reference .array source :: rest) capacity)
    (fresh : s ≠ 0 → ∀ released, vm.heap.store.releaseAll (vm.heap.array target).handles =
      .ok released → released.Fresh s (vm.heap.array source).count)
    (supplied : vm.Supplied memory s source target rest.length) :
    vm.Copies conversions memory s source target rest := by
  rcases sound.exists_values sourceInUse with ⟨values, holds⟩
  rcases supplied with ⟨nonempty, listing, inList, room, onStack, another, further, popping,
    offStack, buffer, inArray, nonzero⟩
  rw [ArrayHeap.valuesStored_iff holds] at inList onStack offStack inArray
  rw [ArrayHeap.count_eq holds] at nonempty listing room another further popping buffer
  rw [shows.capacity] at room another further
  rcases arlist_of sound sourceInUse holds shows nonempty listing inList onStack room another with
    ⟨listed, lists, shown⟩
  have size : (.int (BitVec.ofNat 64 values.length) :: (values ++ rest)).length + 1 =
      rest.length + values.length + 2 := by
    rw [List.length_cons, List.length_append]
    omega
  rw [← size] at further
  rcases shown.push (.reference .array target) further (stored_reference _ _) with
    ⟨pushed, pushes, shown⟩
  have object := (memory 0).calloc_fits _ _ listing
  have copied := ArrayScalars.copied_self.mpr inArray
  rcases ArrayScalars.exists_fill ⟨vm.heap.array target, vm.heap.store⟩ copied
    (sound.inside targetInUse) (sound.distinct targetInUse) (sound.used targetInUse) object
    (List.length_pos_iff.mp nonempty) buffer nonzero with ⟨state, done⟩
  rcases ArrayScalars.fill_eq_ok (sound.inside targetInUse) object nonzero done with
    ⟨released, copies, releasing, made, _, window, store⟩
  rw [ArrayScalars.copied_unique copied made] at store
  have fills : vm.heap.fill (memory 6) s target values = .ok (0, vm.heap.put target state) := by
    simp only [ArrayHeap.fill, ArrayHeap.onArray_eq (sound.available targetInUse), done,
      Outcome.ok_bind]
  rcases arfill_of ⟨pushed, vm.heap⟩ (fun request => memory (request + 5)) shown
    (intValue_length conversions object) nonempty (stored_int _) popping offStack fills with
    ⟨next, filling, emptied⟩
  have once := (ArrayScalars.releaseItems_window _ (sound.inside targetInUse)).symm.trans releasing
  refine ⟨⟨listed, vm.heap⟩, pushed, ⟨next, vm.heap.put target state⟩, released, values, lists,
    pushes, filling, emptied.contents, ?_, ?_, once, holds, ?_, store⟩
  · intro other different
    rw [ArrayHeap.array_put, if_neg different]
  · intro handle mem
    have outside := sound.disjoint sourceInUse targetInUse apart handle mem
    have kept := ScalarStore.releaseAll_frame once outside
    have new := fresh nonzero released once
    rw [ArrayHeap.count_eq holds] at new
    have stillUsed : released.scalars handle ≠ none := by
      rw [kept]
      exact sound.used sourceInUse handle mem
    rw [ArrayHeap.store_put, store, ScalarStore.filled_of_lt (new.outside stillUsed)]
    exact kept
  · rw [ArrayHeap.contents_put, ArrayScalars.contents, window, store, ArrayScalars.contents_new]
    exact holds.symm

end ArrayVm

end Dang
