import Dang.Array.Slice
import Dang.Machine.ArrayCopy
import Dang.Machine.Concat
import Dang.Machine.HashCopy
import Dang.Machine.Rotations

/-!
# Instructions that take lists

Each of these instructions pops a count and as many items, together with a reference to what it
works on. What it leaves on the data stack is what it pushes, above what was below the items.
-/

namespace Dang

/-- An instruction returns how far to go on, and leaves these values on the data stack. It is an
error for `vm_execute` if that is nowhere. -/
def Yields {State : Type} (shows : State → List Value → Prop) (run : Outcome (ℤ × State))
    (values : List Value) : Prop :=
  ∃ incr after, run = .ok (incr, after) ∧ incr ≠ 0 ∧ shows after values

/-- As `Yields`, for an instruction that starts a child, with the values on the child's stack. -/
def Spawns (run : Outcome (ℤ × Stack Scalar × DataStack)) (params values : List Value) : Prop :=
  ∃ incr child after, run = .ok (incr, child, after) ∧ incr ≠ 0 ∧ after.Represents values ∧
    Denotes after.heap child.contents params

/-- There is storage for a list of scalars, unless it is empty. -/
def HasList (memory : Memory) (n : ℕ) : Prop := 0 < n → memory.calloc n sizeofScalar = true

/-- There is storage for what an instruction pops: for the copy of the count, for the list of the
items and for their copies. -/
structure Pops (counted listed popped : Memory) (count : Value) (items : List Value) : Prop where
  count : Stored counted count
  list : HasList listed items.length
  items : ValueStack.AllStored popped items

/-- The count that comes back with the references, which is set to zero if there are none. -/
def countBack (count : Value) (items : List Value) : Value := if items = [] then .int 0 else count

namespace ArrayVm

variable (conversions : Conversions)

/-- What `inst_ARPUSH` and `inst_ARUNSHFT` do, with the function that puts the values into the
array. They allocate the list of the values to pop, and leave these where they are if they
cannot. The values that are popped are copies. -/
def giveValues (memory : ℕ → Memory)
    (give : ArrayHeap Value → ℕ → List Value → Outcome (ℤ × ArrayHeap Value)) (vm : ArrayVm) :
    Outcome (ℤ × ArrayVm) := do
  let (ar, stack) ← vm.stack.vmDsPop (memory 2)
  let handle ← ar.derefArrayReference
  let (count, stack) ← stack.vmDsPop (memory 3)
  let n := (count.intValue conversions).toNat
  if 0 < n then
    if (memory 0).calloc n sizeofScalar then do
      let (values, stack) ← stack.vmDsNpop (memory 4) n
      let (_, heap) ← give vm.heap handle values
      .ok (1, ⟨stack, heap⟩)
    else .ok (1, { vm with stack := stack })
  else .ok (1, { vm with stack := stack })

/-- `inst_ARPUSH` -/
def arpush (memory : ℕ → Memory) (s : ℕ) (vm : ArrayVm) : Outcome (ℤ × ArrayVm) :=
  vm.giveValues conversions memory (ArrayHeap.push (memory 1) s)

/-- `inst_ARUNSHFT` -/
def arunshft (memory : ℕ → Memory) (s : ℕ) (vm : ArrayVm) : Outcome (ℤ × ArrayVm) :=
  vm.giveValues conversions memory (ArrayHeap.unshift (memory 1) s)

/-- The loop of `inst_ARSLICE` that destroys the elements, which leaves nothing of a value. The
number of the element is an `int`, so past the last `int` there is no element with it. -/
def destroyElements (n : ℕ) : Outcome Unit :=
  if n < 2 ^ 31 then .ok () else .error .invalidAccess

/-- `inst_ARSLICE`. It allocates the list of the indices, and what `array_slice` needs to grow. The
values that are popped and pushed are copies. -/
def arslice (memory : ℕ → Memory) (s : ℕ → ℕ) (vm : ArrayVm) : Outcome (ℤ × ArrayVm) := do
  let (ar, stack) ← vm.stack.vmDsPop (memory 3)
  let (count, stack) ← stack.vmDsPop (memory 4)
  let c := (count.intValue conversions).toInt
  if 0 < c then
    if (memory 0).calloc c.toNat sizeofScalar then do
      let (indices, stack) ← stack.vmDsNpop (memory 5) c.toNat
      let handle ← ar.asArrayHandle
      let ((_, items), heap) ← vm.heap.slice (fun i => memory (i + 6)) s handle
        (indices.map fun index => (index.intValue conversions).toInt)
      let elements := items.map (.reference .scalar) ++ indices.drop items.length
      let (_, stack) ← stack.vmDsNpush (memory 1) elements
      destroyElements c.toNat
      let (_, stack) ← stack.vmDsPush (memory 2) count
      .ok (1, ⟨stack, heap⟩)
    else .ok (1, { vm with stack := stack })
  else do
    let (_, stack) ← stack.vmDsPush (memory 1) (.int 0)
    .ok (1, { vm with stack := stack })

/-- The values on the data stack. -/
def Shows (vm : ArrayVm) (values : List Value) : Prop :=
  ∃ capacity, vm.stack.Shows values capacity

/-- The data stack has a reference to an array in use on top of these values. Arrays that are not
in use are as `calloc` or `_array_destroy` leaves them. -/
structure Refers (vm : ArrayVm) (target : ℕ) (values : List Value) : Prop where
  sound : vm.heap.Sound
  inUse : vm.heap.InUse target
  unused : ∀ other, ¬vm.heap.InUse other → (vm.heap.array other).Inside
  shows : vm.Shows (.reference .array target :: values)

end ArrayVm

namespace ArrayHeap

variable {heap : ArrayHeap Value} {handle s : ℕ} {values : List Value}

/-- `array_push` returns, with storage for a larger buffer or without, if there is storage for the
copies. -/
theorem Sound.exists_push (sound : heap.Sound) (inUse : heap.InUse handle) {memory : Memory}
    (object : values.length * sizeofScalar ≤ sizeMax) (nonzero : s ≠ 0)
    (stored : ValueStack.AllStored memory values) :
    ∃ status after, heap.push memory s handle values = .ok (status, after) := by
  have runs := update_eq (sound.available inUse) memory s (.push values)
  rcases ArrayScalars.push_eq ⟨heap.array handle, heap.store⟩
    (ArrayScalars.copied_self.mpr stored) (sound.inside inUse) object (fun _ => nonzero) with
    ⟨status, state, pushed, _⟩
  simp only [update, ArrayScalars.update, pushed, Outcome.ok_bind] at runs
  exact ⟨_, _, runs⟩

/-- `array_unshift` returns where there is room in front and storage for the copies. -/
theorem Sound.exists_unshift (sound : heap.Sound) (inUse : heap.InUse handle) {memory : Memory}
    (object : values.length * sizeofScalar ≤ sizeMax) (nonzero : s ≠ 0)
    (stored : ValueStack.AllStored memory values)
    (room : (heap.array handle).ReservesFront memory values.length) :
    ∃ status after, heap.unshift memory s handle values = .ok (status, after) := by
  have runs := update_eq (sound.available inUse) memory s (.unshift values)
  rcases ArrayScalars.unshift_eq ⟨heap.array handle, heap.store⟩
    (ArrayScalars.copied_self.mpr stored) (sound.inside inUse) object (fun _ => nonzero) with
    ⟨state, unshifted, _⟩ | ⟨_, none⟩
  · simp only [update, ArrayScalars.update, unshifted, Outcome.ok_bind] at runs
    exact ⟨_, _, runs⟩
  · exact absurd room none

end ArrayHeap

namespace ArrayVm

open ValueStack

variable {conversions : Conversions} {vm : ArrayVm} {memory : ℕ → Memory} {target s : ℕ}
  {count : Value} {items rest : List Value}

/-- The reference, the count and the values are popped if the values can be put into the array. -/
theorem Refers.giveValues
    {give : ArrayHeap Value → ℕ → List Value → Outcome (ℤ × ArrayHeap Value)}
    (refers : vm.Refers target (count :: (items ++ rest)))
    (counts : (count.intValue conversions).toNat = items.length)
    (storage : Pops (memory 3) (memory 0) (memory 4) count items)
    (gives : items.length * sizeofScalar ≤ sizeMax →
      ∃ status heap, give vm.heap target items = .ok (status, heap)) :
    Yields Shows (vm.giveValues conversions memory give) rest := by
  rcases refers.shows with ⟨capacity, shows⟩
  rcases shows.popReference (memory 2) with ⟨first, pops, shown⟩
  rcases shown.pop storage.count with ⟨second, counting, bare⟩
  rcases Nat.eq_zero_or_pos items.length with zero | positive
  · have none := List.length_eq_zero_iff.mp zero
    subst none
    refine ⟨1, ⟨second, vm.heap⟩, ?_, by decide, capacity, bare⟩
    simp only [ArrayVm.giveValues, pops, Outcome.ok_bind, Value.derefArrayReference,
      Value.derefReference_self, counting, counts, zero, Nat.lt_irrefl, if_false]
  · have granted := storage.list positive
    rcases gives ((memory 0).calloc_fits _ _ granted) with ⟨status, heap, given⟩
    rcases bare.npop_front positive storage.items with ⟨next, popping, emptied⟩
    refine ⟨1, ⟨next, heap⟩, ?_, by decide, capacity, emptied⟩
    simp only [ArrayVm.giveValues, pops, Outcome.ok_bind, Value.derefArrayReference,
      Value.derefReference_self, counting, counts, positive, granted, if_true, popping, given]

/-- As many values as the stack has are a positive number. -/
theorem toInt_of_toNat {word : BitVec 64} {count : ℕ} (same : word.toNat = count)
    (small : count < 2 ^ 63) : word.toInt = count := by
  rw [BitVec.toInt_eq_toNat_of_lt (by omega), same]

/-- `inst_ARSLICE` up to `array_slice`, and after it. -/
theorem arslice_eq {s : ℕ → ℕ} {capacity : ℕ}
    (shows : vm.stack.Shows (.reference .array target :: count :: (items ++ rest)) capacity)
    (counts : (count.intValue conversions).toNat = items.length) (positive : 0 < items.length)
    (storage : Pops (memory 4) (memory 0) (memory 5) count items) :
    ∃ stack : ValueStack, stack.Shows rest capacity ∧ vm.arslice conversions memory s = (do
      let ((_, found), heap) ← vm.heap.slice (fun i => memory (i + 6)) s target
        (items.map fun index => (index.intValue conversions).toInt)
      let (_, stack) ← stack.vmDsNpush (memory 1)
        (found.map (.reference .scalar) ++ items.drop found.length)
      destroyElements items.length
      let (_, stack) ← stack.vmDsPush (memory 2) count
      .ok (1, ⟨stack, heap⟩)) := by
  have list := storage.list positive
  have object := (memory 0).calloc_fits _ _ list
  simp only [sizeofScalar, sizeMax] at object
  have number := toInt_of_toNat counts (by omega)
  have some : (0 : ℤ) < items.length := by omega
  rcases shows.popReference (memory 3) with ⟨first, pops, shown⟩
  rcases shown.pop storage.count with ⟨second, counting, bare⟩
  rcases bare.npop_front positive storage.items with ⟨next, popping, emptied⟩
  refine ⟨next, emptied, ?_⟩
  simp only [arslice, pops, Outcome.ok_bind, counting, number, some, if_true, Int.toNat_natCast,
    list, popping, Value.asArrayHandle]

/-- The indices as they stand on the data stack. -/
def Inside (conversions : Conversions) (vm : ArrayVm) (target : ℕ) (items : List Value) : Prop :=
  ∀ index ∈ items, 0 ≤ (index.intValue conversions).toInt ∧
    (index.intValue conversions).toInt < (vm.heap.array target).count

/-- `inst_ARSLICE` leaves references to the items at the indices, and their number. -/
def Slices (conversions : Conversions) (memory : ℕ → Memory) (s : ℕ → ℕ) (vm : ArrayVm)
    (target : ℕ) (count : Value) (items rest : List Value) : Prop :=
  ∃ handles, List.Forall₂ (fun index item =>
      (vm.heap.array target).handles[(index.intValue conversions).toInt.toNat]? = some item)
      items handles ∧
    Yields Shows (vm.arslice conversions memory s)
      (countBack count items :: (handles.map (.reference .scalar) ++ rest))

/-- There is storage for what `inst_ARSLICE` pops and pushes. -/
structure SliceSupplied (memory : ℕ → Memory) (count : Value) (items : List Value) : Prop where
  pops : Pops (memory 4) (memory 0) (memory 5) count items
  pushed : AllStored (memory 1) items
  counted : Stored (memory 2) count

/-- References and what is left of the indices can be pushed. -/
theorem SliceSupplied.elements (supplied : SliceSupplied memory count items) (handles : List ℕ)
    (k : ℕ) : AllStored (memory 1) (handles.map (.reference .scalar) ++ items.drop k) := by
  apply (allStored_map fun handle => stored_reference .scalar handle).append
  intro value mem
  exact supplied.pushed value (List.mem_of_mem_drop mem)

/-- An index that is not negative is itself as an `int` exactly if it is in the range. -/
theorem bmod_eq_self_iff {index : ℤ} (lower : 0 ≤ index) (word : index < 2 ^ 63) :
    Int.bmod index (2 ^ 32) = index ↔ index < 2 ^ 31 := by
  unfold Int.bmod
  dsimp only
  split
  case isTrue => omega
  case isFalse => omega

/-- Where count and indices are in the range of an `int`, all is well. -/
theorem Refers.slices {s : ℕ → ℕ} (refers : vm.Refers target (count :: (items ++ rest)))
    (counts : (count.intValue conversions).toNat = items.length)
    (supplied : SliceSupplied memory count items)
    (inside : Inside conversions vm target items) (few : items.length < 2 ^ 31)
    (small : ∀ index ∈ items, (index.intValue conversions).toInt < 2 ^ 31) :
    vm.Slices conversions memory s target count items rest := by
  rcases refers.shows with ⟨capacity, shows⟩
  have low := shows.length_le
  rw [List.length_cons, List.length_cons, List.length_append] at low
  rcases Nat.eq_zero_or_pos items.length with zero | positive
  · have none := List.length_eq_zero_iff.mp zero
    subst none
    have number := toInt_of_toNat counts (by decide)
    rcases shows.popReference (memory 3) with ⟨first, pops, shown⟩
    rcases shown.pop supplied.pops.count with ⟨second, counting, bare⟩
    have zeroStored : Stored (memory 1) (Value.int 0) := stored_int 0
    rcases bare.push_within (by rw [List.nil_append]; omega) zeroStored with ⟨next, pushed, left⟩
    refine ⟨[], List.Forall₂.nil, 1, ⟨next, vm.heap⟩, ?_, by decide, capacity, left⟩
    have none : ¬(0 : ℤ) < 0 := by decide
    simp only [arslice, pops, Outcome.ok_bind, counting, number, List.length_nil, Nat.cast_zero,
      none, if_false, pushed]
  · have nonempty : items ≠ [] := List.ne_nil_of_length_pos positive
    rcases arslice_eq (s := s) shows counts positive supplied.pops with ⟨stack, bare, runs⟩
    have places : ∀ value ∈ items.map fun index => (index.intValue conversions).toInt,
        0 ≤ Int.bmod value (2 ^ 32) ∧
          Int.bmod value (2 ^ 32) < (vm.heap.array target).count := by
      intro value mem
      rcases List.mem_map.mp mem with ⟨index, listed, rfl⟩
      rcases inside index listed with ⟨lower, upper⟩
      have below := small index listed
      rw [(bmod_eq_self_iff lower (by omega)).mpr below]
      exact ⟨lower, upper⟩
    rcases ArrayHeap.slice_of (fun i => memory (i + 6)) s refers.sound refers.inUse places with
      ⟨handles, store, sliced, leads, _⟩
    rw [List.forall₂_map_left_iff] at leads
    have length := leads.length_eq
    have elements : handles.map (Value.reference .scalar) ++ items.drop handles.length =
        handles.map (Value.reference .scalar) := by
      rw [← length, List.drop_length, List.append_nil]
    have found : List.Forall₂ (fun index item =>
        (vm.heap.array target).handles[(index.intValue conversions).toInt.toNat]? = some item)
        items handles := by
      have both := (List.forall₂_and_left (p := fun index : Value =>
        0 ≤ (index.intValue conversions).toInt ∧ (index.intValue conversions).toInt < 2 ^ 31)
        items handles).mpr ⟨fun index mem => ⟨(inside index mem).1, small index mem⟩, leads⟩
      apply both.imp
      rintro index item ⟨⟨lower, below⟩, found⟩
      rw [(bmod_eq_self_iff lower (by omega)).mpr below] at found
      exact found
    have pushes : handles.map (Value.reference .scalar) ≠ [] := by
      apply List.ne_nil_of_length_pos
      rw [List.length_map]
      omega
    have copies := supplied.elements handles handles.length
    rw [elements] at copies
    rcases bare.pushBoth_within pushes (by rw [List.length_map]; omega) copies supplied.counted
      with ⟨second, third, pushed, counted, last⟩
    refine ⟨handles, found, 1, ⟨third, ⟨vm.heap.arrays, store⟩⟩, ?_, by decide, capacity, ?_⟩
    · rw [runs]
      simp only [sliced, Outcome.ok_bind, elements, pushed, destroyElements, few, if_true, counted]
    · rw [countBack, if_neg nonempty]
      exact last

/-- An index whose item `array_slice` finds is in the range of an `int`. -/
theorem Refers.small_of_leads {values : List Value} {handles : List ℕ}
    (refers : vm.Refers target values) (inside : Inside conversions vm target items)
    (found : List.Forall₂ (fun index item =>
      (vm.heap.array target).handles[(index.intValue conversions).toInt.toNat]? = some item)
      items handles)
    (leads : List.Forall₂ (fun index item =>
      0 ≤ Int.bmod (index.intValue conversions).toInt (2 ^ 32) ∧ (vm.heap.array target).handles[
        (Int.bmod (index.intValue conversions).toInt (2 ^ 32)).toNat]? = some item)
      items handles) :
    ∀ index ∈ items, (index.intValue conversions).toInt < 2 ^ 31 := by
  have ranged := (List.forall₂_and_left (p := fun index : Value =>
    0 ≤ (index.intValue conversions).toInt ∧
      (index.intValue conversions).toInt < (vm.heap.array target).count) items handles).mpr
    ⟨inside, found⟩
  have small : List.Forall₂ (fun index (_ : ℕ) =>
      (index.intValue conversions).toInt < 2 ^ 31 ∧ True) items handles := by
    apply List.Forall₂.mp ?_ ranged leads
    rintro index item ⟨⟨lower, upper⟩, place⟩ ⟨atLeast, other⟩
    have position := refers.sound.place_unique refers.inUse place other
    have word := (refers.sound.inside refers.inUse).small
    have window := (refers.sound.inside refers.inUse).1
    exact ⟨(bmod_eq_self_iff lower (by omega)).mp (by omega), trivial⟩
  exact ((List.forall₂_and_left items handles).mp small).1

/-- Where all is well, count and indices are in the range of an `int`. -/
theorem Refers.small_of_slices {s : ℕ → ℕ} (refers : vm.Refers target (count :: (items ++ rest)))
    (counts : (count.intValue conversions).toNat = items.length)
    (supplied : SliceSupplied memory count items)
    (inside : Inside conversions vm target items)
    (slices : vm.Slices conversions memory s target count items rest) :
    items.length < 2 ^ 31 ∧ ∀ index ∈ items, (index.intValue conversions).toInt < 2 ^ 31 := by
  rcases refers.shows with ⟨capacity, shows⟩
  rcases slices with ⟨handles, found, incr, after, success, _, last, shown⟩
  rcases Nat.eq_zero_or_pos items.length with zero | positive
  · have none := List.length_eq_zero_iff.mp zero
    subst none
    exact ⟨by decide, by simp⟩
  · have nonempty : items ≠ [] := List.ne_nil_of_length_pos positive
    rcases arslice_eq (s := s) shows counts positive supplied.pops with ⟨stack, bare, runs⟩
    rw [runs] at success
    rcases Outcome.bind_eq_ok.mp success with ⟨⟨⟨status, items'⟩, heap⟩, sliced, success⟩
    have range : ∀ value ∈ items.map fun index => (index.intValue conversions).toInt,
        -((vm.heap.array target).count : ℤ) ≤ value ∧ value < (vm.heap.array target).count := by
      intro value mem
      rcases List.mem_map.mp mem with ⟨index, listed, rfl⟩
      rcases inside index listed with ⟨lower, upper⟩
      exact ⟨by omega, upper⟩
    rcases ArrayHeap.slice_reached refers.sound refers.inUse refers.unused range sliced with
      ⟨done, left, split, leads, stops⟩
    rcases List.map_eq_append_iff.mp split with ⟨front, back, rfl, rfl, rfl⟩
    have length := leads.length_eq
    rw [List.length_map] at length
    have elements : items'.map (Value.reference .scalar) ++ (front ++ back).drop items'.length =
        items'.map (Value.reference .scalar) ++ back := by
      rw [← length, List.drop_left]
    have low := shows.length_le
    rw [List.length_cons, List.length_cons, List.length_append] at low
    have many : (items'.map (Value.reference .scalar) ++ back).length = (front ++ back).length := by
      rw [List.length_append, List.length_append, List.length_map, length]
    have pushes : items'.map (Value.reference .scalar) ++ back ≠ [] := by
      apply List.ne_nil_of_length_pos
      omega
    have copies := supplied.elements items' items'.length
    rw [elements] at copies
    rcases bare.pushBoth_within pushes (by omega) copies supplied.counted with
      ⟨second, third, pushed, counted, final⟩
    simp only [elements, pushed, Outcome.ok_bind, destroyElements] at success
    by_cases few : (front ++ back).length < 2 ^ 31
    · rw [if_pos few, Outcome.ok_bind, counted, Outcome.ok_bind, Except.ok.injEq,
        Prod.mk.injEq] at success
      rcases success with ⟨_, rfl⟩
      have same := final.contents.symm.trans shown.contents
      rw [List.cons.injEq, List.append_cancel_right_eq] at same
      -- An element that `array_slice` did not come to is still an index, which is no reference.
      have none : back = [] := by
        cases back with
        | nil => rfl
        | cons index back =>
            have mem : index ∈ handles.map (Value.reference .scalar) := by
              rw [← same.2]
              exact List.mem_append_right _ List.mem_cons_self
            rcases List.mem_map.mp mem with ⟨handle, _, rfl⟩
            exact absurd (stops 0 rfl) (by decide)
      subst none
      have injective : Function.Injective (Value.reference .scalar) := by
        intro first second equal
        cases equal
        rfl
      simp only [List.append_nil] at same found few inside ⊢
      have handles_eq := List.map_injective_iff.mpr injective same.2
      subst handles_eq
      rw [List.forall₂_map_left_iff] at leads
      exact ⟨few, refers.small_of_leads inside found leads⟩
    · rw [if_neg few, Outcome.error_bind] at success
      cases success

end ArrayVm

namespace HashVm

section Instructions

variable (formatFloat : BitVec 64 → Bytes) (conversions : Conversions)

/-- What `inst_HRSLICE` does with the keys, and the count that it pushes. It allocates the list of
the keys, and then the items. The keys that are popped, and those in the hash, are copies. -/
def sliceKeys (memory : ℕ → Memory) (s : ℕ → ℕ) (vm : HashVm) (handle : ℕ) (count : Value) (n : ℕ) :
    Outcome (Value × HashVm) :=
  if 0 < n then
    if (memory 0).calloc n sizeofScalar then do
      let (elements, stack) ← vm.stack.vmDsNpop (memory 6) n
      let (elements, heap) ← vm.heap.slice formatFloat (memory 1) s handle elements
      let (_, stack) ← stack.vmDsNpush (memory 2) elements
      .ok (count, ⟨stack, heap⟩)
    else .ok (.int 0, vm)
  else .ok (.int 0, vm)

/-- `inst_HRSLICE` -/
def hrslice (memory : ℕ → Memory) (s : ℕ → ℕ) (vm : HashVm) : Outcome (ℤ × HashVm) := do
  let (hr, stack) ← vm.stack.vmDsPop (memory 4)
  let handle ← hr.derefHashReference
  let (count, stack) ← stack.vmDsPop (memory 5)
  let (count, vm) ← sliceKeys formatFloat memory s { vm with stack := stack } handle count
    (count.intValue conversions).toNat
  let (_, stack) ← vm.stack.vmDsPush (memory 3) count
  .ok (1, { vm with stack := stack })

end Instructions

/-- The values on the data stack. -/
def Shows (vm : HashVm) (values : List Value) : Prop := ∃ capacity, vm.stack.Shows values capacity

/-- The data stack has a reference to a hash in use on top of these values. -/
structure Refers (vm : HashVm) (bindings : ℕ → Bindings) (target : ℕ) (hash : HashT)
    (values : List Value) : Prop where
  represents : vm.heap.Represents bindings
  inUse : vm.heap.hashes target = some hash
  shows : vm.Shows (.reference .hash target :: values)

/-- The hash binds each of the keys to the scalar with this handle. -/
def Binds (formatFloat : BitVec 64 → Bytes) (target : ℕ) (keys : List Value) (handles : List ℕ)
    (vm : HashVm) : Prop :=
  ∃ hash bound, vm.heap.hashes target = some hash ∧ hash.Holds bound ∧
    List.Forall₂ (fun key handle => bound.lookup (key.stringValue formatFloat) = some handle)
      keys handles

/-- `inst_HRSLICE` leaves references to the scalars that the keys are bound to, and their number. -/
def Slices (formatFloat : BitVec 64 → Bytes) (conversions : Conversions) (memory : ℕ → Memory)
    (s : ℕ → ℕ) (vm : HashVm) (target : ℕ) (count : Value) (items rest : List Value) : Prop :=
  ∃ handles, Yields (fun after values => after.Shows values ∧
      Binds formatFloat target items handles after)
    (vm.hrslice formatFloat conversions memory s)
    (countBack count items :: (handles.map (.reference .scalar) ++ rest))

/-- There is storage for what `inst_HRSLICE` pops and pushes, and for the items of the keys. -/
structure SliceSupplied (formatFloat : BitVec 64 → Bytes) (memory : ℕ → Memory) (count : Value)
    (items : List Value) : Prop where
  pops : Pops (memory 5) (memory 0) (memory 6) count items
  item : (memory 1).calloc 1 sizeofHashItem = true
  keys : ∀ key ∈ items, (memory 1).Stores (key.stringValue formatFloat)
  counted : Stored (memory 3) count

/-- There is storage for what `inst_HRFILL` pops, and for the items of the keys and their values. -/
structure FillSupplied (formatFloat : BitVec 64 → Bytes) (memory : ℕ → Memory) (count : Value)
    (items : List Value) : Prop where
  pops : Pops (memory 3) (memory 0) (memory 4) count items
  item : (memory 1).calloc 1 sizeofHashItem = true
  pairs : HashScalars.PairsStored formatFloat (memory 1) items

open ValueStack

variable {formatFloat : BitVec 64 → Bytes} {conversions : Conversions} {vm : HashVm}
  {memory : ℕ → Memory} {s : ℕ → ℕ} {bindings : ℕ → Bindings} {target : ℕ} {hash : HashT}
  {count : Value} {items rest : List Value}

theorem Refers.slices (refers : vm.Refers bindings target hash (count :: (items ++ rest)))
    (counts : (count.intValue conversions).toNat = items.length)
    (supplied : SliceSupplied formatFloat memory count items)
    (fresh : HashModel.FreshRounds vm.heap.store s 0 items.length) :
    vm.Slices formatFloat conversions memory s target count items rest := by
  rcases refers.shows with ⟨capacity, shows⟩
  have low := shows.length_le
  rw [List.length_cons, List.length_cons, List.length_append] at low
  rcases shows.popReference (memory 4) with ⟨first, pops, shown⟩
  rcases shown.pop supplied.pops.count with ⟨second, counting, bare⟩
  rcases Nat.eq_zero_or_pos items.length with zero | positive
  · have none := List.length_eq_zero_iff.mp zero
    subst none
    have zeroStored : Stored (memory 3) (Value.int 0) := stored_int 0
    rcases bare.push_within (by rw [List.nil_append]; omega) zeroStored with ⟨next, pushed, left⟩
    refine ⟨[], 1, ⟨next, vm.heap⟩, ?_, by decide, ⟨capacity, left⟩,
      hash, bindings target, refers.inUse, refers.represents.holds refers.inUse,
      List.Forall₂.nil⟩
    simp only [hrslice, pops, Outcome.ok_bind, Value.derefHashReference, Value.derefReference_self,
      counting, sliceKeys, counts, zero, Nat.lt_irrefl, if_false, pushed]
  · have nonempty : items ≠ [] := List.ne_nil_of_length_pos positive
    rcases refers.represents.slice formatFloat refers.inUse supplied.item supplied.keys fresh with
      ⟨handles, heap, sliced, bound, slicing, inUse, holds, binds⟩
    have length := binds.length_eq
    rcases bare.npop_front positive supplied.pops.items with ⟨third, popping, emptied⟩
    have copies : AllStored (memory 2) (handles.map (.reference .scalar)) :=
      allStored_map fun handle => stored_reference .scalar handle
    have pushes : handles.map (Value.reference .scalar) ≠ [] := by
      apply List.ne_nil_of_length_pos
      rw [List.length_map]
      omega
    rcases emptied.pushBoth_within pushes (by rw [List.length_map]; omega) copies supplied.counted
      with ⟨fourth, fifth, pushed, counted, last⟩
    refine ⟨handles, 1, ⟨fifth, heap⟩, ?_, by decide, ?_, sliced, bound, inUse, holds, binds⟩
    · simp only [hrslice, pops, Outcome.ok_bind, Value.derefHashReference,
        Value.derefReference_self, counting, sliceKeys, counts, positive, if_true,
        supplied.pops.list positive, popping, slicing, pushed, counted]
    · rw [countBack, if_neg nonempty]
      exact ⟨capacity, last⟩

/-- `inst_HRFILL` takes all of the items exactly if there are two for each key. An odd item stays
on the data stack, and if there is no other the instruction fails. -/
theorem Refers.hrfill_iff (refers : vm.Refers bindings target hash (count :: (items ++ rest)))
    (counts : (count.intValue conversions).toNat = items.length)
    (supplied : FillSupplied formatFloat memory count items)
    (fresh : ∀ store, vm.heap.store.releaseAll hash.values = .ok store →
      HashModel.FreshRounds store s 0 (items.length / 2)) :
    Yields Shows (vm.hrfill formatFloat conversions memory s) rest ↔ items.length % 2 = 0 := by
  rcases refers.shows with ⟨capacity, shows⟩
  constructor
  · rintro ⟨incr, after, success, goesOn, last, shown⟩
    rcases hrfill_eq_ok goesOn success shows with
      ⟨handle, number, pairs, left, answer, split, final, _, _, fills⟩
    have same := final.contents.symm.trans shown.contents
    subst same
    rw [List.cons.injEq, List.cons.injEq, List.append_cancel_right_eq] at split
    rw [split.2.2]
    exact HashHeap.even_of_fill fills
  · intro even
    rcases refers.represents.fill formatFloat refers.inUse
      (show items.length = 2 * (items.length / 2) by omega) (fun _ => supplied.item)
      supplied.pairs fresh with ⟨heap, _, _, fills, _⟩
    rcases hrfill_of vm memory shows counts (by omega) id supplied.pops.count supplied.pops.list
      supplied.pops.items fills with ⟨next, done, emptied⟩
    exact ⟨1, ⟨next, heap⟩, done, by decide, capacity, emptied⟩

/-- One of three items or more stays on the data stack, if their number is odd. -/
theorem Refers.hrfill_odd {pairs : List Value} {last : Value}
    (refers : vm.Refers bindings target hash (count :: (pairs ++ (last :: rest))))
    (counts : (count.intValue conversions).toNat = pairs.length + 1)
    (even : pairs.length % 2 = 0) (positive : 0 < pairs.length)
    (supplied : FillSupplied formatFloat memory count pairs)
    (fresh : ∀ store, vm.heap.store.releaseAll hash.values = .ok store →
      HashModel.FreshRounds store s 0 (pairs.length / 2)) :
    Yields Shows (vm.hrfill formatFloat conversions memory s) (last :: rest) := by
  rcases refers.shows with ⟨capacity, shows⟩
  rcases refers.represents.fill formatFloat refers.inUse
    (show pairs.length = 2 * (pairs.length / 2) by omega) (fun _ => supplied.item) supplied.pairs
    fresh with ⟨heap, _, _, fills, _⟩
  rcases hrfill_of vm memory shows counts (by omega) (fun _ => positive) supplied.pops.count
    supplied.pops.list supplied.pops.items fills with ⟨next, done, left⟩
  exact ⟨1, ⟨next, heap⟩, done, by decide, capacity, left⟩

end HashVm

section Counted

variable (formatFloat : BitVec 64 → Bytes) (conversions : Conversions) (count : Value)
  (items rest : List Value)

/-- An instruction leaves these results in place of the count and the items. -/
def Rearranges (inst : Memory → DataStack → Outcome (ℤ × DataStack)) (results : List Value) :
    Prop :=
  ∀ (context : DataStack) (memory : Memory), context.Represents (count :: (items ++ rest)) →
    DataStack.Grants memory items.length → context.heap.Affords (count :: items) →
      Yields DataStack.Represents (inst memory context) (results ++ rest)

/-- `inst_CORO` moves the items to a child. -/
def CoroMoves : Prop :=
  ∀ (context : DataStack) (memory : Memory), context.Represents (count :: (items ++ rest)) →
    DataStack.CoroSupplied memory (count.intValue conversions) →
    context.heap.Affords (count :: items) →
      Spawns (context.instCORO conversions memory) items rest

/-- `inst_FRCORO` moves the items to a child, and takes the function reference. -/
def FrcoroMoves : Prop :=
  ∀ (context : DataStack) (memory : Memory) (function : ℕ),
    context.Represents (.function function :: count :: (items ++ rest)) →
    DataStack.CoroSupplied memory (count.intValue conversions) →
    context.heap.Affords (count :: items) →
      Spawns (context.instFRCORO conversions memory) items rest

/-- `inst_CAT` leaves the concatenation of the items. -/
def CatJoins : Prop :=
  ∀ (stack : ValueStack) (capacity : ℕ) (memory : ℕ → Memory),
    stack.Shows (count :: (items ++ rest)) capacity →
    ValueStack.CatSupplied formatFloat memory count items →
      ∃ s, s.stringValue formatFloat = items.flatMap (Value.stringValue formatFloat) ∧
        Yields (fun after values => after.Shows values capacity)
          (stack.cat formatFloat conversions memory) (s :: rest)

/-- `inst_ARPUSH` takes the items. -/
def ArpushTakes : Prop :=
  ∀ (vm : ArrayVm) (memory : ℕ → Memory) (s target : ℕ),
    vm.Refers target (count :: (items ++ rest)) →
    Pops (memory 3) (memory 0) (memory 4) count items →
    ValueStack.AllStored (memory 1) items → s ≠ 0 →
      Yields ArrayVm.Shows (vm.arpush conversions memory s) rest

/-- `inst_ARUNSHFT` takes the items. -/
def ArunshftTakes : Prop :=
  ∀ (vm : ArrayVm) (memory : ℕ → Memory) (s target : ℕ),
    vm.Refers target (count :: (items ++ rest)) →
    Pops (memory 3) (memory 0) (memory 4) count items →
    ValueStack.AllStored (memory 1) items → s ≠ 0 →
    (vm.heap.array target).ReservesFront (memory 1) items.length →
      Yields ArrayVm.Shows (vm.arunshft conversions memory s) rest

/-- `inst_ARSLICE` leaves references in place of the items exactly under this condition. -/
def ArsliceRefersIff (condition : Prop) : Prop :=
  ∀ (vm : ArrayVm) (memory : ℕ → Memory) (s : ℕ → ℕ) (target : ℕ),
    vm.Refers target (count :: (items ++ rest)) → ArrayVm.SliceSupplied memory count items →
    ArrayVm.Inside conversions vm target items →
      (vm.Slices conversions memory s target count items rest ↔ condition)

/-- `inst_HRSLICE` leaves references in place of the items. -/
def HrsliceRefers : Prop :=
  ∀ (vm : HashVm) (memory : ℕ → Memory) (s : ℕ → ℕ) (bindings : ℕ → Bindings) (target : ℕ)
    (hash : HashT), vm.Refers bindings target hash (count :: (items ++ rest)) →
    HashVm.SliceSupplied formatFloat memory count items →
    HashModel.FreshRounds vm.heap.store s 0 items.length →
      vm.Slices formatFloat conversions memory s target count items rest

/-- `inst_HRFILL` takes the items exactly under this condition. -/
def HrfillTakesIff (condition : Prop) : Prop :=
  ∀ (vm : HashVm) (memory : ℕ → Memory) (s : ℕ → ℕ) (bindings : ℕ → Bindings) (target : ℕ)
    (hash : HashT), vm.Refers bindings target hash (count :: (items ++ rest)) →
    HashVm.FillSupplied formatFloat memory count items →
    (∀ store, vm.heap.store.releaseAll hash.values = .ok store →
      HashModel.FreshRounds store s 0 (items.length / 2)) →
      (Yields HashVm.Shows (vm.hrfill formatFloat conversions memory s) rest ↔ condition)

variable {conversions : Conversions} {count : Value} {items rest : List Value}

theorem rearranges_of {inst : Memory → DataStack → Outcome (ℤ × DataStack)} {results : List Value}
    (runs : ∀ {context : DataStack} {memory : Memory},
      context.WithLocals (count :: (items ++ rest)) [] [] →
      DataStack.Grants memory items.length → context.heap.Affords (count :: items) →
        ∃ after, inst memory context = .ok (1, after) ∧
          context.Becomes [] [] (results ++ rest) after) :
    Rearranges count items rest inst results := by
  intro context memory represents granted affords
  rcases runs represents.withLocals granted affords with ⟨after, done, left, _⟩
  exact ⟨1, after, done, by decide, left.represents⟩

/-- As many parameters are popped as the number says. -/
theorem paramCount_eq {context : DataStack} (front : List Value)
    (represents : context.Represents (front ++ (items ++ rest)))
    (counts : (count.intValue conversions).toNat = items.length) :
    DataStack.paramCount (count.intValue conversions) = items.length := by
  have low := represents.withLocals.length_le
  have fits := represents.valid.fits
  rw [List.length_append, List.length_append, DataStack.capacity] at low
  simp only [scalarFunctions_size, sizeMax] at fits
  have number := ArrayVm.toInt_of_toNat counts (by omega)
  unfold DataStack.paramCount
  rw [number, counts]
  split
  case isTrue => rfl
  case isFalse none => omega

theorem coroMoves_of (counts : (count.intValue conversions).toNat = items.length) :
    CoroMoves conversions count items rest := by
  intro context memory represents supplied affords
  have params := paramCount_eq [count] represents counts
  have copies : context.heap.Affords (count ::
      (items ++ rest).take (DataStack.paramCount (count.intValue conversions))) := by
    rw [params, List.take_left]
    exact affords
  rcases represents.coro supplied copies (by rw [params, List.length_append]; omega) with
    ⟨child, after, _, done, _, known, left, _⟩
  rw [params, List.take_left] at known
  rw [params, List.drop_left] at left
  exact ⟨1 + 8, child, after, done, by decide, left, known⟩

theorem frcoroMoves_of (counts : (count.intValue conversions).toNat = items.length) :
    FrcoroMoves conversions count items rest := by
  intro context memory function represents supplied affords
  have params := paramCount_eq [.function function, count] represents counts
  have copies : context.heap.Affords (count ::
      (items ++ rest).take (DataStack.paramCount (count.intValue conversions))) := by
    rw [params, List.take_left]
    exact affords
  rcases represents.frcoro supplied copies (by rw [params, List.length_append]; omega) with
    ⟨child, after, _, done, _, known, left, _⟩
  rw [params, List.take_left] at known
  rw [params, List.drop_left] at left
  exact ⟨1, child, after, done, by decide, left, known⟩

theorem catJoins_of (counts : (count.intValue conversions).toNat = items.length) :
    CatJoins formatFloat conversions count items rest := by
  intro stack capacity memory shows supplied
  rcases shows.cat counts supplied with ⟨next, done, left⟩
  exact ⟨_, ValueStack.stringValue_concatenation formatFloat items, 1, next, done, by decide, left⟩

theorem arpushTakes_of (counts : (count.intValue conversions).toNat = items.length) :
    ArpushTakes conversions count items rest := by
  intro vm memory s target refers pops stored nonzero
  apply refers.giveValues counts pops
  intro object
  exact refers.sound.exists_push refers.inUse object nonzero stored

theorem arunshftTakes_of (counts : (count.intValue conversions).toNat = items.length) :
    ArunshftTakes conversions count items rest := by
  intro vm memory s target refers pops stored nonzero room
  apply refers.giveValues counts pops
  intro object
  exact refers.sound.exists_unshift refers.inUse object nonzero stored room

theorem arsliceRefersIff_of (counts : (count.intValue conversions).toNat = items.length) :
    ArsliceRefersIff conversions count items rest (items.length < 2 ^ 31 ∧
      ∀ index ∈ items, (index.intValue conversions).toInt < 2 ^ 31) := by
  intro vm memory s target refers supplied inside
  constructor
  · exact refers.small_of_slices counts supplied inside
  · rintro ⟨few, small⟩
    exact refers.slices counts supplied inside few small

/-- Each instruction that takes a list removes its operands, the count and the items, and leaves
its results and nothing else above what was below, but for two: `inst_HRFILL` does so exactly if
the number of items is even, and `inst_ARSLICE` if the number and the indices are in the range of
an `int`. -/
theorem lists_consumed_iff (counts : (count.intValue conversions).toNat = items.length) :
    Rearranges count items rest (DataStack.instROT conversions) (items.rotate 1) ∧
    Rearranges count items rest (DataStack.instTOR conversions)
      (items.rotate (items.length - 1)) ∧
    Rearranges count items rest (DataStack.instREV conversions) (count :: items.reverse) ∧
    CoroMoves conversions count items rest ∧
    FrcoroMoves conversions count items rest ∧
    CatJoins formatFloat conversions count items rest ∧
    ArpushTakes conversions count items rest ∧
    ArunshftTakes conversions count items rest ∧
    ArsliceRefersIff conversions count items rest (items.length < 2 ^ 31 ∧
      ∀ index ∈ items, (index.intValue conversions).toInt < 2 ^ 31) ∧
    HrsliceRefers formatFloat conversions count items rest ∧
    HrfillTakesIff formatFloat conversions count items rest (items.length % 2 = 0) := by
  refine ⟨?_, ?_, ?_, coroMoves_of counts, frcoroMoves_of counts, catJoins_of formatFloat counts,
    arpushTakes_of counts, arunshftTakes_of counts, arsliceRefersIff_of counts, ?_, ?_⟩
  · apply rearranges_of
    intro context memory within granted affords
    exact within.instROT counts granted affords
  · apply rearranges_of
    intro context memory within granted affords
    exact within.instTOR counts granted affords
  · apply rearranges_of
    intro context memory within granted affords
    exact within.instREV counts granted affords
  · intro vm memory s bindings target hash refers supplied fresh
    exact refers.slices counts supplied fresh
  · intro vm memory s bindings target hash refers supplied fresh
    exact refers.hrfill_iff counts supplied fresh

end Counted

section Sample

theorem refers_filledTwins {values : List Value} (within : values.length < 16) :
    ArrayVm.Refers ⟨.stacked (.reference .array 1 :: values), .filledTwins⟩ 1 values := by
  have pushed : ArrayHeap.twins.push .ample 1 1 [.int 5, .int 7] = .ok (0, .filledTwins) := by rfl
  have inUse : ArrayHeap.filledTwins.InUse 1 := ⟨by decide, rfl⟩
  have inside : ArrayHeap.twins.IndexInside ⟨.push 1 [.int 5, .int 7], .ample, 1⟩ := trivial
  rcases ArrayHeap.new_twins.sound.onArray_eq_ok pushed with ⟨_, state, _, same⟩
  refine ⟨ArrayHeap.new_twins.sound.step inside ArrayHeap.step_twins, inUse, ?_, 16,
    ValueStack.shows_stacked within⟩
  intro other outside
  by_cases one : other = 1
  · subst one
    exact absurd inUse outside
  · rw [same, ArrayHeap.array_put, if_neg one]
    by_cases two : other = 2
    · subst two
      exact ArrayT.init_inside
    · simp [ArrayHeap.twins, ArrayHeap.array, one, two, ArrayT.Inside]

theorem refers_twins {values : List Value} (within : values.length < 16) :
    HashVm.Refers ⟨.stacked (.reference .hash 1 :: values), .twins⟩ HashHeap.twinBindings 1
      (HashT.init.setBucket [] ⟨1, [([], 1)]⟩) values :=
  ⟨HashHeap.represents_twins, rfl, 16, ValueStack.shows_stacked within⟩

theorem fresh_of_unused {store : ScalarStore Value} (unused : ∀ s, 2 < s → store.scalars s = none)
    (count : ℕ) : HashModel.FreshRounds store (fun i => i + 3) 0 count := by
  refine ⟨?_, ?_⟩
  · intro j _ _
    have above : 2 < j + 3 := by omega
    exact ⟨Nat.succ_ne_zero _, unused _ above⟩
  · intro j k _ less _
    have apart : j + 3 ≠ k + 3 := by omega
    exact apart

theorem unused_twins (s : ℕ) (above : 2 < s) : HashHeap.twins.store.scalars s = none := by
  have neither : ¬(s = 1 ∨ s = 2) := by omega
  exact if_neg neither

theorem unused_released {store : ScalarStore Value}
    (releasing : HashHeap.twins.store.releaseAll (HashT.init.setBucket [] ⟨1, [([], 1)]⟩).values =
      .ok store) (s : ℕ) (above : 2 < s) : store.scalars s = none := by
  have values : (HashT.init.setBucket [] ⟨1, [([], 1)]⟩).values = [1] := by decide +kernel
  have elsewhere : s ∉ (HashT.init.setBucket [] ⟨1, [([], 1)]⟩).values := by
    rw [values, List.mem_singleton]
    omega
  exact (ScalarStore.releaseAll_frame releasing elsewhere).trans (unused_twins s above)

/-- The count two, the items one and zero, and a five below them. -/
theorem lists_consumed_sample :
    Yields DataStack.Represents
      ((DataStack.pile [5, 0, 1, 2]).instROT DataStack.sampleConversions .ample)
      [.int 0, .int 1, .int 5] ∧
    Spawns ((DataStack.pile [5, 0, 1, 2]).instCORO DataStack.sampleConversions .ample)
      [.int 1, .int 0] [.int 5] ∧
    (∃ s, s.stringValue (fun _ => []) = ascii "10" ∧
      Yields (fun after values => after.Shows values 16)
        ((ValueStack.stacked [.int 2, .int 1, .int 0, .int 5]).cat (fun _ => [])
          DataStack.sampleConversions fun _ => .ample) [s, .int 5]) ∧
    Yields ArrayVm.Shows (ArrayVm.arunshft DataStack.sampleConversions (fun _ => .ample) 3
      ⟨.stacked [.reference .array 1, .int 2, .int 1, .int 0, .int 5], .filledTwins⟩) [.int 5] ∧
    ArrayVm.Slices DataStack.sampleConversions (fun _ => .ample) (fun _ => 3)
      ⟨.stacked [.reference .array 1, .int 2, .int 1, .int 0, .int 5], .filledTwins⟩ 1 (.int 2)
      [.int 1, .int 0] [.int 5] ∧
    HashVm.Slices (fun _ => []) DataStack.sampleConversions (fun _ => .ample) (fun i => i + 3)
      ⟨.stacked [.reference .hash 1, .int 2, .int 1, .int 0, .int 5], .twins⟩ 1 (.int 2)
      [.int 1, .int 0] [.int 5] ∧
    Yields HashVm.Shows (HashVm.hrfill (fun _ => []) DataStack.sampleConversions (fun _ => .ample)
      (fun i => i + 3)
      ⟨.stacked [.reference .hash 1, .int 2, .int 1, .int 0, .int 5], .twins⟩) [.int 5] := by
  have counts : ((Value.int 2).intValue DataStack.sampleConversions).toNat =
      [Value.int 1, Value.int 0].length := rfl
  have represents : (DataStack.pile [5, 0, 1, 2]).Represents
      (.int 2 :: ([.int 1, .int 0] ++ [.int 5])) := DataStack.represents_pile (by decide)
  have granted : DataStack.Grants .ample [Value.int 1, Value.int 0].length := by
    intro k _ few
    rw [List.length_cons, List.length_singleton] at few
    have small : k * sizeofScalar ≤ sizeMax := by
      rw [sizeofScalar, sizeMax]
      omega
    exact decide_eq_true small
  have affords : DataStack.sampleHeap.Affords [.int 2, .int 1, .int 0] := by
    apply ScalarHeap.affords_of_unstored
    simp
  have pops : Pops .ample .ample .ample (.int 2) [.int 1, .int 0] :=
    ⟨stored_int 2, fun _ => by decide, by decide⟩
  have stored : ValueStack.AllStored .ample [.int 1, .int 0] := by decide
  rcases @lists_consumed_iff (fun _ => []) _ _ _ [.int 5] counts with
    ⟨rot, _, _, coro, _, cat, _, arunshft, arslice, hrslice, hrfill⟩
  refine ⟨rot _ _ represents granted affords, coro _ _ represents ⟨?_, ?_⟩ affords, ?_, ?_, ?_, ?_,
    ?_⟩
  · decide
  · decide
  · refine cat _ 16 _ (ValueStack.shows_stacked (by decide)) ⟨by decide, ?_, ?_, ?_, ?_, ?_, ?_⟩
    · decide
    · intro i item found
      exact stored item (List.mem_of_getElem? found)
    · intro i item found
      rcases List.mem_pair.mp (List.mem_of_getElem? found) with rfl | rfl
      · decide
      · decide
    · decide
    · decide
    · decide
  · apply arunshft _ _ 3 1 (refers_filledTwins (by decide)) pops stored (by decide)
    intro _
    decide
  · refine (arslice _ _ _ 1 (refers_filledTwins (by decide)) ⟨pops, stored, stored_int 2⟩ ?_).mpr
      ⟨by decide, ?_⟩
    · unfold ArrayVm.Inside
      decide
    · decide
  · exact hrslice _ _ _ _ 1 _ (refers_twins (by decide)) ⟨pops, by decide, by decide, stored_int 2⟩
      (fresh_of_unused unused_twins 2)
  · have pairs : HashScalars.PairsStored (fun _ => []) .ample [.int 1, .int 0] :=
      ⟨by decide, stored_int 0, trivial⟩
    refine (hrfill _ _ _ _ 1 _ (refers_twins (by decide)) ⟨pops, by decide, pairs⟩ ?_).mpr
      (by decide)
    intro store releasing
    exact fresh_of_unused (unused_released releasing) 1

/-- A single item cannot be popped as no pairs, and of three items the last one stays. -/
theorem not_lists_consumed_odd :
    HashVm.Refers ⟨.stacked [.reference .hash 1, .int 1, .string [97]], .twins⟩
        HashHeap.twinBindings 1 (HashT.init.setBucket [] ⟨1, [([], 1)]⟩) [.int 1, .string [97]] ∧
      HashVm.hrfill (fun _ => []) DataStack.sampleConversions (fun _ => .ample) (fun i => i + 3)
        ⟨.stacked [.reference .hash 1, .int 1, .string [97]], .twins⟩ = .error .assertion ∧
      ¬Yields HashVm.Shows (HashVm.hrfill (fun _ => []) DataStack.sampleConversions
        (fun _ => .ample) (fun i => i + 3)
        ⟨.stacked [.reference .hash 1, .int 1, .string [97]], .twins⟩) [] ∧
      HashVm.Refers ⟨.stacked [.reference .hash 1, .int 3, .string [97], .int 4, .string [98]],
          .twins⟩ HashHeap.twinBindings 1 (HashT.init.setBucket [] ⟨1, [([], 1)]⟩)
        [.int 3, .string [97], .int 4, .string [98]] ∧
      Yields HashVm.Shows (HashVm.hrfill (fun _ => []) DataStack.sampleConversions
        (fun _ => .ample) (fun i => i + 3)
        ⟨.stacked [.reference .hash 1, .int 3, .string [97], .int 4, .string [98]], .twins⟩)
        [.string [98]] := by
  have fails : HashVm.hrfill (fun _ => []) DataStack.sampleConversions (fun _ => .ample)
      (fun i => i + 3) ⟨.stacked [.reference .hash 1, .int 1, .string [97]], .twins⟩ =
        .error .assertion := rfl
  refine ⟨refers_twins (by decide), fails, ?_, refers_twins (by decide), ?_⟩
  · rintro ⟨_, _, success, _⟩
    rw [fails] at success
    cases success
  · have refers : HashVm.Refers ⟨.stacked (.reference .hash 1 :: .int 3 ::
        ([.string [97], .int 4] ++ [.string [98]])), .twins⟩ HashHeap.twinBindings 1
        (HashT.init.setBucket [] ⟨1, [([], 1)]⟩)
        (.int 3 :: ([.string [97], .int 4] ++ [.string [98]])) := refers_twins (by decide)
    have counts : ((Value.int 3).intValue DataStack.sampleConversions).toNat =
        [Value.string [97], Value.int 4].length + 1 := rfl
    have pops : Pops .ample .ample .ample (.int 3) [.string [97], .int 4] :=
      ⟨stored_int 3, fun _ => by decide, by decide⟩
    have pairs : HashScalars.PairsStored (fun _ => []) .ample [.string [97], .int 4] :=
      ⟨by decide, stored_int 4, trivial⟩
    apply refers.hrfill_odd counts (by decide) (by decide) ⟨pops, by decide, pairs⟩
    intro store releasing
    exact fresh_of_unused (unused_released releasing) 1

end Sample

end Dang
