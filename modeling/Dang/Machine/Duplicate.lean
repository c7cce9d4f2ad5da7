import Dang.Machine.DataStackCalls
import Dang.StackBlock

/-!
# DUP and OVER

Both push an item of the data stack through a pointer into the buffer of its items. If the push
has to make room, it frees that buffer before it reads the item. And if there is no storage for the
copy of a string, a null pointer is pushed in its place.
-/

namespace Dang

open ScalarHeap DataStack

namespace BlockStack

/-- A data stack in storage. -/
abbrev ScalarBlocks := Blocks Scalar ScalarHeap

section Instructions

variable (memory : Memory) (allocator : Allocator) (stack : BlockStack) (storage : ScalarBlocks)

/-- `inst_DUP`, which ignores what `vm_ds_dup` returns. -/
def instDUP : Outcome (ℤ × BlockStack × ScalarBlocks) := do
  let (_, stack, storage) ← stack.dup scalarFunctions memory allocator storage
  .ok (1, stack, storage)

/-- `inst_OVER`, which ignores what `vm_ds_over` returns. -/
def instOVER : Outcome (ℤ × BlockStack × ScalarBlocks) := do
  let (_, stack, storage) ← stack.pushOver scalarFunctions memory allocator storage
  .ok (1, stack, storage)

end Instructions

/-- The instruction puts a copy of the value on the stack, whose other items are what they were.
Whatever it reads is in storage at that time. -/
def Appends (outcome : Outcome (ℤ × BlockStack × ScalarBlocks)) (items : Stack Scalar)
    (values : List Value) (value : Value) : Prop :=
  ∃ after storage copied copy, outcome = .ok (1, after, storage) ∧ storage.Holds after copied ∧
    Represents ⟨copied, storage.heap⟩ (value :: values) ∧
    copied.contents = copy :: items.contents

variable {memory : Memory} {allocator : Allocator} {stack : BlockStack} {storage : ScalarBlocks}
  {items : Stack Scalar} {values : List Value} {value : Value} {depth : ℕ}

/-- An item of a stack by its depth, as a scalar in the block. -/
theorem exists_scalar (represents : Represents ⟨items, storage.heap⟩ values)
    (there : values[depth]? = some value) :
    depth < items.count ∧ ∃ scalar, items.items[items.count - 1 - depth]? = some scalar ∧
      storage.heap.value scalar = .ok value := by
  have counted := represents.valid.count_le
  have long := Stack.length_contents represents.valid
  have inside := (List.getElem?_eq_some_iff.mp there).1
  have same := represents.denotes.length_eq
  dsimp only at long same counted
  rw [long] at same
  have below : depth < items.count := by omega
  have deep : depth < items.contents.length := by omega
  refine ⟨below, items.contents[depth], ?_, ?_⟩
  · have long' : (items.items.take items.count).length = items.count := by
      rw [List.length_take]
      omega
    rw [← List.getElem?_eq_getElem deep, Stack.contents, List.getElem?_reverse (by omega), long',
      List.getElem?_take_of_lt (by omega)]
  · have known := List.Forall₂.get represents.denotes deep inside
    have here : values[depth] = value := (List.getElem?_eq_some_iff.mp there).2
    simpa [here] using known

/-- With a free slot the push copies the item within the buffer. -/
theorem push_item {scalar item : Scalar} {heap : ScalarHeap} (holds : storage.Holds stack items)
    (valid : items.Valid scalarFunctions) (deep : depth < items.count)
    (found : items.items[items.count - 1 - depth]? = some scalar)
    (free : stack.count < stack.allocatedCount)
    (copied : scalarFunctions.copy scalarFunctions.zero scalar storage.heap = .ok (item, heap)) :
    ∃ last storageLast next, stack.push scalarFunctions memory allocator 1
        ⟨stack.address, stack.count - 1 - depth⟩ storage = .ok (0, last, storageLast) ∧
      storageLast.Holds last next ∧ storageLast.heap = heap ∧
      next.contents = item :: items.contents ∧ next.Valid scalarFunctions := by
  have counts := holds.count
  have allocated := holds.allocatedCount
  have short := Stack.length_small valid (by decide)
  have room : items.HasRoomFor scalarFunctions memory [scalar].length := by
    rw [Stack.HasRoomFor, Stack.reserve, if_pos (by rw [List.length_singleton]; omega)]
  have copies : Stack.copyItems scalarFunctions [scalar].reverse storage.heap =
      .ok ([item], heap) := by
    simp only [List.reverse_singleton, Stack.copyItems, copied, Outcome.ok_bind]
  have one : 0 < [scalar].length := Nat.one_pos
  have object : [scalar].length * scalarFunctions.size ≤ sizeMax := by simp [sizeMax]
  rcases Stack.push_of valid (by decide) one object room copies with
    ⟨next, pushed, shape, validNext⟩
  have reads : ∀ index other, [scalar][index]? = some other →
      storage.read ⟨stack.address, stack.count - 1 - depth + index⟩ = .ok other := by
    intro index other single
    have first : index = 0 := by
      have inside := (List.getElem?_eq_some_iff.mp single).1
      exact Nat.lt_one_iff.mp inside
    rw [first] at single ⊢
    cases single
    refine read_eq_ok.mpr ⟨items.items, holds.block, ?_⟩
    rw [counts, Nat.add_zero]
    exact found
  have live : storage.blocks.lookup stack.address ≠ none := by
    rw [holds.block]
    simp
  have inside : stack.count - 1 - depth + 1 ≤ stack.count ∧
      stack.count + 1 ≤ stack.allocatedCount := by omega
  have small : stack.count + [scalar].length < 2 ^ 63 := by
    rw [List.length_singleton]
    omega
  rcases push_refines allocator ⟨stack.address, stack.count - 1 - depth⟩ holds valid small reads
    live (Or.inr inside) pushed with ⟨last, storageLast, refined, holdsLast, heapLast⟩
  exact ⟨last, storageLast, next, refined, holdsLast, heapLast, shape, validNext⟩

/-- An item pushed through its address in the buffer needs a free slot. -/
theorem free_of_push {status : ℤ} {after : BlockStack} {storageAfter : ScalarBlocks}
    {copied : Stack Scalar} {copy : Scalar} (holds : storage.Holds stack items)
    (valid : items.Valid scalarFunctions)
    (success : stack.push scalarFunctions memory allocator 1
      ⟨stack.address, stack.count - 1 - depth⟩ storage = .ok (status, after, storageAfter))
    (holdsAfter : storageAfter.Holds after copied)
    (shape : copied.contents = copy :: items.contents) : stack.count < stack.allocatedCount := by
  have within := valid.count_le
  have counts := holds.count
  have allocated := holds.allocatedCount
  have short := Stack.length_small valid (by decide)
  by_contra full
  have grows : stack.allocatedCount < stack.count + 1 := by omega
  cases granted : memory.calloc (nextupow2 (stack.count + 1)) scalarFunctions.size with
  | true =>
      have freed : stack.push scalarFunctions memory allocator 1
          ⟨stack.address, stack.count - 1 - depth⟩ storage = .error .invalidAccess :=
        push_of_freed holds valid Nat.one_pos (by omega) rfl grows granted
      rw [freed] at success
      cases success
  | false =>
      have refused : stack.push scalarFunctions memory allocator 1
          ⟨stack.address, stack.count - 1 - depth⟩ storage = .ok (-1, stack, storage) :=
        push_of_refused Nat.one_pos grows granted
      rw [refused] at success
      cases success
      have sameItems := Option.some.inj (holdsAfter.block.symm.trans holds.block)
      have sameCount := holdsAfter.count.symm.trans holds.count
      have same : copied.contents = items.contents := by
        rw [Stack.contents, Stack.contents, sameItems, sameCount]
      rw [same] at shape
      have lengths := congrArg List.length shape
      simp at lengths

/-- Pushing an item through its address in the buffer works exactly while there is a free slot,
and storage for the copy. -/
theorem appends_iff (holds : storage.Holds stack items)
    (represents : Represents ⟨items, storage.heap⟩ values)
    (there : values[depth]? = some value) :
    Appends (do
      let (_, stack, storage) ← stack.push scalarFunctions memory allocator 1
        ⟨stack.address, stack.count - 1 - depth⟩ storage
      .ok (1, stack, storage)) items values value ↔
      stack.count < stack.allocatedCount ∧ storage.heap.CanCopy value := by
  have valid := represents.valid
  rcases exists_scalar represents there with ⟨deep, scalar, found, known⟩
  constructor
  · rintro ⟨after, storageAfter, copied, copy, success, holdsAfter, shows, shape⟩
    rcases Outcome.bind_eq_ok.mp success with ⟨⟨status, between, storageBetween⟩, pushed, result⟩
    cases result
    have free := free_of_push holds valid pushed holdsAfter shape
    refine ⟨free, ?_⟩
    have reads : storage.read ⟨stack.address, stack.count - 1 - depth⟩ = .ok scalar := by
      refine read_eq_ok.mpr ⟨items.items, holds.block, ?_⟩
      rw [holds.count]
      exact found
    rcases copied_of_push holds valid free reads pushed with ⟨item, copying⟩
    rcases push_item holds valid deep found free copying with
      ⟨last, storageLast, next, refined, holdsLast, _, shapeNext, _⟩
    rw [pushed] at refined
    cases refined
    have sameItems := Option.some.inj (holdsAfter.block.symm.trans holdsLast.block)
    have sameCount := holdsAfter.count.symm.trans holdsLast.count
    have same : copied.contents = next.contents := by
      rw [Stack.contents, Stack.contents, sameItems, sameCount]
    have denotes := shows.denotes
    simp only [same, shapeNext] at denotes
    cases denotes with
    | cons itemKnown _ => exact canCopy_of_copy known copying itemKnown
  · rintro ⟨free, stored⟩
    rcases copy_of known stored with ⟨item, heap, copying, moves, itemKnown⟩
    have cloned : clone .undefined scalar storage.heap = .ok (item, heap) := copying
    rcases @push_item memory allocator _ _ _ _ _ _ _ holds valid deep found free cloned with
      ⟨last, storageLast, next, refined, holdsLast, heapLast, shapeNext, validNext⟩
    refine ⟨last, storageLast, next, item, ?_, holdsLast, ⟨validNext, ?_, ?_⟩, shapeNext⟩
    · exact Outcome.bind_eq_ok.mpr ⟨_, refined, rfl⟩
    · simp only [shapeNext, heapLast]
      exact List.Forall₂.cons itemKnown (represents.denotes.grows moves fun _ => rfl)
    · intro unit
      have owned : units items.contents unit ≤ storage.heap.supply unit := represents.backed unit
      have moved := moves.supply unit
      simp only [Pi.zero_apply, Nat.add_zero] at moved
      simp only [shapeNext, heapLast]
      rw [units_cons item]
      omega

/-- DUP and OVER append a copy of the top and of the second item exactly while there is a free
slot in the buffer, and storage for the copy. -/
theorem duplicates_iff (holds : storage.Holds stack items)
    (represents : Represents ⟨items, storage.heap⟩ values) :
    (∀ first rest, values = first :: rest →
      (Appends (stack.instDUP memory allocator storage) items values first ↔
        stack.count < stack.allocatedCount ∧ storage.heap.CanCopy first)) ∧
      ∀ first second rest, values = first :: second :: rest →
        (Appends (stack.instOVER memory allocator storage) items values second ↔
          stack.count < stack.allocatedCount ∧ storage.heap.CanCopy second) := by
  constructor
  · rintro first rest rfl
    have top : (first :: rest)[0]? = some first := rfl
    have nonempty := (exists_scalar represents top).1
    rw [← holds.count] at nonempty
    rw [← appends_iff holds represents top, instDUP, dup, Outcome.assertThat_of nonempty,
      Outcome.ok_bind]
    rfl
  · rintro first second rest rfl
    have below : (first :: second :: rest)[1]? = some second := rfl
    have two := (exists_scalar represents below).1
    rw [← holds.count] at two
    rw [← appends_iff holds represents below, instOVER, pushOver, Outcome.assertThat_of two,
      Outcome.ok_bind]
    rfl

section Sample

/-- Integers on a stack of sixteen slots, the size that `STACK_INIT` gives it. -/
def sevens (count : ℕ) : Stack Scalar where
  items := List.replicate count (.int 7) ++ List.replicate (16 - count) .undefined
  count := count

/-- A string below an integer. -/
def pair : Stack Scalar := ⟨[.string 1, .int 7] ++ List.replicate 14 .undefined, 2⟩

/-- The stack in a block of its own. -/
def sampleBlock (items : Stack Scalar) : BlockStack := ⟨1, items.items.length, items.count⟩

def sampleStorage (items : Stack Scalar) : ScalarBlocks :=
  ⟨Finmap.singleton 1 items.items, sampleHeap, 0⟩

theorem holds_sample
    (items : Stack Scalar) : (sampleStorage items).Holds (sampleBlock items) items where
  block := Finmap.lookup_singleton_eq
  allocatedCount := rfl
  count := rfl

theorem represents_sevens {count : ℕ} (within : count ≤ 16) :
    Represents ⟨sevens count, sampleHeap⟩ (List.replicate count (.int 7)) := by
  have contents : (sevens count).contents = (List.replicate count 7).map .int := by
    simp [sevens, Stack.contents]
  rw [← List.map_replicate]
  apply represents_integers sampleHeap ⟨?_, ?_, ?_⟩ contents
  · simp [sevens]
  · intro item mem
    rw [sevens, List.drop_left' (List.length_replicate)] at mem
    exact List.eq_of_mem_replicate mem
  · simp [sevens, within, sizeMax]

theorem represents_pair : Represents ⟨pair, sampleHeap⟩ [.int 7, .string (ascii "ab")] := by
  refine ⟨⟨by decide, ?_, by decide⟩, List.Forall₂.cons rfl (List.Forall₂.cons rfl List.Forall₂.nil),
    ?_⟩
  · intro item mem
    exact List.eq_of_mem_replicate mem
  · intro unit
    have owned : units pair.contents unit = units [.string 1] unit := by
      have contents : pair.contents = [.int 7, .string 1] := rfl
      rw [contents, units_cons (.int 7)]
      exact Nat.zero_add _
    have known : sampleHeap.value (.string 1) = .ok (.string (ascii "ab")) := rfl
    exact owned ▸ units_le_supply known unit

theorem duplicates_iff_sample :
    Appends ((sampleBlock pair).instOVER .ample .upwards (sampleStorage pair)) pair
      [.int 7, .string (ascii "ab")] (.string (ascii "ab")) := by
  have stores : Memory.ample.Stores (ascii "ab") := by decide
  apply ((duplicates_iff (holds_sample pair) represents_pair).2 (.int 7) _ [] rfl).mpr
  exact ⟨by decide, stored_string.mpr stores⟩

/-- The seventeenth integer would be copied from a buffer that was freed. -/
theorem not_appends_full :
    ¬ Appends ((sampleBlock (sevens 16)).instDUP .ample .upwards (sampleStorage (sevens 16)))
      (sevens 16) (List.replicate 16 (.int 7)) (.int 7) := by
  rintro ⟨after, storage, copied, copy, success, _⟩
  rcases Outcome.bind_eq_ok.mp success with ⟨pushed, duplicated, _⟩
  have freed : (sampleBlock (sevens 16)).push scalarFunctions .ample .upwards 1 ⟨1, 15⟩
      (sampleStorage (sevens 16)) = .error .invalidAccess :=
    push_of_freed (holds_sample (sevens 16)) (represents_sevens (by decide)).valid Nat.one_pos
      (by decide) rfl (by decide) (by decide)
  rcases Outcome.bind_eq_ok.mp duplicated with ⟨_, _, later⟩
  cases freed.symm.trans later

end Sample

end BlockStack

end Dang
