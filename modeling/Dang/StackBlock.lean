import Dang.Foundations.Buffer
import Dang.Scalar.Heap
import Dang.Stack

/-!
# Stacks in storage

The items of a stack are a block on the heap, which `STACK_RESERVE` replaces by a larger one when
the stack grows. The values that `STACK_PUSH` copies from are behind a pointer, which may lead
into that very block. Unless it does and the stack grows, a push is what `Stack.push` does with
the values.
-/

namespace Dang

/-- The blocks of items that `calloc` has returned, and the storage that the items refer to. -/
structure Blocks (α σ : Type) where
  blocks : Finmap fun _ : ℕ => List α
  heap : σ
  /-- How often `calloc` was called. -/
  time : ℕ

/-- `STACK_STRUCT(type)`, with the address of `m_items`. -/
structure BlockStack where
  address : ℕ
  allocatedCount : ℕ
  count : ℕ
  deriving DecidableEq, Repr

/-- An item of a block: where a pointer to `type` points to. -/
structure Pointer where
  address : ℕ
  index : ℕ
  deriving DecidableEq, Repr

namespace Blocks

variable {α σ : Type}

/-- Reading through a pointer. -/
def read (storage : Blocks α σ) (pointer : Pointer) : Outcome α :=
  match storage.blocks.lookup pointer.address with
  | none => .error .invalidAccess
  | some items =>
      match items[pointer.index]? with
      | none => .error .invalidAccess
      | some item => .ok item

/-- The storage with a block in place of what was at its address. -/
def put (storage : Blocks α σ) (address : ℕ) (items : List α) (heap : σ) : Blocks α σ :=
  { storage with blocks := storage.blocks.insert address items, heap := heap }

/-- The storage after a block was freed and another one came from `calloc`. -/
def replace (storage : Blocks α σ) (old new : ℕ) (items : List α) : Blocks α σ :=
  { storage with
    blocks := (storage.blocks.erase old).insert new items
    time := storage.time + 1 }

/-- Writing through a pointer. -/
def write (storage : Blocks α σ) (pointer : Pointer) (item : α) (heap : σ) :
    Outcome (Blocks α σ) :=
  match storage.blocks.lookup pointer.address with
  | none => .error .invalidAccess
  | some items =>
      if pointer.index < items.length then
        .ok (storage.put pointer.address (items.set pointer.index item) heap)
      else .error .invalidAccess

/-- The block of a stack, with its counts. -/
structure Holds (storage : Blocks α σ) (stack : BlockStack) (items : Stack α) : Prop where
  block : storage.blocks.lookup stack.address = some items.items
  allocatedCount : stack.allocatedCount = items.items.length
  count : stack.count = items.count

end Blocks

namespace BlockStack

variable {α σ : Type} (functions : ItemFunctions α σ) (memory : Memory) (allocator : Allocator)

/-- `STACK_RESERVE` -/
def reserve (newSize : ℕ) (stack : BlockStack) (storage : Blocks α σ) :
    Outcome (ℤ × BlockStack × Blocks α σ) :=
  if newSize ≤ stack.allocatedCount then .ok (0, stack, storage)
  else
    let newSize := nextupow2 newSize
    if memory.calloc newSize functions.size then
      match storage.blocks.lookup stack.address with
      | none => .error .invalidAccess
      | some items => do
          let tmp := allocator.place storage.time storage.blocks.keys
          let copied ← Buffer.load items 0 stack.count
          let moved ← Buffer.store (List.replicate newSize functions.zero) 0 copied
          .ok (0, ⟨tmp, newSize, stack.count⟩, storage.replace stack.address tmp moved)
    else .ok (-1, stack, storage)

/-- One round of the loop in `STACK_PUSH`, with the value it copies. -/
def pushItem (value : Pointer) (stack : BlockStack) (storage : Blocks α σ) :
    Outcome (BlockStack × Blocks α σ) := do
  let slot ← storage.read ⟨stack.address, stack.count⟩
  let other ← storage.read value
  let (item, heap) ← functions.copy slot other storage.heap
  let storage ← storage.write ⟨stack.address, stack.count⟩ item heap
  .ok ({ stack with count := stack.count + 1 }, storage)

/-- The loop in `STACK_PUSH`, which begins with the last of the values. -/
def pushItems (values : Pointer) : ℕ → BlockStack → Blocks α σ → Outcome (BlockStack × Blocks α σ)
  | 0, stack, storage => .ok (stack, storage)
  | count + 1, stack, storage => do
      let (stack, storage) ← stack.pushItem functions ⟨values.address, values.index + count⟩ storage
      pushItems values count stack storage

/-- `STACK_PUSH` and `STACK_NPUSH` -/
def push (count : ℕ) (values : Pointer) (stack : BlockStack) (storage : Blocks α σ) :
    Outcome (ℤ × BlockStack × Blocks α σ) := do
  Outcome.assertThat (0 < count)
  let (status, stack, storage) ←
    stack.reserve functions memory allocator (stack.count + count) storage
  if status = 0 then do
    let (stack, storage) ← stack.pushItems functions values count storage
    .ok (0, stack, storage)
  else .ok (-1, stack, storage)

/-- `STACK_DUP` -/
def dup (stack : BlockStack) (storage : Blocks α σ) : Outcome (ℤ × BlockStack × Blocks α σ) := do
  Outcome.assertThat (0 < stack.count)
  stack.push functions memory allocator 1 ⟨stack.address, stack.count - 1⟩ storage

/-- `STACK_OVER` -/
def pushOver (stack : BlockStack)
    (storage : Blocks α σ) : Outcome (ℤ × BlockStack × Blocks α σ) := do
  Outcome.assertThat (1 < stack.count)
  stack.push functions memory allocator 1 ⟨stack.address, stack.count - 2⟩ storage

variable {functions : ItemFunctions α σ} {memory : Memory} {allocator : Allocator}
  {stack : BlockStack} {storage : Blocks α σ} {items next : Stack α} {values : Pointer} {heap : σ}

/-- The loop of a push leaves other items alone, in its own block those below the top. -/
def Untouched (stack : BlockStack) (before after : Blocks α σ) : Prop :=
  ∀ pointer : Pointer, pointer.address ≠ stack.address ∨ pointer.index < stack.count →
    after.read pointer = before.read pointer

theorem read_eq_ok {pointer : Pointer} {item : α} : storage.read pointer = .ok item ↔
    ∃ items, storage.blocks.lookup pointer.address = some items ∧
      items[pointer.index]? = some item := by
  unfold Blocks.read
  cases there : storage.blocks.lookup pointer.address with
  | none => simp
  | some items =>
      cases inside : items[pointer.index]? with
      | none => simp [inside]
      | some found => simp [inside]

theorem fault_of_read {pointer : Pointer} {fault : Fault}
    (failed : storage.read pointer = .error fault) : fault = .invalidAccess := by
  unfold Blocks.read at failed
  split at failed
  case h_1 => exact (Except.error.inj failed).symm
  case h_2 =>
    split at failed
    case h_1 => exact (Except.error.inj failed).symm
    case h_2 => cases failed

/-- One round does in the block what it does with the value, whatever the pointer leads to. -/
theorem pushItem_refines {value : α} (holds : storage.Holds stack items)
    (reads : storage.read values = .ok value)
    (success : items.pushItem functions value storage.heap = .ok (next, heap)) :
    ∃ after storageAfter, stack.pushItem functions values storage = .ok (after, storageAfter) ∧
      storageAfter.Holds after next ∧ storageAfter.heap = heap ∧
      after.address = stack.address ∧ after.count = stack.count + 1 ∧
      Untouched stack storage storageAfter := by
  have counts := holds.count
  cases there : items.items[items.count]? with
  | none => simp [Stack.pushItem, there] at success
  | some slot =>
      simp only [Stack.pushItem, there] at success
      rcases Outcome.bind_eq_ok.mp success with ⟨⟨item, copying⟩, copied, result⟩
      cases result
      have inside : stack.count < items.items.length := by
        rw [counts]
        exact (List.getElem?_eq_some_iff.mp there).1
      have readsSlot : storage.read ⟨stack.address, stack.count⟩ = .ok slot := by
        refine read_eq_ok.mpr ⟨items.items, holds.block, ?_⟩
        rw [counts, there]
      have written : storage.write ⟨stack.address, stack.count⟩ item copying =
          .ok (storage.put stack.address (items.items.set stack.count item) copying) := by
        simp [Blocks.write, holds.block, inside]
      refine ⟨{ stack with count := stack.count + 1 },
        storage.put stack.address (items.items.set stack.count item) copying, ?_, ⟨?_, ?_, ?_⟩,
        rfl, rfl, rfl, ?_⟩
      · simp only [pushItem, readsSlot, reads, Outcome.ok_bind, copied, written]
      · simp [Blocks.put, counts]
      · simp [holds.allocatedCount]
      · simp [counts]
      · rintro ⟨address, index⟩ apart
        by_cases own : address = stack.address
        · subst own
          have below : stack.count ≠ index := by
            have left := apart.resolve_left (not_not_intro rfl)
            exact Nat.ne_of_gt left
          simp [Blocks.read, Blocks.put, holds.block, below]
        · simp [Blocks.read, Blocks.put, own]

/-- The loop copies the values as long as they can be read, if they lie elsewhere or below the
top. -/
theorem pushItems_refines {list : List α} (holds : storage.Holds stack items)
    (reads : ∀ index value, list[index]? = some value →
      storage.read ⟨values.address, values.index + index⟩ = .ok value)
    (apart : values.address ≠ stack.address ∨ values.index + list.length ≤ stack.count)
    (success : items.pushItems functions storage.heap list.reverse = .ok (next, heap)) :
    ∃ after storageAfter,
      stack.pushItems functions values list.length storage = .ok (after, storageAfter) ∧
        storageAfter.Holds after next ∧ storageAfter.heap = heap := by
  induction list using List.reverseRecOn generalizing stack storage items with
  | nil =>
      cases success
      exact ⟨stack, storage, rfl, holds, rfl⟩
  | append_singleton list value ih =>
      rw [List.length_append, List.length_singleton] at apart ⊢
      rw [List.reverse_append, List.reverse_singleton, List.singleton_append] at success
      rcases Outcome.bind_eq_ok.mp success with ⟨⟨middle, between⟩, first, rest⟩
      have last := reads list.length value (by simp)
      rcases pushItem_refines holds last first with
        ⟨stackBetween, storageBetween, pushed, holdsBetween, heapBetween, address, count, kept⟩
      have readsBetween : ∀ index value, list[index]? = some value →
          storageBetween.read ⟨values.address, values.index + index⟩ = .ok value := by
        intro index value there
        have inside := (List.getElem?_eq_some_iff.mp there).1
        rw [← reads index value (by rw [List.getElem?_append_left inside, there])]
        apply kept
        rcases apart with elsewhere | below
        · exact Or.inl elsewhere
        · exact Or.inr (by dsimp only; omega)
      have apartBetween : values.address ≠ stackBetween.address ∨
          values.index + list.length ≤ stackBetween.count := by
        rw [address, count]
        rcases apart with elsewhere | below
        · exact Or.inl elsewhere
        · exact Or.inr (by omega)
      rw [← heapBetween] at rest
      rcases ih holdsBetween readsBetween apartBetween rest with
        ⟨after, storageAfter, looped, holdsAfter, heapAfter⟩
      refine ⟨after, storageAfter, ?_, holdsAfter, heapAfter⟩
      simp only [pushItems, pushed, Outcome.ok_bind, looped]

/-- A stack that has the room stays where it is. -/
theorem reserve_of_le {newSize : ℕ} (enough : newSize ≤ stack.allocatedCount) :
    stack.reserve functions memory allocator newSize storage = .ok (0, stack, storage) :=
  if_pos enough

/-- A stack that grows has another block afterwards, and its old block is gone. -/
theorem reserve_of_lt {newSize : ℕ} (allocator : Allocator) (holds : storage.Holds stack items)
    (valid : items.Valid functions) (small : newSize < 2 ^ 63)
    (full : stack.allocatedCount < newSize)
    (granted : memory.calloc (nextupow2 newSize) functions.size = true) :
    ∃ after storageAfter,
      stack.reserve functions memory allocator newSize storage = .ok (0, after, storageAfter) ∧
        storageAfter.Holds after (items.reserve functions memory newSize).2 ∧
        storageAfter.heap = storage.heap ∧ after.address ≠ stack.address ∧
        storageAfter.blocks.lookup stack.address = none ∧
        ∀ address, address ≠ stack.address → storage.blocks.lookup address ≠ none →
          address ≠ after.address ∧
            storageAfter.blocks.lookup address = storage.blocks.lookup address := by
  have counts := holds.count
  have allocated := holds.allocatedCount
  have within := valid.count_le
  have larger := lt_nextupow2 small
  have live : stack.address ∈ storage.blocks.keys := by
    rw [Finmap.mem_keys, ← Finmap.lookup_isSome, holds.block]
    rfl
  have fresh := allocator.fresh storage.time storage.blocks.keys
  have apart : allocator.place storage.time storage.blocks.keys ≠ stack.address := by
    intro same
    rw [same] at fresh
    exact fresh live
  have loaded : Buffer.load items.items 0 stack.count = .ok (items.items.take stack.count) :=
    Buffer.load_eq_ok.mpr ⟨by omega, by rw [List.drop_zero]⟩
  have long : (items.items.take stack.count).length = stack.count := by
    rw [List.length_take]
    omega
  have stored : Buffer.store (List.replicate (nextupow2 newSize) functions.zero) 0
      (items.items.take stack.count) = .ok (items.items.take stack.count ++
        List.replicate (nextupow2 newSize - stack.count) functions.zero) := by
    rw [Buffer.store_of_le (by rw [long, List.length_replicate]; omega), long]
    simp
  have shape : (items.reserve functions memory newSize).2 =
      ⟨items.items.take stack.count ++
        List.replicate (nextupow2 newSize - stack.count) functions.zero, items.count⟩ := by
    rw [Stack.reserve, if_neg (by omega)]
    simp [granted, counts]
  refine ⟨⟨allocator.place storage.time storage.blocks.keys, nextupow2 newSize, stack.count⟩,
    storage.replace stack.address (allocator.place storage.time storage.blocks.keys)
      (items.items.take stack.count ++
        List.replicate (nextupow2 newSize - stack.count) functions.zero),
    ?_, ⟨?_, ?_, ?_⟩, rfl, apart, ?_, ?_⟩
  · simp only [reserve, if_neg (Nat.not_le.mpr full), granted, if_true, holds.block, loaded, stored,
      Outcome.ok_bind]
  · rw [shape]
    simp [Blocks.replace]
  · rw [shape]
    simp only [List.length_append, long, List.length_replicate]
    omega
  · rw [shape]
    exact counts
  · simp only [Blocks.replace, Finmap.lookup_insert_of_ne _ apart.symm, Finmap.lookup_erase]
  · intro address other there
    have liveToo : address ∈ storage.blocks.keys := by
      rw [Finmap.mem_keys, ← Finmap.lookup_isSome]
      exact Option.isSome_iff_ne_none.mpr there
    have elsewhere : address ≠ allocator.place storage.time storage.blocks.keys := by
      rintro rfl
      exact fresh liveToo
    refine ⟨elsewhere, ?_⟩
    simp only [Blocks.replace, Finmap.lookup_insert_of_ne _ elsewhere,
      Finmap.lookup_erase_ne other]

/-- A push does what `Stack.push` does with the values, unless they lie in the block of a stack
that has to grow. -/
theorem push_refines {list : List α} (allocator : Allocator) (values : Pointer)
    (holds : storage.Holds stack items) (valid : items.Valid functions)
    (small : stack.count + list.length < 2 ^ 63)
    (reads : ∀ index value, list[index]? = some value →
      storage.read ⟨values.address, values.index + index⟩ = .ok value)
    (live : storage.blocks.lookup values.address ≠ none)
    (apart : values.address ≠ stack.address ∨
      values.index + list.length ≤ stack.count ∧ stack.count + list.length ≤ stack.allocatedCount)
    (success : items.push functions memory list storage.heap = .ok (0, next, heap)) :
    ∃ after storageAfter,
      stack.push functions memory allocator list.length values storage =
        .ok (0, after, storageAfter) ∧
      storageAfter.Holds after next ∧ storageAfter.heap = heap := by
  have counts := holds.count
  rcases Outcome.bind_eq_ok.mp success with ⟨_, nonempty, later⟩
  rw [Outcome.assertThat_eq_ok] at nonempty
  dsimp only at later
  split at later
  case isFalse => cases later
  case isTrue granted =>
    rcases Outcome.bind_eq_ok.mp later with ⟨⟨between, inner⟩, looped, result⟩
    cases result
    rcases Nat.lt_or_ge stack.allocatedCount (stack.count + list.length) with full | enough
    · -- The stack grows, so the values lie in another block.
      have elsewhere := apart.resolve_right (by omega)
      have calloc : memory.calloc (nextupow2 (stack.count + list.length)) functions.size = true := by
        rw [counts, holds.allocatedCount] at full
        rw [Stack.reserve, if_neg (Nat.not_le.mpr full), ← counts] at granted
        by_contra refused
        simp [refused] at granted
      rcases reserve_of_lt allocator holds valid small full calloc with
        ⟨after, storageAfter, reserved, holdsAfter, heapAfter, _, _, others⟩
      rcases others values.address elsewhere live with ⟨away, same⟩
      have readsAfter : ∀ index value, list[index]? = some value →
          storageAfter.read ⟨values.address, values.index + index⟩ = .ok value := by
        intro index value there
        rw [← reads index value there]
        simp only [Blocks.read, same]
      rw [← counts, ← heapAfter] at looped
      rcases pushItems_refines holdsAfter readsAfter (Or.inl away) looped with
        ⟨last, storageLast, pushed, holdsLast, heapLast⟩
      refine ⟨last, storageLast, ?_, holdsLast, heapLast⟩
      simp only [push, Outcome.assertThat_of nonempty, reserved, Outcome.ok_bind, if_true, pushed]
    · -- The stack stays where it is.
      have stays : items.reserve functions memory (items.count + list.length) = (0, items) := by
        refine if_pos ?_
        rw [← counts, ← holds.allocatedCount]
        exact enough
      rw [stays] at looped
      have below := apart.imp_right And.left
      rcases pushItems_refines holds reads below looped with
        ⟨last, storageLast, pushed, holdsLast, heapLast⟩
      refine ⟨last, storageLast, ?_, holdsLast, heapLast⟩
      simp only [push, Outcome.assertThat_of nonempty, reserve_of_le enough, Outcome.ok_bind,
        if_true, pushed]

/-- A value that was pushed into a free slot was copied. -/
theorem copied_of_push {value : α} {status : ℤ} {after : BlockStack} {storageAfter : Blocks α σ}
    (holds : storage.Holds stack items) (valid : items.Valid functions)
    (free : stack.count < stack.allocatedCount) (reads : storage.read values = .ok value)
    (success : stack.push functions memory allocator 1 values storage =
      .ok (status, after, storageAfter)) :
    ∃ item, functions.copy functions.zero value storage.heap = .ok (item, storageAfter.heap) := by
  have inside : items.count < items.items.length := by
    rw [← holds.count, ← holds.allocatedCount]
    exact free
  have slot : storage.read ⟨stack.address, stack.count⟩ = .ok functions.zero := by
    apply read_eq_ok.mpr
    refine ⟨items.items, holds.block, ?_⟩
    rw [holds.count]
    exact valid.vacant_get inside
  simp only [push, Outcome.assertThat_of Nat.one_pos, reserve_of_le (Nat.succ_le_of_lt free),
    Outcome.ok_bind, if_true, pushItems, pushItem, slot, Nat.add_zero] at success
  rcases Outcome.bind_eq_ok.mp success with ⟨⟨_, between⟩, round, result⟩
  cases result
  rcases Outcome.bind_eq_ok.mp round with ⟨⟨_, written⟩, once, same⟩
  cases same
  rcases Outcome.bind_eq_ok.mp once with ⟨read, found, later⟩
  obtain rfl := Except.ok.inj (reads.symm.trans found)
  rcases Outcome.bind_eq_ok.mp later with ⟨⟨item, heap⟩, copied, writes⟩
  rcases Outcome.bind_eq_ok.mp writes with ⟨last, put, done⟩
  have kept : last.heap = heap := by
    unfold Blocks.write at put
    split at put
    case h_1 => cases put
    case h_2 =>
      split at put
      case isTrue =>
        cases put
        rfl
      case isFalse => cases put
  cases done
  refine ⟨item, ?_⟩
  rw [kept]
  exact copied

/-- Values in the block of a stack that grows are read after they were freed. -/
theorem push_of_freed {count : ℕ} (holds : storage.Holds stack items)
    (valid : items.Valid functions) (positive : 0 < count) (small : stack.count + count < 2 ^ 63)
    (own : values.address = stack.address) (full : stack.allocatedCount < stack.count + count)
    (granted : memory.calloc (nextupow2 (stack.count + count)) functions.size = true) :
    stack.push functions memory allocator count values storage = .error .invalidAccess := by
  rcases reserve_of_lt allocator holds valid small full granted with
    ⟨after, storageAfter, reserved, holdsAfter, _, _, freed, _⟩
  rcases values with ⟨address, offset⟩
  dsimp only at own
  subst own
  cases count with
  | zero => cases positive
  | succ left =>
      have unread : ∀ index, storageAfter.read ⟨stack.address, index⟩ = .error .invalidAccess := by
        intro index
        simp only [Blocks.read, freed]
      have round : after.pushItem functions ⟨stack.address, offset + left⟩ storageAfter =
          .error .invalidAccess := by
        unfold pushItem
        cases slot : storageAfter.read ⟨after.address, after.count⟩ with
        | error fault => rw [fault_of_read slot, Outcome.error_bind]
        | ok slot => rw [Outcome.ok_bind, unread, Outcome.error_bind]
      simp only [push, Outcome.assertThat_of positive, reserved, Outcome.ok_bind, if_true, pushItems,
        round, Outcome.error_bind]

/-- Without storage to grow into, a push does nothing. -/
theorem push_of_refused {count : ℕ} (positive : 0 < count)
    (full : stack.allocatedCount < stack.count + count)
    (refused : memory.calloc (nextupow2 (stack.count + count)) functions.size = false) :
    stack.push functions memory allocator count values storage = .ok (-1, stack, storage) := by
  have reserved : stack.reserve functions memory allocator (stack.count + count) storage =
      .ok (-1, stack, storage) := by
    simp [reserve, Nat.not_le.mpr full, refused]
  have failed : ¬ (-1 : ℤ) = 0 := by decide
  simp only [push, Outcome.assertThat_of positive, reserved, Outcome.ok_bind, if_neg failed]

end BlockStack

end Dang
