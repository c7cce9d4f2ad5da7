import Dang.Foundations.Outcome
import Dang.Memory
import Dang.Util

/-!
# Stacks

The stacks that `STACK_DEFINITIONS` defines for a type of items, with the functions
that copy and destroy an item as parameters. Both work on the storage that items
refer to, whose type is a parameter as well. The slots above the top are kept as
they are: copying goes into what the last item there has left behind.
-/

namespace Dang

/-- The functions that `STACK_DEFINITIONS` is given. Each returns what becomes of the item it
is called for. -/
structure ItemFunctions (α σ : Type) where
  /-- An item in storage that `calloc` has returned. -/
  zero : α
  /-- `copy_func(self, other)` -/
  copy : α → α → σ → Outcome (α × σ)
  /-- `dest_func(self)` -/
  dest : α → σ → Outcome (α × σ)
  /-- `sizeof(type)` -/
  size : ℕ

/-- The stack of a type: `m_items` with its `m_allocated_count` items, and `m_count`. -/
structure Stack (α : Type) where
  items : List α
  count : ℕ
  deriving Repr

namespace Stack

variable {α σ : Type}

/-- `STACK_INIT` with `STACK_INITIAL_SIZE`, where there is storage. -/
def init (functions : ItemFunctions α σ) : Stack α where
  items := List.replicate 16 functions.zero
  count := 0

/-- `STACK_RESERVE` -/
def reserve (functions : ItemFunctions α σ) (memory : Memory) (stack : Stack α)
    (newSize : ℕ) : ℤ × Stack α :=
  if newSize ≤ stack.items.length then (0, stack)
  else
    let newSize := nextupow2 newSize
    if memory.calloc newSize functions.size then
      (0, { stack with
        items := stack.items.take stack.count ++
          List.replicate (newSize - stack.count) functions.zero })
    else (-1, stack)

/-- One round of the loop in `STACK_PUSH`. -/
def pushItem (functions : ItemFunctions α σ) (stack : Stack α) (value : α) (heap : σ) :
    Outcome (Stack α × σ) :=
  match stack.items[stack.count]? with
  | none => .error .invalidAccess
  | some slot => do
      let (item, heap) ← functions.copy slot value heap
      .ok (⟨stack.items.set stack.count item, stack.count + 1⟩, heap)

/-- The loop in `STACK_PUSH`, over the values in the order in which they are pushed. -/
def pushItems (functions : ItemFunctions α σ) (stack : Stack α) (heap : σ) :
    List α → Outcome (Stack α × σ)
  | [] => .ok (stack, heap)
  | value :: values => do
      let (stack, heap) ← stack.pushItem functions value heap
      pushItems functions stack heap values

/-- `STACK_PUSH` and `STACK_NPUSH`. The last of the values is pushed first. -/
def push (functions : ItemFunctions α σ) (memory : Memory) (stack : Stack α)
    (values : List α) (heap : σ) : Outcome (ℤ × Stack α × σ) := do
  Outcome.assertThat (0 < values.length)
  let (status, stack) := stack.reserve functions memory (stack.count + values.length)
  if status = 0 then do
    let (stack, heap) ← stack.pushItems functions heap values.reverse
    .ok (0, stack, heap)
  else .ok (-1, stack, heap)

/-- One round of the loop in `STACK_POP`, with the result it is stored to. -/
def popItem (functions : ItemFunctions α σ) (stack : Stack α) (result : α) (heap : σ) :
    Outcome (α × Stack α × σ) :=
  match stack.items[stack.count - 1]? with
  | none => .error .invalidAccess
  | some slot => do
      let (result, heap) ← functions.copy result slot heap
      let (slot, heap) ← functions.dest slot heap
      .ok (result, ⟨stack.items.set (stack.count - 1) slot, stack.count - 1⟩, heap)

/-- The loop in `STACK_POP`. -/
def popItems (functions : ItemFunctions α σ) (stack : Stack α) (heap : σ) :
    List α → Outcome (List α × Stack α × σ)
  | [] => .ok ([], stack, heap)
  | result :: results => do
      let (result, stack, heap) ← stack.popItem functions result heap
      let (results, stack, heap) ← popItems functions stack heap results
      .ok (result :: results, stack, heap)

/-- `STACK_POP` and `STACK_NPOP` into the given results. -/
def pop (functions : ItemFunctions α σ) (stack : Stack α) (results : List α) (heap : σ) :
    Outcome (List α × Stack α × σ) := do
  Outcome.assertThat (0 < results.length)
  Outcome.assertThat (results.length ≤ stack.count)
  stack.popItems functions heap results

/-- One round of the loop in `STACK_POP` for a null pointer in place of the results. -/
def dropItem (functions : ItemFunctions α σ) (stack : Stack α) (heap : σ) :
    Outcome (Stack α × σ) :=
  match stack.items[stack.count - 1]? with
  | none => .error .invalidAccess
  | some slot => do
      let (slot, heap) ← functions.dest slot heap
      .ok (⟨stack.items.set (stack.count - 1) slot, stack.count - 1⟩, heap)

/-- That loop, with the number of its rounds. -/
def dropItems (functions : ItemFunctions α σ) (stack : Stack α) (heap : σ) :
    ℕ → Outcome (Stack α × σ)
  | 0 => .ok (stack, heap)
  | rounds + 1 => do
      let (stack, heap) ← stack.dropItem functions heap
      dropItems functions stack heap rounds

/-- `STACK_POP` and `STACK_NPOP` with a null pointer in place of the results. -/
def drop (functions : ItemFunctions α σ) (stack : Stack α) (count : ℕ) (heap : σ) :
    Outcome (Stack α × σ) := do
  Outcome.assertThat (0 < count)
  Outcome.assertThat (count ≤ stack.count)
  stack.dropItems functions heap count

/-- `STACK_TOP` -/
def top (functions : ItemFunctions α σ) (stack : Stack α) (result : α) (heap : σ) :
    Outcome (α × σ) := do
  Outcome.assertThat (0 < stack.count)
  match stack.items[stack.count - 1]? with
  | none => .error .invalidAccess
  | some slot => functions.copy result slot heap

/-- `STACK_SWAP` -/
def swap (stack : Stack α) : Outcome (Stack α) := do
  Outcome.assertThat (1 < stack.count)
  match stack.items[stack.count - 2]?, stack.items[stack.count - 1]? with
  | some below, some top =>
      .ok { stack with
        items := (stack.items.set (stack.count - 2) top).set (stack.count - 1) below }
  | _, _ => .error .invalidAccess

/-- The loop in `STACK_DESTROY`. -/
def destroyItems (functions : ItemFunctions α σ) (items : List α) : ℕ → σ → Outcome σ
  | 0, heap => .ok heap
  | count + 1, heap =>
      match items[count]? with
      | none => .error .invalidAccess
      | some item => do
          let (_, heap) ← functions.dest item heap
          destroyItems functions items count heap

/-- `STACK_DESTROY`, as far as the items go. -/
def destroy (functions : ItemFunctions α σ) (stack : Stack α) (heap : σ) : Outcome σ :=
  destroyItems functions stack.items stack.count heap

/-- The items on the stack, the top first. -/
def contents (stack : Stack α) : List α := (stack.items.take stack.count).reverse

/-- The slots above the top are as `calloc` or destroying an item leaves them, and the items
are one object. -/
structure Valid (functions : ItemFunctions α σ) (stack : Stack α) : Prop where
  count_le : stack.count ≤ stack.items.length
  vacant : ∀ item ∈ stack.items.drop stack.count, item = functions.zero
  fits : stack.items.length * functions.size ≤ sizeMax

/-- There is room for one more item, or storage for it. -/
def HasRoom (functions : ItemFunctions α σ) (memory : Memory) (stack : Stack α) : Prop :=
  (stack.reserve functions memory (stack.count + 1)).1 = 0

instance (functions : ItemFunctions α σ) (memory : Memory) (stack : Stack α) :
    Decidable (stack.HasRoom functions memory) := inferInstanceAs (Decidable (_ = _))

variable {functions : ItemFunctions α σ} {memory : Memory} {stack after : Stack α}
  {heap heapAfter : σ}

theorem valid_init (small : functions.size ≤ 2 ^ 59) : (init functions).Valid functions where
  count_le := Nat.zero_le _
  vacant := by
    intro item mem
    exact List.eq_of_mem_replicate mem
  fits := by
    simp only [init, List.length_replicate, sizeMax]
    omega

theorem reserve_refused {newSize : ℕ} (refused : (stack.reserve functions memory newSize).1 ≠ 0) :
    stack.reserve functions memory newSize = (-1, stack) := by
  unfold reserve at refused ⊢
  by_cases enough : newSize ≤ stack.items.length
  · simp [enough] at refused
  · by_cases storage : memory.calloc (nextupow2 newSize) functions.size = true
    · simp [enough, storage] at refused
    · simp [enough, storage]

/-- Reserving room leaves the items on the stack alone. -/
theorem reserve_of {newSize : ℕ} (valid : stack.Valid functions) (small : newSize < 2 ^ 63)
    (room : (stack.reserve functions memory newSize).1 = 0) :
    ∃ items, stack.reserve functions memory newSize = (0, ⟨items, stack.count⟩) ∧
      items.take stack.count = stack.items.take stack.count ∧ newSize ≤ items.length ∧
      (⟨items, stack.count⟩ : Stack α).Valid functions := by
  unfold reserve at room ⊢
  split
  case isTrue enough => exact ⟨stack.items, rfl, rfl, enough, valid⟩
  case isFalse full =>
    rw [if_neg full] at room
    have counted := valid.count_le
    have grows : newSize < nextupow2 newSize := lt_nextupow2 small
    cases storage : memory.calloc (nextupow2 newSize) functions.size with
    | false => simp [storage] at room
    | true =>
        have taken : (stack.items.take stack.count).length = stack.count := by
          rw [List.length_take]
          omega
        have long : (stack.items.take stack.count ++
            List.replicate (nextupow2 newSize - stack.count) functions.zero).length =
              nextupow2 newSize := by
          rw [List.length_append, taken, List.length_replicate]
          omega
        refine ⟨_, if_pos storage, List.take_left' taken, ?_, ?_⟩
        · rw [long]
          omega
        refine ⟨?_, ?_, ?_⟩
        · simp only [long]
          omega
        · intro item mem
          simp only [List.drop_left' taken] at mem
          exact List.eq_of_mem_replicate mem
        · simp only [long]
          exact memory.calloc_fits _ _ storage

theorem length_small (valid : stack.Valid functions) (large : 4 ≤ functions.size) :
    stack.items.length < 2 ^ 62 := by
  have short : stack.items.length * 4 ≤ sizeMax :=
    Nat.le_trans (Nat.mul_le_mul_left _ large) valid.fits
  unfold sizeMax at short
  omega

/-- Reserving room for one more item leaves the items on the stack alone. -/
theorem reserve_succ (valid : stack.Valid functions) (large : 4 ≤ functions.size)
    (room : stack.HasRoom functions memory) :
    ∃ items, stack.reserve functions memory (stack.count + 1) = (0, ⟨items, stack.count⟩) ∧
      items.take stack.count = stack.items.take stack.count ∧ stack.count < items.length ∧
      (⟨items, stack.count⟩ : Stack α).Valid functions := by
  have counted := valid.count_le
  have short := length_small valid large
  exact reserve_of valid (by omega) room

theorem length_contents (valid : stack.Valid functions) :
    stack.contents.length = stack.count := by
  simp [contents, Nat.min_eq_left valid.count_le]

theorem contents_set {items : List α} {count : ℕ} (below : count < items.length) (item : α) :
    (⟨items.set count item, count + 1⟩ : Stack α).contents = item :: contents ⟨items, count⟩ := by
  simp only [contents]
  rw [List.take_add_one, List.getElem?_set_self below, List.take_set_of_le (Nat.le_refl _)]
  simp

theorem contents_succ {items : List α} {count : ℕ} (below : count < items.length) :
    contents ⟨items, count + 1⟩ = items[count] :: contents ⟨items, count⟩ := by
  simp only [contents]
  rw [List.take_add_one, List.getElem?_eq_getElem below]
  simp

/-- Destroying a stack destroys the items on it in turn, the top first. -/
theorem destroyItems_eq (items : List α) {count : ℕ} (within : count ≤ items.length) (heap : σ) :
    destroyItems functions items count heap =
      (contents ⟨items, count⟩).foldlM (fun heap item => Prod.snd <$> functions.dest item heap)
        heap := by
  induction count generalizing heap with
  | zero => rfl
  | succ count ih =>
      have below : count < items.length := within
      rw [contents_succ below, destroyItems, List.getElem?_eq_getElem below, List.foldlM_cons]
      cases destroyed : functions.dest items[count] heap with
      | error fault => simp [destroyed]
      | ok result =>
          rcases result with ⟨item, after⟩
          simp [destroyed, ih (Nat.le_of_lt below)]

/-- Taking the top off, with what destroying it leaves in its slot. -/
theorem Valid.lower {items : List α} {count : ℕ}
    (valid : (⟨items, count + 1⟩ : Stack α).Valid functions) :
    (⟨items.set count functions.zero, count⟩ : Stack α).Valid functions := by
  have below : count < items.length := valid.count_le
  refine ⟨?_, ?_, ?_⟩
  · simp only [List.length_set]
    omega
  · intro item mem
    have setBelow : count < (items.set count functions.zero).length := by
      rw [List.length_set]
      exact below
    simp only at mem
    rw [List.drop_eq_getElem_cons setBelow, List.getElem_set_self,
      List.drop_set_of_lt (Nat.lt_succ_self _)] at mem
    rcases List.mem_cons.mp mem with rfl | later
    · rfl
    · exact valid.vacant item later
  · simpa using valid.fits

/-- Putting an item into the first slot above the top. -/
theorem Valid.raise {items : List α} {count : ℕ} (item : α)
    (valid : (⟨items, count⟩ : Stack α).Valid functions) (below : count < items.length) :
    (⟨items.set count item, count + 1⟩ : Stack α).Valid functions := by
  refine ⟨?_, ?_, ?_⟩
  · simp only [List.length_set]
    exact below
  · intro other mem
    simp only [List.drop_set_of_lt (Nat.lt_succ_self count)] at mem
    apply valid.vacant
    simp only
    rw [List.drop_eq_getElem_cons below]
    exact List.mem_cons_of_mem _ mem
  · simpa using valid.fits

theorem Valid.vacant_get {items : List α} {count : ℕ}
    (valid : (⟨items, count⟩ : Stack α).Valid functions) (below : count < items.length) :
    items[count]? = some functions.zero := by
  rw [List.getElem?_eq_getElem below, Option.some.injEq]
  apply valid.vacant
  simp only
  rw [List.drop_eq_getElem_cons below]
  exact List.mem_cons_self

/-- Pushing one value puts a copy of it onto the stack, or does nothing for want of storage. -/
theorem push_eq_ok {value : α} {status : ℤ} (valid : stack.Valid functions)
    (large : 4 ≤ functions.size)
    (success : stack.push functions memory [value] heap = .ok (status, after, heapAfter)) :
    (stack.HasRoom functions memory ∧ ∃ item,
        functions.copy functions.zero value heap = .ok (item, heapAfter) ∧
        after.contents = item :: stack.contents ∧ after.Valid functions) ∨
      (¬ stack.HasRoom functions memory ∧ after = stack ∧ heapAfter = heap) := by
  simp only [push, List.length_singleton, Outcome.bind_eq_ok] at success
  rcases success with ⟨_, _, success⟩
  by_cases room : stack.HasRoom functions memory
  · left
    rcases reserve_succ valid large room with ⟨items, reserved, same, below, validItems⟩
    have vacant := validItems.vacant_get below
    rw [reserved] at success
    simp only [if_true, List.reverse_singleton, pushItems, pushItem, vacant, Outcome.bind_eq_ok,
      Except.ok.injEq, Prod.mk.injEq, Prod.exists] at success
    rcases success with ⟨_, _, ⟨_, _, ⟨item, _, copied, rfl, rfl⟩, rfl, rfl⟩, _, rfl, rfl⟩
    refine ⟨room, item, copied, ?_, validItems.raise item below⟩
    rw [contents_set below]
    simp only [contents, same]
  · right
    refine ⟨room, ?_⟩
    have refused := reserve_refused room
    have failed : ¬ (-1 : ℤ) = 0 := by decide
    rw [refused, if_neg failed, Except.ok.injEq, Prod.mk.injEq, Prod.mk.injEq] at success
    exact ⟨success.2.1.symm, success.2.2.symm⟩

/-- Popping one item copies it to the result and destroys it. -/
theorem pop_eq_ok {result : α} {results : List α} (valid : stack.Valid functions)
    (success : stack.pop functions [result] heap = .ok (results, after, heapAfter)) :
    ∃ top rest value middle slot, stack.contents = top :: rest ∧
      functions.copy result top heap = .ok (value, middle) ∧
      functions.dest top middle = .ok (slot, heapAfter) ∧
      results = [value] ∧ after.contents = rest ∧
      (slot = functions.zero → after.Valid functions) := by
  simp only [pop, popItems, popItem, List.length_singleton, Outcome.bind_eq_ok,
    Outcome.assertThat_eq_ok, Prod.exists, Except.ok.injEq, Prod.mk.injEq] at success
  rcases success with ⟨_, _, _, nonempty, value, middleStack, middle, popped, others, _, _,
    ⟨rfl, rfl, rfl⟩, rfl, rfl, rfl⟩
  rcases stack with ⟨items, count⟩
  cases count with
  | zero => cases nonempty
  | succ count =>
      have below : count < items.length := valid.count_le
      simp only [Nat.add_sub_cancel, List.getElem?_eq_getElem below, Outcome.bind_eq_ok,
        Prod.exists, Except.ok.injEq, Prod.mk.injEq] at popped
      rcases popped with ⟨_, between, copied, slot, _, destroyed, rfl, rfl, rfl⟩
      refine ⟨items[count], (items.take count).reverse, _, between, slot, contents_succ below,
        copied, destroyed, rfl, ?_, ?_⟩
      · rw [contents, List.take_set_of_le (Nat.le_refl _)]
      · rintro rfl
        exact valid.lower

/-- Copies the values into fresh items, one after the other. -/
def copyItems (functions : ItemFunctions α σ) : List α → σ → Outcome (List α × σ)
  | [], heap => .ok ([], heap)
  | value :: values, heap => do
      let (item, heap) ← functions.copy functions.zero value heap
      let (items, heap) ← copyItems functions values heap
      .ok (item :: items, heap)

/-- Copies each slot to its result and destroys it, one after the other. -/
def moveItems (functions : ItemFunctions α σ) : List (α × α) → σ → Outcome (List α × σ)
  | [], heap => .ok ([], heap)
  | (result, slot) :: pairs, heap => do
      let (value, heap) ← functions.copy result slot heap
      let (_, heap) ← functions.dest slot heap
      let (values, heap) ← moveItems functions pairs heap
      .ok (value :: values, heap)

/-- Destroys the slots one after the other. -/
def dropAll (functions : ItemFunctions α σ) : List α → σ → Outcome σ
  | [], heap => .ok heap
  | slot :: slots, heap => do
      let (_, heap) ← functions.dest slot heap
      dropAll functions slots heap

/-- Destroying an item always leaves one as `calloc` does. -/
def Clears (functions : ItemFunctions α σ) : Prop :=
  ∀ item heap slot after, functions.dest item heap = .ok (slot, after) → slot = functions.zero

/-- There is room for some more items, or storage for them. -/
def HasRoomFor (functions : ItemFunctions α σ) (memory : Memory) (stack : Stack α)
    (count : ℕ) : Prop :=
  (stack.reserve functions memory (stack.count + count)).1 = 0

instance (functions : ItemFunctions α σ) (memory : Memory) (stack : Stack α) (count : ℕ) :
    Decidable (stack.HasRoomFor functions memory count) := inferInstanceAs (Decidable (_ = _))

/-- The loop of `STACK_PUSH` puts copies of the values on the stack. -/
theorem pushItems_of {values copies : List α} (valid : stack.Valid functions)
    (room : stack.count + values.length ≤ stack.items.length)
    (copied : copyItems functions values heap = .ok (copies, heapAfter)) :
    ∃ next, stack.pushItems functions heap values = .ok (next, heapAfter) ∧
      next.contents = copies.reverse ++ stack.contents ∧ next.Valid functions := by
  induction values generalizing stack heap copies with
  | nil =>
      simp only [copyItems, Except.ok.injEq, Prod.mk.injEq] at copied
      rcases copied with ⟨rfl, rfl⟩
      exact ⟨stack, rfl, rfl, valid⟩
  | cons value values ih =>
      simp only [copyItems, Outcome.bind_eq_ok, Prod.exists, Except.ok.injEq,
        Prod.mk.injEq] at copied
      rcases copied with ⟨item, middle, first, items, after, rest, rfl, rfl⟩
      rcases stack with ⟨slots, count⟩
      simp only [List.length_cons] at room
      have below : count < slots.length := by omega
      have enough : count + 1 + values.length ≤ (slots.set count item).length := by
        rw [List.length_set]
        omega
      rcases ih (valid.raise item below) enough rest with ⟨next, pushed, shown, validNext⟩
      refine ⟨next, ?_, ?_, validNext⟩
      · simp [pushItems, pushItem, valid.vacant_get below, first, pushed]
      · rw [shown, contents_set below]
        simp

/-- If that loop returns, it has copied the values. -/
theorem copyItems_of_pushItems {values : List α} (valid : stack.Valid functions)
    (room : stack.count + values.length ≤ stack.items.length)
    (success : stack.pushItems functions heap values = .ok (after, heapAfter)) :
    ∃ copies, copyItems functions values heap = .ok (copies, heapAfter) := by
  induction values generalizing stack heap with
  | nil =>
      cases success
      exact ⟨[], rfl⟩
  | cons value values ih =>
      rcases stack with ⟨slots, count⟩
      simp only [List.length_cons] at room
      have below : count < slots.length := by omega
      simp only [pushItems, pushItem, valid.vacant_get below, Outcome.bind_eq_ok, Prod.exists,
        Except.ok.injEq, Prod.mk.injEq] at success
      rcases success with ⟨next, middle, ⟨item, _, copied, rfl, rfl⟩, rest⟩
      have enough : count + 1 + values.length ≤ (slots.set count item).length := by
        rw [List.length_set]
        omega
      rcases ih (valid.raise item below) enough rest with ⟨copies, others⟩
      refine ⟨item :: copies, ?_⟩
      simp only [copyItems, copied, others, Outcome.ok_bind]

/-- `STACK_PUSH` puts copies of the values on the stack, the first of them on top. -/
theorem push_of {values copies : List α} (valid : stack.Valid functions)
    (large : 4 ≤ functions.size) (nonempty : 0 < values.length)
    (object : values.length * functions.size ≤ sizeMax)
    (room : stack.HasRoomFor functions memory values.length)
    (copied : copyItems functions values.reverse heap = .ok (copies, heapAfter)) :
    ∃ next, stack.push functions memory values heap = .ok (0, next, heapAfter) ∧
      next.contents = copies.reverse ++ stack.contents ∧ next.Valid functions := by
  have counted := valid.count_le
  have short := length_small valid large
  have shortValues : values.length * 4 ≤ sizeMax :=
    Nat.le_trans (Nat.mul_le_mul_left _ large) object
  unfold sizeMax at shortValues
  rcases reserve_of valid (by omega) room with ⟨items, reserved, same, enough, validItems⟩
  have fits : stack.count + values.reverse.length ≤ items.length := by
    rw [List.length_reverse]
    exact enough
  rcases pushItems_of validItems fits copied with ⟨next, pushed, shown, validNext⟩
  refine ⟨next, ?_, ?_, validNext⟩
  · simp [push, Outcome.assertThat_of nonempty, reserved, pushed]
  · rw [shown]
    simp only [contents, same]

/-- If there is room and `STACK_PUSH` returns, it has copied the values. -/
theorem copyItems_of_push {values : List α} {status : ℤ} (valid : stack.Valid functions)
    (large : 4 ≤ functions.size) (object : values.length * functions.size ≤ sizeMax)
    (room : stack.HasRoomFor functions memory values.length)
    (success : stack.push functions memory values heap = .ok (status, after, heapAfter)) :
    ∃ copies, copyItems functions values.reverse heap = .ok (copies, heapAfter) := by
  have counted := valid.count_le
  have short := length_small valid large
  have shortValues : values.length * 4 ≤ sizeMax :=
    Nat.le_trans (Nat.mul_le_mul_left _ large) object
  unfold sizeMax at shortValues
  rcases reserve_of valid (by omega) room with ⟨items, reserved, _, enough, validItems⟩
  have fits : stack.count + values.reverse.length ≤ items.length := by
    rw [List.length_reverse]
    exact enough
  simp only [push, reserved, if_true, Outcome.bind_eq_ok, Prod.exists, Except.ok.injEq,
    Prod.mk.injEq] at success
  rcases success with ⟨_, _, next, middle, pushed, _, _, rfl⟩
  exact copyItems_of_pushItems validItems fits pushed

/-- One round of the loop of `STACK_POP`. -/
theorem popItem_of {result slot value : α} {rest : List α} {middle : σ}
    (valid : stack.Valid functions) (split : stack.contents = slot :: rest)
    (copied : functions.copy result slot heap = .ok (value, middle))
    (destroyed : functions.dest slot middle = .ok (functions.zero, heapAfter)) :
    ∃ next, stack.popItem functions result heap = .ok (value, next, heapAfter) ∧
      next.contents = rest ∧ next.Valid functions ∧ next.count + 1 = stack.count := by
  rcases stack with ⟨items, count⟩
  cases count with
  | zero => simp [contents] at split
  | succ count =>
      have below : count < items.length := valid.count_le
      rw [contents_succ below, List.cons.injEq] at split
      rcases split with ⟨rfl, rfl⟩
      refine ⟨⟨items.set count functions.zero, count⟩, ?_, ?_, valid.lower, rfl⟩
      · simp [popItem, below, copied, destroyed]
      · simp [contents, List.take_set_of_le (Nat.le_refl count)]

/-- The loop of `STACK_POP` moves the topmost items to the results, the top to the first. -/
theorem popItems_of {results slots values rest : List α} (clears : Clears functions)
    (valid : stack.Valid functions) (split : stack.contents = slots ++ rest)
    (counts : results.length = slots.length)
    (moved : moveItems functions (results.zip slots) heap = .ok (values, heapAfter)) :
    ∃ next, stack.popItems functions heap results = .ok (values, next, heapAfter) ∧
      next.contents = rest ∧ next.Valid functions := by
  induction results generalizing stack heap slots values with
  | nil =>
      rw [List.length_nil, eq_comm, List.length_eq_zero_iff] at counts
      subst counts
      simp only [List.zip_nil_left, moveItems, Except.ok.injEq, Prod.mk.injEq] at moved
      rcases moved with ⟨rfl, rfl⟩
      exact ⟨stack, rfl, split, valid⟩
  | cons result results ih =>
      cases slots with
      | nil => simp at counts
      | cons slot slots =>
          simp only [List.zip_cons_cons, moveItems, Outcome.bind_eq_ok, Prod.exists,
            Except.ok.injEq, Prod.mk.injEq] at moved
          rcases moved with ⟨value, between, copied, left, middle, destroyed, others, after,
            restMoved, rfl, rfl⟩
          obtain rfl := clears _ _ _ _ destroyed
          rcases popItem_of valid split copied destroyed with ⟨next, popped, shown, validNext, _⟩
          rcases ih validNext shown (by simpa using counts) restMoved
            with ⟨final, poppedRest, shownFinal, validFinal⟩
          refine ⟨final, ?_, shownFinal, validFinal⟩
          simp [popItems, popped, poppedRest]

/-- If that loop returns, it has moved the items. -/
theorem moveItems_of_popItems {results slots values rest : List α} (clears : Clears functions)
    (valid : stack.Valid functions) (split : stack.contents = slots ++ rest)
    (counts : results.length = slots.length)
    (success : stack.popItems functions heap results = .ok (values, after, heapAfter)) :
    moveItems functions (results.zip slots) heap = .ok (values, heapAfter) := by
  induction results generalizing stack heap slots values with
  | nil =>
      cases success
      rfl
  | cons result results ih =>
      cases slots with
      | nil => simp at counts
      | cons slot slots =>
          rcases stack with ⟨items, count⟩
          cases count with
          | zero => simp [contents] at split
          | succ count =>
              have below : count < items.length := valid.count_le
              have whole := split
              rw [contents_succ below, List.cons_append, List.cons.injEq] at split
              rcases split with ⟨rfl, _⟩
              simp only [popItems, popItem, Nat.add_sub_cancel, List.getElem?_eq_getElem below,
                Outcome.bind_eq_ok, Prod.exists, Except.ok.injEq, Prod.mk.injEq] at success
              rcases success with ⟨value, low, between, ⟨_, middle, copied, left, _, destroyed,
                rfl, rfl, rfl⟩, others, _, _, popped, rfl, rfl, rfl⟩
              obtain rfl := clears _ _ _ _ destroyed
              rcases popItem_of valid whole copied destroyed with ⟨next, lowered, shown, validNext, _⟩
              simp only [popItem, Nat.add_sub_cancel, List.getElem?_eq_getElem below, copied,
                destroyed, Outcome.ok_bind, Except.ok.injEq, Prod.mk.injEq] at lowered
              rcases lowered with ⟨_, rfl, _⟩
              have rest := ih validNext shown (by simpa using counts) popped
              simp only [List.zip_cons_cons, moveItems, copied, destroyed, rest, Outcome.ok_bind]

/-- `STACK_POP` moves the topmost items to the results, the top to the first. -/
theorem pop_of {results slots values rest : List α} (clears : Clears functions)
    (valid : stack.Valid functions) (split : stack.contents = slots ++ rest)
    (nonempty : 0 < results.length) (counts : results.length = slots.length)
    (moved : moveItems functions (results.zip slots) heap = .ok (values, heapAfter)) :
    ∃ next, stack.pop functions results heap = .ok (values, next, heapAfter) ∧
      next.contents = rest ∧ next.Valid functions := by
  have depth : stack.contents.length = stack.count := length_contents valid
  have enough : results.length ≤ stack.count := by
    rw [split, List.length_append] at depth
    omega
  rcases popItems_of clears valid split counts moved with ⟨next, popped, shown, validNext⟩
  refine ⟨next, ?_, shown, validNext⟩
  simp [pop, Outcome.assertThat_of nonempty, Outcome.assertThat_of enough, popped]

/-- If `STACK_POP` returns, there were as many items, and it has moved them. -/
theorem moveItems_of_pop {results values : List α} (clears : Clears functions)
    (valid : stack.Valid functions)
    (success : stack.pop functions results heap = .ok (values, after, heapAfter)) :
    results.length ≤ stack.contents.length ∧
      moveItems functions (results.zip (stack.contents.take results.length)) heap =
        .ok (values, heapAfter) := by
  simp only [pop, Outcome.bind_eq_ok, Outcome.assertThat_eq_ok] at success
  rcases success with ⟨_, _, _, enough, popped⟩
  rw [← length_contents valid] at enough
  have split := (List.take_append_drop results.length stack.contents).symm
  have counts : results.length = (stack.contents.take results.length).length := by
    rw [List.length_take, Nat.min_eq_left enough]
  exact ⟨enough, moveItems_of_popItems clears valid split counts popped⟩

/-- Without results, the topmost items are destroyed. -/
theorem dropItems_of {slots rest : List α} (clears : Clears functions)
    (valid : stack.Valid functions) (split : stack.contents = slots ++ rest)
    (dropped : dropAll functions slots heap = .ok heapAfter) :
    ∃ next, stack.dropItems functions heap slots.length = .ok (next, heapAfter) ∧
      next.contents = rest ∧ next.Valid functions := by
  induction slots generalizing stack heap with
  | nil =>
      simp only [dropAll, Except.ok.injEq] at dropped
      subst dropped
      exact ⟨stack, rfl, split, valid⟩
  | cons slot slots ih =>
      simp only [dropAll, Outcome.bind_eq_ok, Prod.exists] at dropped
      rcases dropped with ⟨left, middle, destroyed, restDropped⟩
      obtain rfl := clears _ _ _ _ destroyed
      rcases stack with ⟨items, count⟩
      cases count with
      | zero => simp [contents] at split
      | succ count =>
          have below : count < items.length := valid.count_le
          rw [contents_succ below, List.cons_append, List.cons.injEq] at split
          rcases split with ⟨rfl, split⟩
          have lowered : (⟨items.set count functions.zero, count⟩ : Stack α).contents =
              slots ++ rest := by
            rw [← split]
            simp [contents, List.take_set_of_le (Nat.le_refl count)]
          rcases ih valid.lower lowered restDropped with ⟨final, droppedRest, shown, validFinal⟩
          refine ⟨final, ?_, shown, validFinal⟩
          simp [dropItems, dropItem, below, destroyed, droppedRest]

theorem drop_of {slots rest : List α} (clears : Clears functions)
    (valid : stack.Valid functions) (split : stack.contents = slots ++ rest)
    (nonempty : 0 < slots.length)
    (dropped : dropAll functions slots heap = .ok heapAfter) :
    ∃ next, stack.drop functions slots.length heap = .ok (next, heapAfter) ∧
      next.contents = rest ∧ next.Valid functions := by
  have depth : stack.contents.length = stack.count := length_contents valid
  have enough : slots.length ≤ stack.count := by
    rw [split, List.length_append] at depth
    omega
  rcases dropItems_of clears valid split dropped with ⟨next, done, shown, validNext⟩
  refine ⟨next, ?_, shown, validNext⟩
  simp [drop, Outcome.assertThat_of nonempty, Outcome.assertThat_of enough, done]

theorem top_of {result slot : α} {rest : List α} (valid : stack.Valid functions)
    (split : stack.contents = slot :: rest) :
    stack.top functions result heap = functions.copy result slot heap := by
  rcases stack with ⟨items, count⟩
  cases count with
  | zero => simp [contents] at split
  | succ count =>
      have below : count < items.length := valid.count_le
      have positive : 0 < count + 1 := Nat.succ_pos count
      rw [contents_succ below, List.cons.injEq] at split
      rcases split with ⟨rfl, _⟩
      rw [top, Outcome.assertThat_of positive]
      simp [below]

/-- `STACK_SWAP` exchanges the two topmost items. -/
theorem swap_of {first second : α} {rest : List α} (valid : stack.Valid functions)
    (split : stack.contents = first :: second :: rest) :
    ∃ next, stack.swap = .ok next ∧ next.contents = second :: first :: rest ∧
      next.Valid functions := by
  rcases stack with ⟨items, count⟩
  match count with
  | 0 => simp [contents] at split
  | 1 =>
      have below : 0 < items.length := valid.count_le
      rw [contents_succ below] at split
      simp [contents] at split
  | count + 2 =>
      have below : count + 1 < items.length := valid.count_le
      have further : count < items.length := by omega
      rw [contents_succ below, contents_succ further, List.cons.injEq, List.cons.injEq] at split
      rcases split with ⟨rfl, rfl, rfl⟩
      have twice : 1 < count + 2 := by omega
      refine ⟨⟨(items.set count items[count + 1]).set (count + 1) items[count], count + 2⟩,
        ?_, ?_, ?_⟩
      · rw [swap, Outcome.assertThat_of twice]
        simp [below, further]
      · rw [contents_succ (by simpa using below), contents_succ (by simpa using further)]
        simp [contents, List.take_set_of_le]
      · refine ⟨?_, ?_, ?_⟩
        · simpa using valid.count_le
        · intro item mem
          apply valid.vacant
          simpa [List.drop_set_of_lt] using mem
        · simpa using valid.fits

/-- The number of slots where there is room. -/
theorem length_reserve {newSize : ℕ} (valid : stack.Valid functions) (small : newSize < 2 ^ 63)
    (room : (stack.reserve functions memory newSize).1 = 0) :
    (stack.reserve functions memory newSize).2.items.length =
      if newSize ≤ stack.items.length then stack.items.length else nextupow2 newSize := by
  have counted := valid.count_le
  have grows : newSize < nextupow2 newSize := lt_nextupow2 small
  unfold reserve at room ⊢
  by_cases enough : newSize ≤ stack.items.length
  · simp only [enough, if_true]
  · cases storage : memory.calloc (nextupow2 newSize) functions.size with
    | false => simp [enough, storage] at room
    | true =>
        simp only [enough, if_false, storage, if_true, List.length_append, List.length_take,
          List.length_replicate]
        omega

theorem length_pushItems {values : List α}
    (success : stack.pushItems functions heap values = .ok (after, heapAfter)) :
    after.items.length = stack.items.length := by
  induction values generalizing stack heap with
  | nil =>
      cases success
      rfl
  | cons value values ih =>
      simp only [pushItems, Outcome.bind_eq_ok, Prod.exists] at success
      rcases success with ⟨next, middle, first, rest⟩
      rw [ih rest]
      simp only [pushItem] at first
      split at first
      · cases first
      · simp only [Outcome.bind_eq_ok, Prod.exists, Except.ok.injEq, Prod.mk.injEq] at first
        rcases first with ⟨item, _, _, rfl, _⟩
        exact List.length_set

/-- Pushing only gets more slots by reserving. -/
theorem length_push {values : List α} {status : ℤ}
    (success : stack.push functions memory values heap = .ok (status, after, heapAfter)) :
    after.items.length =
      (stack.reserve functions memory (stack.count + values.length)).2.items.length := by
  simp only [push, Outcome.bind_eq_ok] at success
  rcases success with ⟨_, _, rest⟩
  split at rest
  · simp only [Outcome.bind_eq_ok, Prod.exists, Except.ok.injEq, Prod.mk.injEq] at rest
    rcases rest with ⟨next, middle, pushed, _, rfl, _⟩
    exact length_pushItems pushed
  · cases rest
    rfl

theorem length_popItems {results values : List α}
    (success : stack.popItems functions heap results = .ok (values, after, heapAfter)) :
    after.items.length = stack.items.length := by
  induction results generalizing stack heap values with
  | nil =>
      cases success
      rfl
  | cons result results ih =>
      simp only [popItems, Outcome.bind_eq_ok, Prod.exists, Except.ok.injEq,
        Prod.mk.injEq] at success
      rcases success with ⟨value, next, middle, first, others, _, _, rest, _, rfl, rfl⟩
      rw [ih rest]
      simp only [popItem] at first
      split at first
      · cases first
      · simp only [Outcome.bind_eq_ok, Prod.exists, Except.ok.injEq, Prod.mk.injEq] at first
        rcases first with ⟨_, _, _, _, _, _, _, rfl, _⟩
        exact List.length_set

theorem length_pop {results values : List α}
    (success : stack.pop functions results heap = .ok (values, after, heapAfter)) :
    after.items.length = stack.items.length := by
  simp only [pop, Outcome.bind_eq_ok] at success
  rcases success with ⟨_, _, _, _, popped⟩
  exact length_popItems popped

end Stack

end Dang
