import Dang.Machine.DataStack

/-!
# The data stack by its values

The data stack of a context where only values matter: a copy of a scalar is its value, which
for a string asks for storage, and destroying one leaves nothing. What the values refer to is
not followed.
-/

namespace Dang

/-- What `anon_scalar_deref_array_reference` and its siblings do for the references of a kind. -/
def Value.derefReference (kind : ReferenceKind) : Value → Outcome ℕ
  | .reference other handle => if other = kind then .ok handle else .error .assertion
  | _ => .error .assertion

theorem Value.derefReference_self (kind : ReferenceKind) (handle : ℕ) :
    (Value.reference kind handle).derefReference kind = .ok handle :=
  if_pos rfl

/-- Only a reference of the kind can be followed. -/
theorem Value.derefReference_eq_ok {kind : ReferenceKind} {value : Value} {handle : ℕ}
    (success : value.derefReference kind = .ok handle) : value = .reference kind handle := by
  cases value with
  | reference other target =>
      simp only [derefReference] at success
      split at success
      case isTrue same =>
        rw [Except.ok.injEq] at success
        rw [same, success]
      case isFalse => cases success
  | undefined => cases success
  | int number => cases success
  | float bits => cases success
  | string bytes => cases success
  | function target => cases success

/-- `anon_scalar_init`, `anon_scalar_destroy` and `anon_scalar_clone` on values, with what `calloc`
answers to `string_dup`. -/
def valueFunctions : ItemFunctions Value Memory where
  zero := .undefined
  copy _ value memory := do
    let copy ← value.clone memory
    .ok (copy, memory)
  dest _ memory := .ok (.undefined, memory)
  size := sizeofScalar

@[simp]
theorem valueFunctions_zero : valueFunctions.zero = .undefined := rfl

/-- A value that there is storage for is copied. -/
theorem valueFunctions_copy {slot value : Value} {memory : Memory}
    (stored : Stored memory value) : valueFunctions.copy slot value memory = .ok (value, memory) := by
  change (ScalarValue.clone memory value >>= fun copy => .ok (copy, memory)) = _
  simp only [show ScalarValue.clone memory value = .ok value from stored, Outcome.ok_bind]

@[simp]
theorem valueFunctions_dest (slot : Value) (memory : Memory) :
    valueFunctions.dest slot memory = .ok (.undefined, memory) := rfl

@[simp]
theorem valueFunctions_size : valueFunctions.size = sizeofScalar := rfl

/-- A data stack of values. -/
abbrev ValueStack := Stack Value

namespace ValueStack

/-- `vm_ds_npush` -/
def vmDsNpush (memory : Memory) (values : List Value) (stack : ValueStack) :
    Outcome (ℤ × ValueStack) := do
  let (status, stack, _) ← Stack.push valueFunctions memory stack values memory
  .ok (status, stack)

/-- `vm_ds_push` -/
def vmDsPush (memory : Memory) (value : Value) (stack : ValueStack) : Outcome (ℤ × ValueStack) :=
  stack.vmDsNpush memory [value]

/-- `vm_ds_npop` -/
def vmDsNpop (memory : Memory) (count : ℕ) (stack : ValueStack) :
    Outcome (List Value × ValueStack) := do
  let (values, stack, _) ←
    Stack.pop valueFunctions stack (List.replicate count .undefined) memory
  .ok (values, stack)

/-- `vm_ds_pop` -/
def vmDsPop (memory : Memory) (stack : ValueStack) : Outcome (Value × ValueStack) := do
  let (values, stack) ← stack.vmDsNpop memory 1
  .ok (values.headD .undefined, stack)

/-- Where `inst_ARLIST` and `inst_HRLISTP` push the values that were listed, if they were: the
number of them for `count`, which else stays undefined. -/
def pushListed (memory : Memory) (status : ℤ) (values : List Value)
    (stack : ValueStack) : Outcome (Value × ValueStack) :=
  if status = 0 then
    if 0 < values.length then do
      let (_, stack) ← stack.vmDsNpush memory values
      .ok (.int (BitVec.ofNat 64 values.length), stack)
    else .ok (.int (BitVec.ofNat 64 values.length), stack)
  else .ok (.undefined, stack)

/-- The values on the stack, the top first, and the number of slots. -/
structure Shows (stack : ValueStack) (contents : List Value) (capacity : ℕ) : Prop where
  valid : Stack.Valid valueFunctions stack
  contents : Stack.contents stack = contents
  capacity : stack.items.length = capacity

/-- There are slots for so many values, or there is storage for them. -/
def Room (memory : Memory) (capacity count : ℕ) : Prop :=
  capacity < count → memory.calloc (nextupow2 count) sizeofScalar = true

instance (memory : Memory) (capacity count : ℕ) : Decidable (Room memory capacity count) :=
  inferInstanceAs (Decidable (_ → _))

/-- There is storage for copies of the values. -/
def AllStored (memory : Memory) (values : List Value) : Prop :=
  ∀ value ∈ values, Stored memory value

instance (memory : Memory) (values : List Value) : Decidable (AllStored memory values) :=
  inferInstanceAs (Decidable (∀ value ∈ values, _))

/-- The number of slots after room for so many values was reserved. -/
def grown (capacity count : ℕ) : ℕ := if count ≤ capacity then capacity else nextupow2 count

variable {stack next : ValueStack} {contents values : List Value} {capacity count : ℕ}
  {memory : Memory}

theorem clears_valueFunctions : Stack.Clears valueFunctions := by
  intro item heap slot after destroyed
  cases destroyed
  rfl

theorem AllStored.append {others : List Value} (first : AllStored memory values)
    (second : AllStored memory others) : AllStored memory (values ++ others) := by
  intro value mem
  rcases List.mem_append.mp mem with front | back
  · exact first value front
  · exact second value back

theorem AllStored.reverse (stored : AllStored memory values) : AllStored memory values.reverse := by
  intro value mem
  exact stored value (List.mem_reverse.mp mem)

theorem allStored_singleton {value : Value} : AllStored memory [value] ↔ Stored memory value :=
  List.forall_mem_singleton

/-- What is not a string asks for no storage. -/
theorem allStored_map {β : Type} {f : β → Value} {list : List β}
    (plain : ∀ entry, Stored memory (f entry)) : AllStored memory (list.map f) := by
  intro value mem
  rcases List.mem_map.mp mem with ⟨entry, _, rfl⟩
  exact plain entry

/-- Values are copied where there is storage for all of them. -/
theorem copyItems_eq_ok {copies : List Value} {after : Memory} :
    Stack.copyItems valueFunctions values memory = .ok (copies, after) ↔
      AllStored memory values ∧ copies = values ∧ after = memory := by
  induction values generalizing copies with
  | nil =>
      simp [Stack.copyItems, AllStored, eq_comm]
  | cons value values ih =>
      rw [AllStored, List.forall_mem_cons, Stack.copyItems]
      constructor
      · intro success
        rcases Outcome.bind_eq_ok.mp success with ⟨⟨item, middle⟩, copied, later⟩
        rcases Outcome.bind_eq_ok.mp copied with ⟨copy, cloned, result⟩
        cases result
        rcases Value.clone_eq_ok.mp cloned with ⟨stored, rfl⟩
        rcases Outcome.bind_eq_ok.mp later with ⟨⟨items, last⟩, others, result⟩
        cases result
        rcases ih.mp others with ⟨rest, rfl, rfl⟩
        exact ⟨⟨stored, rest⟩, rfl, rfl⟩
      · rintro ⟨⟨stored, rest⟩, rfl, rfl⟩
        simp only [valueFunctions_copy stored, ih.mpr ⟨rest, rfl, rfl⟩, Outcome.ok_bind]

theorem moveItems_eq {results slots : List Value} (counts : results.length = slots.length)
    (stored : AllStored memory slots) :
    Stack.moveItems valueFunctions (results.zip slots) memory = .ok (slots, memory) := by
  induction results generalizing slots with
  | nil =>
      rw [List.length_nil, eq_comm, List.length_eq_zero_iff] at counts
      subst counts
      rfl
  | cons result results ih =>
      cases slots with
      | nil => simp at counts
      | cons slot slots =>
          rcases List.forall_mem_cons.mp stored with ⟨first, others⟩
          simp only [List.zip_cons_cons, Stack.moveItems, valueFunctions_copy first,
            valueFunctions_dest, ih (Nat.succ.inj counts) others, Outcome.ok_bind]

theorem Shows.length_eq
    (shows : stack.Shows contents capacity) : stack.count = contents.length := by
  rw [← shows.contents, Stack.length_contents shows.valid]

theorem Shows.length_le (shows : stack.Shows contents capacity) : contents.length ≤ capacity := by
  rw [← shows.length_eq, ← shows.capacity]
  exact shows.valid.count_le

/-- The slots above the values are undefined, so that the values tell what is in all of them. -/
theorem Shows.unique {other : ValueStack} (shows : stack.Shows contents capacity)
    (showsOther : other.Shows contents capacity) : stack = other := by
  have items : ∀ {each : ValueStack}, each.Shows contents capacity → each.items =
      contents.reverse ++ List.replicate (capacity - contents.length) .undefined := by
    intro each shown
    have taken := shown.contents
    rw [Stack.contents, List.reverse_eq_iff] at taken
    have left : (each.items.drop each.count).length = capacity - contents.length := by
      rw [List.length_drop, shown.capacity, shown.length_eq]
    have vacant := List.eq_replicate_iff.mpr ⟨left, shown.valid.vacant⟩
    rw [← List.take_append_drop each.count each.items, taken, vacant]
    rfl
  have counts := shows.length_eq.trans showsOther.length_eq.symm
  have slots := (items shows).trans (items showsOther).symm
  cases stack
  cases other
  simp only [Stack.mk.injEq]
  exact ⟨slots, counts⟩

/-- Reserving room for values, as far as there are slots or storage for them. -/
theorem Shows.reserve_eq (shows : stack.Shows contents capacity) (count : ℕ) :
    (Stack.reserve valueFunctions memory stack count).1 = 0 ↔ Room memory capacity count := by
  simp only [Stack.reserve, shows.capacity, Room]
  by_cases enough : count ≤ capacity
  · simp [enough, Nat.not_lt.mpr enough]
  · by_cases storage : memory.calloc (nextupow2 count) sizeofScalar = true
    · simp [enough, storage]
    · simp [enough, storage, Nat.lt_of_not_le enough]

/-- Without room nothing is pushed. -/
theorem Shows.npush_refused (shows : stack.Shows contents capacity) (nonempty : values ≠ [])
    (refused : ¬Room memory capacity (contents.length + values.length)) :
    stack.vmDsNpush memory values = .ok (-1, stack) := by
  have positive : 0 < values.length := List.length_pos_iff.mpr nonempty
  have refuses : (Stack.reserve valueFunctions memory stack (stack.count + values.length)).1 ≠ 0 := by
    intro reserves
    rw [shows.length_eq] at reserves
    exact refused ((shows.reserve_eq _).mp reserves)
  have failed : ¬ (-1 : ℤ) = 0 := by decide
  simp only [vmDsNpush, Stack.push, Outcome.assertThat_of positive, Outcome.ok_bind,
    Stack.reserve_refused refuses, failed, if_false]

/-- Pushing values puts copies of them on the stack, the first of them on top, or does nothing
where there is no room for them. -/
theorem Shows.npush (shows : stack.Shows contents capacity) (memory : Memory)
    (nonempty : values ≠ []) (object : values.length * sizeofScalar ≤ sizeMax)
    (stored : AllStored memory values) :
    Room memory capacity (contents.length + values.length) ∧
        (∃ next, stack.vmDsNpush memory values = .ok (0, next) ∧
          next.Shows (values ++ contents) (grown capacity (contents.length + values.length))) ∨
      ¬Room memory capacity (contents.length + values.length) ∧
        stack.vmDsNpush memory values = .ok (-1, stack) := by
  have positive : 0 < values.length := List.length_pos_iff.mpr nonempty
  have counts := shows.length_eq
  by_cases room : Room memory capacity (contents.length + values.length)
  · left
    have reserves := (shows.reserve_eq (contents.length + values.length)).mpr room
    rw [← counts] at reserves
    have copied := copyItems_eq_ok.mpr ⟨stored.reverse, rfl, rfl⟩
    rcases Stack.push_of shows.valid (by decide) positive object reserves copied with
      ⟨next, pushed, shown, valid⟩
    refine ⟨room, next, ?_, valid, ?_, ?_⟩
    · simp only [vmDsNpush, pushed, Outcome.ok_bind]
    · rw [shown, List.reverse_reverse, shows.contents]
    · have short := Stack.length_small shows.valid (by decide)
      have counted := shows.valid.count_le
      simp only [sizeofScalar, sizeMax] at object
      rw [Stack.length_push pushed, Stack.length_reserve shows.valid (by omega) reserves,
        shows.capacity, counts]
      rfl
  · exact Or.inr ⟨room, shows.npush_refused nonempty room⟩

/-- Where there is room and pushing returns, the values were copied. -/
theorem Shows.allStored_of_npush {status : ℤ} (shows : stack.Shows contents capacity)
    (object : values.length * sizeofScalar ≤ sizeMax)
    (room : Room memory capacity (contents.length + values.length))
    (success : stack.vmDsNpush memory values = .ok (status, next)) : AllStored memory values := by
  have reserves := (shows.reserve_eq (contents.length + values.length)).mpr room
  rw [← shows.length_eq] at reserves
  rcases Outcome.bind_eq_ok.mp success with ⟨⟨_, _, _⟩, pushed, _⟩
  rcases Stack.copyItems_of_push shows.valid (by decide) object reserves pushed with ⟨copies, copied⟩
  have stored := (copyItems_eq_ok.mp copied).1.reverse
  rwa [List.reverse_reverse] at stored

/-- What pushing values leaves, if it returns: all of them on the stack, or none. -/
theorem Shows.npush_eq_ok {status : ℤ} (shows : stack.Shows contents capacity)
    (nonempty : values ≠ []) (object : values.length * sizeofScalar ≤ sizeMax)
    (success : stack.vmDsNpush memory values = .ok (status, next)) :
    ∃ pushed reached, next.Shows (pushed ++ contents) reached ∧
      (pushed = [] ∧ reached = capacity ∨
        pushed = values ∧ Room memory capacity (contents.length + values.length) ∧
          AllStored memory values ∧ reached = grown capacity (contents.length + values.length)) := by
  by_cases room : Room memory capacity (contents.length + values.length)
  · have stored := shows.allStored_of_npush object room success
    rcases shows.npush memory nonempty object stored with ⟨_, other, pushes, shown⟩ | ⟨none, _⟩
    · rw [pushes, Except.ok.injEq, Prod.mk.injEq] at success
      rcases success with ⟨_, rfl⟩
      exact ⟨values, _, shown, Or.inr ⟨rfl, room, stored, rfl⟩⟩
    · exact absurd room none
  · rw [shows.npush_refused nonempty room, Except.ok.injEq, Prod.mk.injEq] at success
    rcases success with ⟨_, rfl⟩
    exact ⟨[], capacity, shows, Or.inl ⟨rfl, rfl⟩⟩

/-- Popping takes the topmost values. -/
theorem Shows.npop (shows : stack.Shows contents capacity) (positive : 0 < count)
    (depth : count ≤ contents.length) (stored : AllStored memory (contents.take count)) :
    ∃ next, stack.vmDsNpop memory count = .ok (contents.take count, next) ∧
      next.Shows (contents.drop count) capacity := by
  have split : Stack.contents stack = contents.take count ++ contents.drop count := by
    rw [List.take_append_drop, shows.contents]
  have counts : (List.replicate count Value.undefined).length = (contents.take count).length := by
    rw [List.length_replicate, List.length_take, Nat.min_eq_left depth]
  have some : 0 < (List.replicate count Value.undefined).length := by
    rw [List.length_replicate]
    exact positive
  rcases Stack.pop_of clears_valueFunctions shows.valid split some counts
    (moveItems_eq counts stored) with ⟨next, popped, shown, valid⟩
  refine ⟨next, ?_, valid, shown, ?_⟩
  · simp only [vmDsNpop, popped, Outcome.ok_bind]
  · rw [Stack.length_pop popped, shows.capacity]

/-- Popping no values asserts. -/
theorem npop_zero (memory : Memory) (stack : ValueStack) :
    stack.vmDsNpop memory 0 = .error .assertion := rfl

/-- Values are moved where there is storage for copies of them. -/
theorem allStored_of_moveItems {results slots copies : List Value} {after : Memory}
    (counts : results.length = slots.length)
    (success : Stack.moveItems valueFunctions (results.zip slots) memory = .ok (copies, after)) :
    AllStored memory slots := by
  induction results generalizing slots copies after with
  | nil =>
      rw [List.length_nil, eq_comm, List.length_eq_zero_iff] at counts
      subst counts
      intro value mem
      cases mem
  | cons result results ih =>
      cases slots with
      | nil => cases counts
      | cons slot slots =>
          rcases Outcome.bind_eq_ok.mp success with ⟨⟨item, middle⟩, copied, later⟩
          rcases Outcome.bind_eq_ok.mp copied with ⟨copy, cloned, result⟩
          cases result
          rcases Outcome.bind_eq_ok.mp later with ⟨⟨_, _⟩, destroyed, later⟩
          cases destroyed
          rcases Outcome.bind_eq_ok.mp later with ⟨⟨_, _⟩, moved, _⟩
          exact List.forall_mem_cons.mpr
            ⟨(Value.clone_eq_ok.mp cloned).1, ih (Nat.succ.inj counts) moved⟩

/-- What popping took, if it returns. -/
theorem Shows.npop_eq_ok (shows : stack.Shows contents capacity) (positive : 0 < count)
    (success : stack.vmDsNpop memory count = .ok (values, next)) :
    count ≤ contents.length ∧ values = contents.take count ∧ AllStored memory values ∧
      next.Shows (contents.drop count) capacity := by
  rcases Outcome.bind_eq_ok.mp success with ⟨⟨_, _, _⟩, popped, _⟩
  rcases Stack.moveItems_of_pop clears_valueFunctions shows.valid popped with ⟨depth, moved⟩
  rw [shows.contents, List.length_replicate] at depth moved
  have counts : (List.replicate count Value.undefined).length = (contents.take count).length := by
    rw [List.length_replicate, List.length_take, Nat.min_eq_left depth]
  have stored := allStored_of_moveItems counts moved
  rcases shows.npop positive depth stored with ⟨other, pops, shown⟩
  rw [pops, Except.ok.injEq, Prod.mk.injEq] at success
  rcases success with ⟨rfl, rfl⟩
  exact ⟨depth, rfl, stored, shown⟩

/-- The values that were popped stood on top of what is left. -/
theorem Shows.npop_split (shows : stack.Shows contents capacity) (positive : 0 < count)
    (success : stack.vmDsNpop memory count = .ok (values, next)) :
    values.length = count ∧ AllStored memory values ∧
      ∃ left, contents = values ++ left ∧ next.Shows left capacity := by
  rcases shows.npop_eq_ok positive success with ⟨depth, rfl, stored, shown⟩
  refine ⟨?_, stored, contents.drop count, (List.take_append_drop count contents).symm, shown⟩
  rw [List.length_take, Nat.min_eq_left depth]

theorem Shows.pop {value : Value} (shows : stack.Shows (value :: contents) capacity)
    (stored : Stored memory value) :
    ∃ next, stack.vmDsPop memory = .ok (value, next) ∧ next.Shows contents capacity := by
  rcases shows.npop Nat.one_pos (Nat.le_add_left 1 _) (allStored_singleton.mpr stored) with
    ⟨next, pops, shown⟩
  exact ⟨next, by simp [vmDsPop, pops], shown⟩

/-- A reference can be popped whatever storage there is. -/
theorem Shows.popReference {kind : ReferenceKind} {handle : ℕ}
    (shows : stack.Shows (.reference kind handle :: contents) capacity) (memory : Memory) :
    ∃ next, stack.vmDsPop memory = .ok (.reference kind handle, next) ∧
      next.Shows contents capacity :=
  shows.pop (stored_reference kind handle)

theorem Shows.pop_eq_ok {value : Value} (shows : stack.Shows contents capacity)
    (success : stack.vmDsPop memory = .ok (value, next)) :
    Stored memory value ∧ ∃ rest, contents = value :: rest ∧ next.Shows rest capacity := by
  simp only [vmDsPop, Outcome.bind_eq_ok, Prod.exists, Except.ok.injEq, Prod.mk.injEq] at success
  rcases success with ⟨values, popped, pops, rfl, rfl⟩
  rcases shows.npop_eq_ok Nat.one_pos pops with ⟨depth, rfl, stored, shown⟩
  cases contents with
  | nil => simp at depth
  | cons value rest => exact ⟨allStored_singleton.mp stored, rest, rfl, shown⟩

/-- Popping all the values on top. -/
theorem Shows.npop_front {rest : List Value} (shows : stack.Shows (values ++ rest) capacity)
    (positive : 0 < values.length) (stored : AllStored memory values) :
    ∃ next, stack.vmDsNpop memory values.length = .ok (values, next) ∧
      next.Shows rest capacity := by
  have depth : values.length ≤ (values ++ rest).length := by
    rw [List.length_append]
    exact Nat.le_add_right _ _
  have front : AllStored memory ((values ++ rest).take values.length) := by
    rw [List.take_left]
    exact stored
  rcases shows.npop positive depth front with ⟨next, popping, emptied⟩
  rw [List.take_left] at popping
  rw [List.drop_left] at emptied
  exact ⟨next, popping, emptied⟩

/-- A reference of the kind and a count were popped. -/
theorem Shows.popReference_eq_ok {kind : ReferenceKind} {reference count : Value} {handle : ℕ}
    {last : ValueStack} {another : Memory} (shows : stack.Shows contents capacity)
    (pops : stack.vmDsPop memory = .ok (reference, next))
    (read : reference.derefReference kind = .ok handle)
    (counts : next.vmDsPop another = .ok (count, last)) :
    Stored another count ∧ ∃ beneath, contents = .reference kind handle :: count :: beneath ∧
      last.Shows beneath capacity := by
  rcases shows.pop_eq_ok pops with ⟨_, below, rfl, shown⟩
  rcases shown.pop_eq_ok counts with ⟨stored, beneath, rfl, bare⟩
  rw [Value.derefReference_eq_ok read]
  exact ⟨stored, beneath, rfl, bare⟩

/-- What pushing a value leaves. -/
theorem Shows.push_eq_ok {value : Value} {status : ℤ} (shows : stack.Shows contents capacity)
    (success : stack.vmDsPush memory value = .ok (status, next)) :
    ∃ pushed reached, next.Shows (pushed ++ contents) reached ∧
      (pushed = [] ∧ reached = capacity ∨
        pushed = [value] ∧ Room memory capacity (contents.length + 1) ∧ Stored memory value ∧
          reached = grown capacity (contents.length + 1)) := by
  have object : 1 * sizeofScalar ≤ sizeMax := by decide
  simp only [← allStored_singleton]
  exact shows.npush_eq_ok (List.cons_ne_nil _ _) object success

/-- What pushing the values that were listed leaves. -/
theorem Shows.pushListed_eq_ok {status : ℤ} {count : Value} (shows : stack.Shows contents capacity)
    (object : values.length * sizeofScalar ≤ sizeMax)
    (success : stack.pushListed memory status values = .ok (count, next)) :
    (count = .undefined ∨ ∃ n, count = .int n) ∧
      ∃ pushed reached, next.Shows (pushed ++ contents) reached ∧
        (pushed = [] ∧ reached = capacity ∨
          status = 0 ∧ 0 < values.length ∧ pushed = values ∧
            Room memory capacity (contents.length + values.length) ∧ AllStored memory values ∧
            reached = grown capacity (contents.length + values.length)) := by
  simp only [ValueStack.pushListed] at success
  split at success
  case isTrue zero =>
    split at success
    case isTrue positive =>
      simp only [Outcome.bind_eq_ok, Prod.exists, Except.ok.injEq, Prod.mk.injEq] at success
      rcases success with ⟨answer, other, pushes, rfl, rfl⟩
      refine ⟨Or.inr ⟨_, rfl⟩, ?_⟩
      rcases shows.npush_eq_ok (List.length_pos_iff.mp positive) object pushes with
        ⟨pushed, reached, shown, nothing | all⟩
      · exact ⟨pushed, reached, shown, Or.inl nothing⟩
      · exact ⟨pushed, reached, shown, Or.inr ⟨zero, positive, all⟩⟩
    case isFalse =>
      simp only [Except.ok.injEq, Prod.mk.injEq] at success
      rcases success with ⟨rfl, rfl⟩
      exact ⟨Or.inr ⟨_, rfl⟩, [], capacity, shows, Or.inl ⟨rfl, rfl⟩⟩
  case isFalse =>
    simp only [Except.ok.injEq, Prod.mk.injEq] at success
    rcases success with ⟨rfl, rfl⟩
    exact ⟨Or.inl rfl, [], capacity, shows, Or.inl ⟨rfl, rfl⟩⟩

/-- What pushing the values that were listed and their number leaves: the values or none of them,
and the number or not. -/
theorem Shows.pushCounted_eq_ok {status answer : ℤ} {count : Value} {last : ValueStack}
    {another : Memory} (shows : stack.Shows contents capacity)
    (object : values.length * sizeofScalar ≤ sizeMax)
    (lists : stack.pushListed memory status values = .ok (count, next))
    (pushes : next.vmDsPush another count = .ok (answer, last)) :
    ∃ pushed counted reached final, last.Shows (counted ++ (pushed ++ contents)) final ∧
      (pushed = [] ∧ reached = capacity ∨
        status = 0 ∧ 0 < values.length ∧ pushed = values ∧
          Room memory capacity (contents.length + values.length) ∧ AllStored memory values ∧
          reached = grown capacity (contents.length + values.length)) ∧
      (counted = [] ∨ counted = [count] ∧ (count = .undefined ∨ ∃ n, count = .int n) ∧
        Room another reached ((pushed ++ contents).length + 1) ∧
        final = grown reached ((pushed ++ contents).length + 1)) := by
  rcases shows.pushListed_eq_ok object lists with ⟨number, pushed, reached, shown, complete⟩
  rcases shown.push_eq_ok pushes with ⟨counted, final, shown, ⟨nothing, _⟩ | ⟨one, room, _, grew⟩⟩
  · exact ⟨pushed, counted, reached, final, shown, complete, Or.inl nothing⟩
  · exact ⟨pushed, counted, reached, final, shown, complete, Or.inr ⟨one, number, room, grew⟩⟩

/-- All the values that were listed are pushed, if there is room for them and their copies. -/
theorem Shows.pushListed (shows : stack.Shows contents capacity)
    (positive : 0 < values.length) (object : values.length * sizeofScalar ≤ sizeMax)
    (room : Room memory capacity (contents.length + values.length))
    (stored : AllStored memory values) :
    ∃ next, stack.pushListed memory 0 values =
        .ok (.int (BitVec.ofNat 64 values.length), next) ∧
      next.Shows (values ++ contents) (grown capacity (contents.length + values.length)) := by
  rcases shows.npush memory (List.length_pos_iff.mp positive) object stored with
    ⟨_, next, pushes, shown⟩ | ⟨none, _⟩
  · refine ⟨next, ?_, shown⟩
    simp only [ValueStack.pushListed, if_true, positive, pushes, Outcome.ok_bind]
  · exact absurd room none

theorem Shows.push (value : Value) (shows : stack.Shows contents capacity)
    (room : Room memory capacity (contents.length + 1)) (stored : Stored memory value) :
    ∃ next, stack.vmDsPush memory value = .ok (0, next) ∧
      next.Shows (value :: contents) (grown capacity (contents.length + 1)) := by
  have object : 1 * sizeofScalar ≤ sizeMax := by decide
  rcases shows.npush memory (List.cons_ne_nil value []) object (allStored_singleton.mpr stored) with
    ⟨_, next, pushes, shown⟩ | ⟨none, _⟩
  · exact ⟨next, pushes, shown⟩
  · exact absurd room none

/-- Pushing values where the stack has slots for them. -/
theorem Shows.npush_within (shows : stack.Shows contents capacity) (nonempty : values ≠ [])
    (room : contents.length + values.length ≤ capacity) (stored : AllStored memory values) :
    ∃ next, stack.vmDsNpush memory values = .ok (0, next) ∧
      next.Shows (values ++ contents) capacity := by
  have object : values.length * sizeofScalar ≤ sizeMax := by
    have fits := shows.valid.fits
    rw [shows.capacity, valueFunctions_size] at fits
    exact Nat.le_trans (Nat.mul_le_mul_right sizeofScalar (by omega)) fits
  have enough : Room memory capacity (contents.length + values.length) := by
    intro short
    omega
  rcases shows.npush memory nonempty object stored with ⟨_, next, pushes, shown⟩ | ⟨none, _⟩
  · rw [grown, if_pos room] at shown
    exact ⟨next, pushes, shown⟩
  · exact absurd enough none

theorem Shows.push_within {value : Value} (shows : stack.Shows contents capacity)
    (room : contents.length < capacity) (stored : Stored memory value) :
    ∃ next, stack.vmDsPush memory value = .ok (0, next) ∧
      next.Shows (value :: contents) capacity :=
  shows.npush_within (List.cons_ne_nil value []) room (allStored_singleton.mpr stored)

/-- What is pushed where the stack has a slot for it was copied. -/
theorem Shows.stored_of_push_within {value : Value} {status : ℤ}
    (shows : stack.Shows contents capacity) (room : contents.length < capacity)
    (success : stack.vmDsPush memory value = .ok (status, next)) : Stored memory value := by
  have enough : Room memory capacity (contents.length + 1) := by
    intro short
    omega
  have object : 1 * sizeofScalar ≤ sizeMax := by decide
  exact allStored_singleton.mp (shows.allStored_of_npush object enough success)

theorem Shows.push_within_eq_ok {value : Value} {status : ℤ}
    (shows : stack.Shows contents capacity) (room : contents.length < capacity)
    (success : stack.vmDsPush memory value = .ok (status, next)) :
    next.Shows (value :: contents) capacity := by
  rcases shows.push_within room (shows.stored_of_push_within room success) with
    ⟨last, pushes, shown⟩
  cases pushes.symm.trans success
  exact shown

/-- Pushing values and another one on top where the stack has slots for them. -/
theorem Shows.pushBoth_within (shows : stack.Shows contents capacity) (nonempty : values ≠ [])
    (room : contents.length + values.length < capacity) {another : Memory} {top : Value}
    (stored : AllStored memory values) (topStored : Stored another top) :
    ∃ middle last, stack.vmDsNpush memory values = .ok (0, middle) ∧
      middle.vmDsPush another top = .ok (0, last) ∧
      last.Shows (top :: (values ++ contents)) capacity := by
  rcases shows.npush_within nonempty (by omega) stored with ⟨middle, pushed, shown⟩
  rcases shown.push_within (by rw [List.length_append]; omega) topStored with
    ⟨last, counted, both⟩
  exact ⟨middle, last, pushed, counted, both⟩

/-- The number of values in an object is an integer. -/
theorem intValue_length (conversions : Conversions)
    (object : values.length * sizeofScalar ≤ sizeMax) :
    ((Value.int (BitVec.ofNat 64 values.length)).intValue conversions).toNat = values.length := by
  simp only [sizeofScalar, sizeMax] at object
  simp only [Value.intValue, BitVec.toNat_ofNat]
  apply Nat.mod_eq_of_lt
  omega

/-- These values on sixteen slots. -/
def stacked (values : List Value) : ValueStack where
  items := values.reverse ++ List.replicate (16 - values.length) .undefined
  count := values.length

theorem shows_stacked {values : List Value} (within : values.length ≤ 16) :
    (stacked values).Shows values 16 := by
  refine ⟨⟨?_, ?_, ?_⟩, ?_, ?_⟩
  · simp [stacked]
  · intro item mem
    rw [stacked, List.drop_left' List.length_reverse] at mem
    exact List.eq_of_mem_replicate mem
  · simp [stacked, within, sizeMax, sizeofScalar]
  · simp [stacked, Stack.contents]
  · simp [stacked, within]

/-- As many other values fit on a stack with as many slots. -/
theorem Shows.exists_of_length (shows : stack.Shows contents capacity)
    (same : values.length = contents.length) : ∃ other : ValueStack, other.Shows values capacity := by
  have within := shows.length_le
  have fits := shows.valid.fits
  rw [shows.capacity] at fits
  have slots : (values.reverse ++ List.replicate (capacity - values.length) Value.undefined).length =
      capacity := by
    rw [List.length_append, List.length_reverse, List.length_replicate]
    omega
  refine ⟨⟨values.reverse ++ List.replicate (capacity - values.length) .undefined, values.length⟩,
    ⟨?_, ?_, ?_⟩, ?_, slots⟩
  · rw [slots, same]
    exact within
  · intro item mem
    rw [List.drop_left' List.length_reverse] at mem
    exact List.eq_of_mem_replicate mem
  · rw [slots]
    exact fits
  · simp [Stack.contents]

end ValueStack

end Dang
