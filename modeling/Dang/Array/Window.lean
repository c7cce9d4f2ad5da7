import Dang.Array.Basic
import Dang.Pool.Operations
import Mathlib.Data.List.Range

/-!
# The window of an array

What the operations on a locked array do to its window of handles and to the
scalars: one lemma for each, so that the later modules need no index into the buffer.
The public functions do the same to an array that is not locked.
-/

namespace Dang

namespace ArrayT

/-- The window lies inside the buffer, and the buffer is an object. -/
def Inside (array : ArrayT) : Prop :=
  array.first + array.count ≤ array.allocatedCount ∧
    array.allocatedCount * sizeofHandle ≤ sizeMax

/-- The storage `_array_reserve_unlocked` asks for is there. -/
def Reserves (memory : Memory) (array : ArrayT) (targetSize : ℕ) : Prop :=
  array.allocatedCount < array.first + targetSize →
    memory.calloc (nextupow2 (array.first + targetSize)) sizeofHandle = true

/-- The storage `array_unshift` asks for is there. -/
def ReservesFront (memory : Memory) (array : ArrayT) (count : ℕ) : Prop :=
  if array.count = 0 then array.Reserves memory count
  else array.first ≤ count →
    memory.calloc (array.allocatedCount + nextupow2 count) sizeofHandle = true

@[simp]
theorem length_handles (array : ArrayT) : array.handles.length = array.count := by
  simp [handles]

theorem Inside.small {array : ArrayT} (inside : array.Inside) : array.allocatedCount < 2 ^ 61 := by
  have bytes := inside.2
  simp only [sizeofHandle, sizeMax] at bytes
  omega

theorem init_inside : init.Inside := by
  simp [Inside, init, sizeofHandle, sizeMax]

/-- An array that lost its values and starts at the front. -/
theorem Inside.cleared {array : ArrayT} (inside : array.Inside) :
    { array with items := fun _ => 0, first := 0 }.Inside := by
  have window := inside.1
  refine ⟨?_, inside.2⟩
  simp only
  omega

/-- Arrays agree on their windows when their items there do. -/
theorem handles_congr {array other : ArrayT} (count : other.count = array.count)
    (items : ∀ i < array.count,
      other.items (other.first + i) = array.items (array.first + i)) :
    other.handles = array.handles := by
  apply List.ext_getElem
  · simp [count]
  · intro i below _
    simp only [length_handles, count] at below
    simpa [handles] using items i below

theorem reserve_eq (memory : Memory) {array : ArrayT} {targetSize : ℕ} (inside : array.Inside)
    (small : targetSize < 2 ^ 62) :
    ∃ status grown, array.reserve memory targetSize = .ok (status, grown) ∧
      grown.first = array.first ∧ grown.count = array.count ∧ grown.handles = array.handles ∧
      grown.Inside ∧
      (status = 0 ∧ array.first + targetSize ≤ grown.allocatedCount ∨
        status = -1 ∧ grown = array ∧ ¬array.Reserves memory targetSize) := by
  have bound := inside.small
  rcases inside with ⟨window, bytes⟩
  have effective : sizeSub array.allocatedCount array.first =
      array.allocatedCount - array.first := sizeSub_eq (by omega) (by omega)
  simp only [reserve, effective]
  by_cases room : array.allocatedCount - array.first < targetSize
  · have total : sizeAdd array.allocatedCount
        (targetSize - (array.allocatedCount - array.first)) = array.first + targetSize := by
      rw [sizeAdd_eq (by omega)]
      omega
    have larger : array.first + targetSize < nextupow2 (array.first + targetSize) :=
      lt_nextupow2 (by omega)
    rw [if_pos room, growBack, total]
    by_cases storage : memory.calloc (nextupow2 (array.first + targetSize)) sizeofHandle = true
    · simp only [storage, if_true, if_pos (show array.allocatedCount ≤
        nextupow2 (array.first + targetSize) by omega)]
      refine ⟨_, _, rfl, rfl, rfl, ?_, ⟨?_, memory.calloc_fits _ _ storage⟩,
        Or.inl ⟨rfl, Nat.le_of_lt larger⟩⟩
      · apply handles_congr
        · rfl
        · intro i below
          simp only
          rw [if_pos (by omega)]
      · simp only
        omega
    · simp only [storage, Bool.false_eq_true, if_false]
      refine ⟨_, _, rfl, rfl, rfl, rfl, ⟨window, bytes⟩, Or.inr ⟨rfl, rfl, ?_⟩⟩
      intro reserves
      exact storage (reserves (by omega))
  · rw [if_neg room]
    exact ⟨_, _, rfl, rfl, rfl, rfl, ⟨window, bytes⟩, Or.inl ⟨rfl, by omega⟩⟩

/-- Whatever it reserves, `_array_reserve_unlocked` leaves the window as it is. -/
theorem reserve_window {memory : Memory} {array grown : ArrayT} {targetSize : ℕ} {status : ℤ}
    (inside : array.Inside) (success : array.reserve memory targetSize = .ok (status, grown)) :
    grown.first = array.first ∧ grown.count = array.count ∧ grown.handles = array.handles := by
  have window := inside.1
  simp only [reserve] at success
  split at success
  · simp only [growBack] at success
    split at success
    · split at success
      · simp only [Except.ok.injEq, Prod.mk.injEq] at success
        rcases success with ⟨_, rfl⟩
        refine ⟨rfl, rfl, ?_⟩
        apply handles_congr
        · rfl
        · intro i below
          simp only
          rw [if_pos (by omega)]
      · cases success
    · simp only [Except.ok.injEq, Prod.mk.injEq] at success
      rcases success with ⟨_, rfl⟩
      exact ⟨rfl, rfl, rfl⟩
  · simp only [Except.ok.injEq, Prod.mk.injEq] at success
    rcases success with ⟨_, rfl⟩
    exact ⟨rfl, rfl, rfl⟩

theorem growFront_eq (memory : Memory) {array : ArrayT} {count : ℕ} (inside : array.Inside)
    (positive : 0 < count) (small : count < 2 ^ 60) :
    ∃ status grown, array.growFront memory count = .ok (status, grown) ∧
      grown.count = array.count ∧ grown.handles = array.handles ∧ grown.Inside ∧
      (status = 0 ∧ count ≤ grown.first ∨
        status = -1 ∧ grown = array ∧
          memory.calloc (array.allocatedCount + nextupow2 count) sizeofHandle ≠ true) := by
  have bound := inside.small
  have larger : count < nextupow2 count := lt_nextupow2 (by omega)
  have limit : nextupow2 count ≤ 2 * count := nextupow2_le (by omega) (by omega)
  have total : sizeAdd array.allocatedCount (nextupow2 count) =
      array.allocatedCount + nextupow2 count := sizeAdd_eq (by omega)
  simp only [growFront, total]
  by_cases storage :
      memory.calloc (array.allocatedCount + nextupow2 count) sizeofHandle = true
  · simp only [storage, if_true, if_pos (show nextupow2 count + array.allocatedCount ≤
      array.allocatedCount + nextupow2 count by omega)]
    refine ⟨_, _, rfl, rfl, ?_, ⟨?_, memory.calloc_fits _ _ storage⟩, Or.inl ⟨rfl, ?_⟩⟩
    · apply handles_congr
      · rfl
      · intro i below
        have window := inside.1
        simp only
        rw [if_pos (by omega)]
        congr 1
        omega
    · have window := inside.1
      simp only
      omega
    · simp only
      omega
  · rw [if_neg storage]
    exact ⟨_, _, rfl, rfl, rfl, inside, Or.inr ⟨rfl, rfl, storage⟩⟩

/-- Where `array_unshift` puts the new items: in front of the window, if they fit at all. -/
theorem unshiftStart_eq (memory : Memory) {array : ArrayT} {count : ℕ} (inside : array.Inside)
    (positive : 0 < count) (small : count < 2 ^ 60) :
    ∃ start grown, ArrayScalars.unshiftStart memory array count = .ok (start, grown) ∧
      grown.count = array.count ∧ grown.handles = array.handles ∧ grown.Inside ∧
      (start + count ≤ grown.allocatedCount → array.count = 0 ∨ start + count = grown.first) ∧
      (array.ReservesFront memory count → start + count ≤ grown.allocatedCount) := by
  simp only [ArrayScalars.unshiftStart, ReservesFront]
  by_cases empty : array.count = 0
  · rcases reserve_eq memory inside (show count < 2 ^ 62 by omega)
      with ⟨status, grown, reserved, first, same, window, grownInside, result⟩
    simp only [empty, if_true, reserved, Outcome.ok_bind]
    refine ⟨_, _, rfl, same.trans empty, window, grownInside, fun _ => Or.inl trivial, ?_⟩
    intro reserves
    rcases result with ⟨_, room⟩ | ⟨_, _, failed⟩
    · omega
    · exact absurd reserves failed
  · simp only [empty, if_false, false_or]
    by_cases close : array.first ≤ count
    · rcases growFront_eq memory inside positive small
        with ⟨status, grown, grew, same, window, grownInside, result⟩
      simp only [close, if_true, grew, Outcome.ok_bind, true_implies]
      have bound := grownInside.small
      have fits := grownInside.1
      refine ⟨_, _, rfl, same, window, grownInside, ?_, ?_⟩
      · intro room
        rcases Nat.lt_or_ge grown.first count with less | enough
        · unfold sizeSub at room
          omega
        · rw [sizeSub_eq enough (by omega)]
          omega
      · intro reserves
        rcases result with ⟨_, enough⟩ | ⟨_, _, failed⟩
        · rw [sizeSub_eq enough (by omega)]
          omega
        · exact absurd reserves failed
    · simp only [close, if_false]
      have bound := inside.small
      have fits := inside.1
      have start := sizeSub_eq (show count ≤ array.first by omega) (by omega)
      refine ⟨_, _, rfl, rfl, rfl, inside, ?_, ?_⟩
      · intro _
        omega
      · intro _
        omega

/-- Consecutive handles from `s` on written into the items from `index` on. -/
def placed (array : ArrayT) (index s count : ℕ) : ArrayT :=
  { array with
    items := fun i => if index ≤ i ∧ i < index + count then s + (i - index) else array.items i }

theorem placed_back (array : ArrayT) (s count : ℕ) :
    { array.placed (array.first + array.count) s count with
      count := array.count + count }.handles = array.handles ++ List.range' s count := by
  apply List.ext_getElem
  · simp
  · intro i below _
    simp only [length_handles] at below
    by_cases old : i < array.count
    · rw [List.getElem_append_left (by simpa using old)]
      simp only [handles, placed, List.getElem_map, List.getElem_range']
      rw [if_neg (by omega)]
    · rw [List.getElem_append_right (by simpa using old)]
      simp only [handles, placed, List.getElem_map, List.getElem_range', List.length_map,
        List.length_range']
      rw [if_pos (by omega)]
      omega

theorem placed_front (array : ArrayT) (start s count : ℕ)
    (before : array.count = 0 ∨ start + count = array.first) :
    { array.placed start s count with
      first := start, count := array.count + count }.handles =
        List.range' s count ++ array.handles := by
  apply List.ext_getElem
  · simp [Nat.add_comm]
  · intro i below _
    simp only [length_handles] at below
    by_cases new : i < count
    · rw [List.getElem_append_left (by simpa using new)]
      simp only [handles, placed, List.getElem_map, List.getElem_range']
      rw [if_pos (by omega)]
      omega
    · rw [List.getElem_append_right (by simpa using new)]
      simp only [handles, placed, List.getElem_map, List.getElem_range', List.length_range']
      rw [if_neg (by omega)]
      congr 1
      omega

theorem setItem_of {array : ArrayT} {index handle : ℕ} (inside : index < array.allocatedCount) :
    array.setItem index handle = .ok (array.placed index handle 1) := by
  simp only [setItem, inside, if_true, placed, Except.ok.injEq, ArrayT.mk.injEq, true_and]
  funext i
  by_cases here : i = index
  · simp [here]
  · rw [Function.update_of_ne here, if_neg (by omega)]

theorem item_of {array : ArrayT} {index : ℕ} (inside : index < array.allocatedCount) :
    array.item index = .ok (array.items index) :=
  if_pos inside

theorem getElem?_handles {array : ArrayT} {position : ℕ} (inside : position < array.count) :
    array.handles[position]? = some (array.items (array.first + position)) := by
  simp [handles, inside]

theorem handles_concat {array : ArrayT} (nonempty : 0 < array.count) :
    array.handles = { array with count := array.count - 1 }.handles ++
      [array.items (array.first + (array.count - 1))] := by
  rcases array with ⟨allocatedCount, count, first, items⟩
  cases count with
  | zero => exact absurd nonempty (Nat.lt_irrefl 0)
  | succ count => simp [handles, List.range'_concat]

theorem handles_cons {array : ArrayT} (nonempty : 0 < array.count) :
    array.handles = array.items array.first ::
      { array with count := array.count - 1, first := array.first + 1 }.handles := by
  rcases array with ⟨allocatedCount, count, first, items⟩
  cases count with
  | zero => exact absurd nonempty (Nat.lt_irrefl 0)
  | succ count => simp [handles, List.range'_succ]

end ArrayT

namespace ScalarStore

variable {α : Type}

/-- The values stored in new scalars from `s` on, with one reference each. -/
def filled (store : ScalarStore α) (s : ℕ) (values : List α) : ScalarStore α where
  scalars handle :=
    if s ≤ handle then
      match values[handle - s]? with
      | some value => some ⟨1, value⟩
      | none => store.scalars handle
    else store.scalars handle

theorem filled_of_lt {store : ScalarStore α} {s handle : ℕ} {values : List α}
    (outside : handle < s ∨ s + values.length ≤ handle) :
    (store.filled s values).scalars handle = store.scalars handle := by
  simp only [filled]
  by_cases above : s ≤ handle
  · have beyond : values.length ≤ handle - s := by omega
    rw [if_pos above, List.getElem?_eq_none beyond]
  · rw [if_neg above]

theorem filled_of_mem (store : ScalarStore α) (s : ℕ) {i : ℕ} {values : List α}
    (inside : i < values.length) :
    (store.filled s values).scalars (s + i) = some ⟨1, values[i]⟩ := by
  simp only [filled, Nat.le_add_right, if_true, Nat.add_sub_cancel_left,
    List.getElem?_eq_getElem inside]

@[simp]
theorem filled_nil (store : ScalarStore α) (s : ℕ) : store.filled s [] = store := by
  simp [filled]

/-- A scalar in use is not among the fresh ones. -/
theorem Fresh.outside {store : ScalarStore α} {s count handle : ℕ} (fresh : store.Fresh s count)
    (used : store.scalars handle ≠ none) : handle < s ∨ s + count ≤ handle := by
  by_contra among
  exact used (fresh handle (by omega) (by omega))

theorem reference_eq {store : ScalarStore α} {handle : ℕ} {scalar : PooledScalar α}
    (used : store.scalars handle = some scalar) :
    store.reference handle = .ok (handle,
      store.set handle (some { scalar with references := scalar.references + 1 })) := by
  simp only [reference, used]

theorem release_eq {store : ScalarStore α} {handle : ℕ} {scalar : PooledScalar α}
    (used : store.scalars handle = some scalar) :
    store.release handle = .ok (store.set handle
      (if scalar.references = 1 then none
        else some { scalar with references := scalar.references - 1 })) := by
  by_cases last : scalar.references = 1
  · simp [release, used, last]
  · simp [release, used, last]

end ScalarStore

namespace ArrayScalars

variable {α : Type} [ScalarValue α] {memory : Memory}

/-- The loop cannot fill items outside the buffer. -/
theorem fillItems_inside {state result : ArrayScalars α} {index s : ℕ} {values : List α}
    (success : fillItems memory state index s values = .ok result) :
    values = [] ∨ index + values.length ≤ state.array.allocatedCount := by
  induction values generalizing state index s with
  | nil => exact Or.inl rfl
  | cons value values ih =>
      simp only [fillItems, Outcome.bind_eq_ok] at success
      rcases success with ⟨store, _, array, written, rest⟩
      by_cases inside : index < state.array.allocatedCount
      · simp only [ArrayT.setItem_of inside, Except.ok.injEq] at written
        subst written
        rcases ih rest with empty | fits
        · simp [empty]
          omega
        · simp only [ArrayT.placed] at fits
          simp only [List.length_cons]
          omega
      · simp [ArrayT.setItem, inside] at written

theorem pop_empty (memory : Memory) (state : ArrayScalars α)
    (empty : state.array.handles = []) : state.pop memory = .ok ((-1, none), state) := by
  have count : state.array.count = 0 := by
    rw [← ArrayT.length_handles, empty, List.length_nil]
  simp [pop, count]

theorem shift_empty (memory : Memory) (state : ArrayScalars α)
    (empty : state.array.handles = []) : state.shift memory = .ok ((-1, none), state) := by
  have count : state.array.count = 0 := by
    rw [← ArrayT.length_handles, empty, List.length_nil]
  simp [shift, count]

/-- `array_pop` takes the last handle out of the window and gives up its reference. -/
theorem pop_eq (memory : Memory) (state : ArrayScalars α) {rest : List ℕ} {last : ℕ}
    {scalar : PooledScalar α}
    (inside : state.array.Inside) (window : state.array.handles = rest ++ [last])
    (used : state.store.scalars last = some scalar) :
    ∃ array store, state.pop memory = (do
        let value ← ScalarValue.clone memory scalar.value
        .ok ((0, some value), ⟨array, store⟩)) ∧
      array.Inside ∧ array.handles = rest ∧ state.store.release last = .ok store := by
  have count : 0 < state.array.count := by
    rw [← ArrayT.length_handles, window]
    simp
  have fits := inside.1
  have split := (ArrayT.handles_concat count).symm.trans window
  rcases List.append_inj' split rfl with ⟨before, same⟩
  simp only [List.cons.injEq, and_true] at same
  simp only [pop, count, if_true]
  rw [ArrayT.item_of (by simp only; omega)]
  simp only [same, Outcome.ok_bind, ScalarStore.getValue_eq memory used,
    ScalarStore.release_eq used]
  refine ⟨_, _, rfl, ⟨?_, inside.2⟩, before, rfl⟩
  simp only
  omega

/-- `array_shift` takes the first handle out of the window and gives up its reference. -/
theorem shift_eq (memory : Memory) (state : ArrayScalars α) {rest : List ℕ} {first : ℕ}
    {scalar : PooledScalar α}
    (inside : state.array.Inside) (window : state.array.handles = first :: rest)
    (used : state.store.scalars first = some scalar) :
    ∃ array store, state.shift memory = (do
        let value ← ScalarValue.clone memory scalar.value
        .ok ((0, some value), ⟨array, store⟩)) ∧
      array.Inside ∧ array.handles = rest ∧ state.store.release first = .ok store := by
  have count : 0 < state.array.count := by
    rw [← ArrayT.length_handles, window]
    simp
  have fits := inside.1
  have split := (ArrayT.handles_cons count).symm.trans window
  rw [List.cons.injEq] at split
  rcases split with ⟨same, before⟩
  simp only [shift, count, if_true]
  rw [ArrayT.item_of (by simp only; omega)]
  simp only [same, Outcome.ok_bind, ScalarStore.getValue_eq memory used,
    ScalarStore.release_eq used]
  refine ⟨_, _, rfl, ⟨?_, inside.2⟩, before, rfl⟩
  simp only
  omega

/-- The loop of `array_list` reads the values of the scalars in the window. -/
theorem listItems_eq {state : ArrayScalars α} {index rounds : ℕ} {values : List α}
    (inside : index + rounds ≤ state.array.allocatedCount)
    (holds : ((List.range' index rounds).map state.array.items).map
      (fun s => (state.store.scalars s).map PooledScalar.value) = values.map some)
    (stored : ∀ value ∈ values, Stored memory value) :
    state.listItems memory index rounds = .ok values := by
  induction rounds generalizing index values with
  | zero =>
      cases values with
      | nil => rfl
      | cons value values => simp at holds
  | succ rounds ih =>
      cases values with
      | nil => simp [List.range'_succ] at holds
      | cons value values =>
          simp only [List.range'_succ, List.map_cons, List.cons.injEq] at holds
          rcases holds with ⟨first, rest⟩
          rcases Option.map_eq_some_iff.mp first with ⟨scalar, used, rfl⟩
          simp only [listItems]
          rw [ArrayT.item_of (by omega)]
          have copied : ScalarValue.clone memory scalar.value = .ok scalar.value :=
            stored scalar.value List.mem_cons_self
          simp only [Outcome.ok_bind, ScalarStore.getValue_eq memory used, copied]
          rw [ih (by omega) rest fun value mem => stored value (List.mem_cons_of_mem _ mem)]
          rfl

/-- `array_list` passes the values back, unless there is no storage for them. -/
theorem list_eq (memory : Memory) (state : ArrayScalars α) {values : List α}
    (inside : state.array.Inside) (holds : state.array.handles.map
      (fun s => (state.store.scalars s).map PooledScalar.value) = values.map some)
    (stored : ∀ value ∈ values, Stored memory value) :
    state.list memory =
      if 0 < values.length → memory.calloc values.length sizeofScalar = true then .ok (0, values)
      else .ok (-1, []) := by
  have counts : state.array.count = values.length := by
    have lengths := congrArg List.length holds
    simpa using lengths
  simp only [list, counts]
  by_cases nonempty : 0 < values.length
  · simp only [nonempty, if_true, true_implies]
    have listed := listItems_eq inside.1 holds stored
    rw [counts] at listed
    rw [listed]
    rfl
  · have empty : values = [] := List.eq_nil_of_length_eq_zero (by omega)
    simp [empty]

/-- Each value is copied, to itself unless there is no storage. -/
def Copied (memory : Memory) : List α → List α → Prop :=
  List.Forall₂ fun value copy => ScalarValue.clone memory value = .ok copy

theorem copied_self {values : List α} :
    Copied memory values values ↔ ∀ value ∈ values, Stored memory value :=
  List.forall₂_same

theorem copied_unique {values copies : List α} (stored : Copied memory values values)
    (copied : Copied memory values copies) : copies = values := by
  induction copied with
  | nil => rfl
  | @cons value copy values copies made copied ih =>
      rcases List.forall₂_cons.mp stored with ⟨first, rest⟩
      cases first.symm.trans made
      rw [ih rest]

/-- What the loop of `array_list` reads are copies of the values. -/
theorem listItems_copied {state : ArrayScalars α} {index rounds : ℕ} {values listed : List α}
    (inside : index + rounds ≤ state.array.allocatedCount)
    (holds : ((List.range' index rounds).map state.array.items).map
      (fun s => (state.store.scalars s).map PooledScalar.value) = values.map some)
    (success : state.listItems memory index rounds = .ok listed) :
    Copied memory values listed := by
  induction rounds generalizing index values listed with
  | zero =>
      cases success
      cases values with
      | nil => exact List.Forall₂.nil
      | cons value values => simp at holds
  | succ rounds ih =>
      cases values with
      | nil => simp [List.range'_succ] at holds
      | cons value values =>
          simp only [List.range'_succ, List.map_cons, List.cons.injEq] at holds
          rcases holds with ⟨first, rest⟩
          rcases Option.map_eq_some_iff.mp first with ⟨scalar, used, rfl⟩
          simp only [listItems] at success
          rw [ArrayT.item_of (by omega)] at success
          simp only [Outcome.ok_bind, ScalarStore.getValue_eq memory used] at success
          rcases Outcome.bind_eq_ok.mp success with ⟨copy, copied, later⟩
          rcases Outcome.bind_eq_ok.mp later with ⟨others, listing, result⟩
          cases result
          exact List.Forall₂.cons copied (ih (by omega) rest listing)

/-- Where there is storage for the list, it has copies of the values. -/
theorem list_copied {state : ArrayScalars α} {values listed : List α} {status : ℤ}
    (inside : state.array.Inside) (holds : state.array.handles.map
      (fun s => (state.store.scalars s).map PooledScalar.value) = values.map some)
    (granted : 0 < values.length → memory.calloc values.length sizeofScalar = true)
    (success : state.list memory = .ok (status, listed)) : Copied memory values listed := by
  have counts : state.array.count = values.length := by
    have lengths := congrArg List.length holds
    simpa using lengths
  unfold list at success
  split at success
  case isTrue nonempty =>
    rw [counts] at nonempty success
    rw [if_pos (granted nonempty)] at success
    rcases Outcome.bind_eq_ok.mp success with ⟨others, listing, result⟩
    cases result
    rw [← counts] at listing
    exact listItems_copied inside.1 holds listing
  case isFalse empty =>
    cases success
    rw [counts, Nat.not_lt_eq, Nat.le_zero, List.length_eq_zero_iff] at empty
    subst empty
    exact List.Forall₂.nil

theorem Copied.ne_nil {values copies : List α} (copied : Copied memory values copies)
    (some : copies ≠ []) : values ≠ [] := by
  rintro rfl
  cases copied
  exact some rfl

/-- What the loop gives its scalars are copies of the values. -/
theorem fillItems_copied {state result : ArrayScalars α} {index s : ℕ} {values : List α}
    (success : fillItems memory state index s values = .ok result) :
    ∃ copies, Copied memory values copies := by
  induction values generalizing state index s with
  | nil => exact ⟨[], List.Forall₂.nil⟩
  | cons value values ih =>
      simp only [fillItems, Outcome.bind_eq_ok] at success
      rcases success with ⟨store, set, array, _, rest⟩
      rcases ih rest with ⟨copies, copied⟩
      cases used : state.store.scalars s with
      | none => simp [ScalarStore.setValue, used] at set
      | some scalar =>
          simp only [ScalarStore.setValue, used] at set
          rcases Outcome.bind_eq_ok.mp set with ⟨copy, made, _⟩
          exact ⟨copy :: copies, List.Forall₂.cons made copied⟩

/-- The loop that fills new items, inside the buffer and on scalars just allocated. -/
theorem fillItems_eq {array : ArrayT} {store : ScalarStore α} {index s : ℕ}
    {values copies : List α} (copied : Copied memory values copies)
    (inside : index + values.length ≤ array.allocatedCount)
    (allocated : ∀ handle, s ≤ handle → handle < s + values.length →
      store.scalars handle = some ⟨1, default⟩) :
    fillItems memory ⟨array, store⟩ index s values =
      .ok ⟨array.placed index s values.length, store.filled s copies⟩ := by
  induction copied generalizing array store index s with
  | nil =>
      have nowhere : ∀ i, ¬(index ≤ i ∧ i < index) := by
        intro i
        omega
      simp [fillItems, ArrayT.placed, nowhere]
  | @cons value copy values copies made copied ih =>
      simp only [List.length_cons] at inside allocated
      have first := allocated s (Nat.le_refl s) (by omega)
      simp only [fillItems, ScalarStore.setValue, first, made, Outcome.ok_bind,
        ArrayT.setItem_of (show index < array.allocatedCount by omega)]
      rw [ih]
      · congr 2
        · simp only [ArrayT.placed, List.length_cons, ArrayT.mk.injEq, true_and]
          funext i
          by_cases here : i = index
          · subst here
            rw [if_neg (by omega), if_pos (by omega), if_pos (by omega)]
          · by_cases later : index + 1 ≤ i ∧ i < index + 1 + values.length
            · rw [if_pos later, if_pos (by omega)]
              omega
            · rw [if_neg later, if_neg (by omega), if_neg (by omega)]
        · simp only [ScalarStore.filled, ScalarStore.mk.injEq]
          funext handle
          rcases Nat.lt_trichotomy handle s with below | same | above
          · rw [if_neg (by omega), if_neg (by omega), ScalarStore.scalars_set,
              if_neg (by omega)]
          · subst same
            simp [ScalarStore.scalars_set]
          · rw [if_pos (by omega), if_pos (by omega),
              show handle - s = handle - (s + 1) + 1 by omega, List.getElem?_cons_succ,
              ScalarStore.scalars_set, if_neg (by omega)]
      · simp only [ArrayT.placed]
        omega
      · intro handle lower upper
        rw [ScalarStore.scalars_set, if_neg (by omega)]
        exact allocated handle (by omega) (by omega)

/-- Allocating scalars and filling new items with them. -/
theorem fillItems_allocateMany {array : ArrayT} {store : ScalarStore α} {index s : ℕ}
    {values copies : List α} (copied : Copied memory values copies)
    (inside : index + values.length ≤ array.allocatedCount) (nonzero : s ≠ 0) :
    fillItems memory ⟨array, store.allocateMany s values.length⟩ index s values =
      .ok ⟨array.placed index s values.length, store.filled s copies⟩ := by
  have same := copied.length_eq
  rw [fillItems_eq copied inside]
  · congr 2
    simp only [ScalarStore.filled, ScalarStore.mk.injEq]
    funext handle
    by_cases above : s ≤ handle
    · simp only [above, if_true]
      by_cases among : handle - s < copies.length
      · rw [List.getElem?_eq_getElem among]
      · rw [List.getElem?_eq_none (by omega)]
        simp only [ScalarStore.allocateMany]
        rw [if_neg (by omega)]
    · simp only [above, if_false]
      simp only [ScalarStore.allocateMany]
      rw [if_neg (by omega)]
  · intro handle lower upper
    exact if_pos ⟨by omega, lower, upper⟩

/-- `array_push` appends the handles of new scalars, or fails for want of storage. -/
theorem push_eq {s : ℕ} (state : ArrayScalars α) {values copies : List α}
    (copied : Copied memory values copies) (inside : state.array.Inside)
    (object : values.length * sizeofScalar ≤ sizeMax)
    (allocated : values ≠ [] → s ≠ 0) :
    ∃ status after, state.push memory s values = .ok (status, after) ∧ after.array.Inside ∧
      (status = 0 ∧
          after.array.handles = state.array.handles ++ List.range' s values.length ∧
          after.store = state.store.filled s copies ∨
        status = -1 ∧ after = state ∧
          ¬state.array.Reserves memory (state.array.count + values.length)) := by
  have bound := inside.small
  have window := inside.1
  simp only [sizeofScalar, sizeMax] at object
  rcases Nat.eq_zero_or_pos values.length with none | positive
  · rw [List.length_eq_zero_iff] at none
    subst none
    cases copied
    exact ⟨0, state, by simp [push], inside, Or.inl ⟨rfl, by simp, by simp⟩⟩
  · have nonzero : s ≠ 0 := allocated (List.ne_nil_of_length_pos positive)
    rcases ArrayT.reserve_eq memory inside
      (show state.array.count + values.length < 2 ^ 62 by omega)
      with ⟨status, grown, reserved, first, count, same, grownInside, result⟩
    simp only [push, positive, if_true, reserved, Outcome.ok_bind]
    rcases result with ⟨rfl, room⟩ | ⟨rfl, rfl, failed⟩
    · have fits : grown.first + grown.count + values.length ≤ grown.allocatedCount := by omega
      simp only [ne_eq, not_true_eq_false, nonzero, not_false_eq_true, if_true, if_false,
        fillItems_allocateMany copied fits nonzero, Outcome.ok_bind, ← count]
      refine ⟨_, _, rfl, ⟨?_, grownInside.2⟩, Or.inl ⟨rfl, ?_, rfl⟩⟩
      · simp only [ArrayT.placed]
        omega
      · rw [← same]
        exact ArrayT.placed_back _ _ _
    · have nonzeroStatus : (-1 : ℤ) ≠ 0 := by decide
      simp only [ne_eq, nonzeroStatus, not_false_eq_true, if_true]
      exact ⟨_, _, rfl, inside, Or.inr ⟨rfl, rfl, failed⟩⟩

/-- Where the values cannot be copied, `array_push` returns only if it has no storage before. -/
theorem push_uncopied {s : ℕ} {state after : ArrayScalars α} {values : List α} {status : ℤ}
    (uncopied : ¬∃ copies, Copied memory values copies) (inside : state.array.Inside)
    (object : values.length * sizeofScalar ≤ sizeMax) (nonzero : s ≠ 0)
    (success : state.push memory s values = .ok (status, after)) :
    after = state ∧ ¬state.array.Reserves memory (state.array.count + values.length) := by
  have positive : 0 < values.length := by
    apply List.length_pos_iff.mpr
    rintro rfl
    exact uncopied ⟨[], List.Forall₂.nil⟩
  have bound := inside.small
  have window := inside.1
  simp only [sizeofScalar, sizeMax] at object
  rcases ArrayT.reserve_eq memory inside
    (show state.array.count + values.length < 2 ^ 62 by omega)
    with ⟨_, grown, reserved, _, _, _, _, ⟨rfl, _⟩ | ⟨rfl, rfl, unable⟩⟩
  · simp only [push, positive, if_true, reserved, Outcome.ok_bind, ne_eq, not_true_eq_false,
      if_false, nonzero, not_false_eq_true] at success
    rcases Outcome.bind_eq_ok.mp success with ⟨_, filled, _⟩
    exact absurd (fillItems_copied filled) uncopied
  · have failed : (-1 : ℤ) ≠ 0 := by decide
    simp only [push, positive, if_true, reserved, Outcome.ok_bind, failed, ne_eq,
      not_false_eq_true, Except.ok.injEq, Prod.mk.injEq] at success
    exact ⟨success.2.symm, unable⟩

/-- `array_unshift` returns with new scalars only after it has copied the values. -/
theorem unshift_copied {s : ℕ} {state : ArrayScalars α} {values : List α}
    {result : ℤ × ArrayScalars α} (nonzero : values ≠ [] → s ≠ 0)
    (success : state.unshift memory s values = .ok result) :
    ∃ copies, Copied memory values copies := by
  rcases Nat.eq_zero_or_pos values.length with none | positive
  · rw [List.length_eq_zero_iff] at none
    subst none
    exact ⟨[], List.Forall₂.nil⟩
  · simp only [unshift, positive, if_true, nonzero (List.ne_nil_of_length_pos positive), ne_eq,
      not_false_eq_true] at success
    rcases Outcome.bind_eq_ok.mp success with ⟨_, _, later⟩
    rcases Outcome.bind_eq_ok.mp later with ⟨_, filled, _⟩
    exact fillItems_copied filled

/-- `array_unshift` prepends the handles of new scalars, unless storage is wanting. -/
theorem unshift_eq {s : ℕ} (state : ArrayScalars α) {values copies : List α}
    (copied : Copied memory values copies) (inside : state.array.Inside)
    (object : values.length * sizeofScalar ≤ sizeMax) (allocated : values ≠ [] → s ≠ 0) :
    (∃ after, state.unshift memory s values = .ok (0, after) ∧ after.array.Inside ∧
        after.array.handles = List.range' s values.length ++ state.array.handles ∧
        after.store = state.store.filled s copies) ∨
      (∀ result, state.unshift memory s values ≠ .ok result) ∧
        ¬state.array.ReservesFront memory values.length := by
  have bound := inside.small
  simp only [sizeofScalar, sizeMax] at object
  rcases Nat.eq_zero_or_pos values.length with none | positive
  · rw [List.length_eq_zero_iff] at none
    subst none
    cases copied
    exact Or.inl ⟨state, by simp [unshift], inside, by simp, by simp⟩
  · have nonzero : s ≠ 0 := allocated (List.ne_nil_of_length_pos positive)
    rcases ArrayT.unshiftStart_eq memory inside positive
      (show values.length < 2 ^ 60 by omega)
      with ⟨start, grown, started, count, same, grownInside, before, granted⟩
    simp only [unshift, positive, if_true, started, Outcome.ok_bind, ne_eq, nonzero,
      not_false_eq_true]
    by_cases fits : start + values.length ≤ grown.allocatedCount
    · refine Or.inl ?_
      simp only [fillItems_allocateMany copied fits nonzero, Outcome.ok_bind]
      have front : grown.count = 0 ∨ start + values.length = grown.first := by
        rw [count]
        exact before fits
      refine ⟨_, rfl, ⟨?_, grownInside.2⟩, ?_, rfl⟩
      · have grownFits := grownInside.1
        simp only [ArrayT.placed]
        omega
      · rw [← same]
        exact ArrayT.placed_front _ _ _ _ front
    · refine Or.inr ⟨?_, fun reserves => fits (granted reserves)⟩
      intro result success
      simp only [Outcome.bind_eq_ok] at success
      rcases success with ⟨state, filled, _⟩
      rcases fillItems_inside filled with empty | inside
      · exact absurd (List.length_pos_iff.mp positive) (not_not.mpr empty)
      · exact fits inside

end ArrayScalars

namespace ArrayHeap

variable {α β : Type} {heap : ArrayHeap α} {handle : ℕ}

/-- The array is in use and not locked. -/
def Available (heap : ArrayHeap α) (handle : ℕ) : Prop :=
  heap.arrays.HandleValid handle ∧ heap.arrays.HandleInUse handle ∧
    ∀ mutex ∈ (heap.arrays.items handle).mutex, mutex.depth = 0

theorem array_put (other : ℕ) (state : ArrayScalars α) :
    (heap.put handle state).array other =
      if other = handle then state.array else heap.array other := by
  simp only [array, put, Pool.items_update]
  by_cases same : other = handle
  · simp [same]
  · simp [same]

@[simp]
theorem store_put (state : ArrayScalars α) : (heap.put handle state).store = state.store :=
  rfl

theorem available_put (other : ℕ) (state : ArrayScalars α) :
    (heap.put handle state).Available other ↔ heap.Available other := by
  simp only [Available, put, Pool.handleValid_update, Pool.HandleInUse, Pool.items_update]
  by_cases same : other = handle
  · subst same
    simp
  · simp [same]

/-- Putting back what is there changes nothing. -/
theorem put_self : heap.put handle ⟨heap.array handle, heap.store⟩ = heap := by
  rcases heap with ⟨arrays, store⟩
  simp [put, array, Pool.update]

/-- A public function runs its body on the array and puts the result back. -/
theorem onArray_eq (available : heap.Available handle) (failed : β)
    (body : ArrayScalars α → Outcome (β × ArrayScalars α)) :
    heap.onArray handle failed body = (do
      let (result, state) ← body ⟨heap.array handle, heap.store⟩
      .ok (result, heap.put handle state)) := by
  rcases available with ⟨valid, used, unlocked⟩
  have locked := Pool.lock_of_unlocked valid used unlocked
  rcases Pool.lock_cases locked with ⟨_, _, failed | ⟨_, _, undone⟩⟩
  · exact absurd rfl failed.1
  have object : (⟨heap.arrays.update handle Pool.lockItem, heap.store⟩ : ArrayHeap α).array
      handle = heap.array handle := by
    simp [Pool.items_update, Pool.lockItem, array]
  have stillUsed : (heap.arrays.update handle Pool.lockItem).HandleInUse handle := by
    simpa [Pool.HandleInUse, Pool.items_update, Pool.lockItem] using used
  simp only [onArray, Outcome.assertThat_of valid, locked, Outcome.ok_bind, if_true,
    Outcome.assertThat_of stillUsed, object]
  cases body ⟨heap.array handle, heap.store⟩ with
  | error fault => simp
  | ok answer =>
      let locked : ArrayHeap α := ⟨heap.arrays.update handle Pool.lockItem, heap.store⟩
      have stillInUse : (locked.put handle answer.2).arrays.HandleInUse handle := by
        simpa [locked, put, Pool.HandleInUse, Pool.items_update, Pool.lockItem] using used
      have stillValid : (locked.put handle answer.2).arrays.HandleValid handle := valid
      have unlocks := Pool.unlock_of stillValid stillInUse
      simp only [Outcome.ok_bind, locked, unlocks]
      simp [put, Pool.update, Pool.lockItem, undone]

/-- The heap after the first `array_allocate`: one new array, and no scalars. -/
def single (α : Type) : ArrayHeap α where
  arrays :=
    { allocatedCount := 64
      count := 1
      freeCount := 63
      items := fun handle =>
        if handle = 1 then ⟨ArrayT.init, 1, none, stateInUse⟩
        else ⟨⟨0, 0, 0, fun _ => 0⟩, 0, none, if handle < 64 then handle + 1 else 0⟩
      freeListHead := 2 }
  store := ⟨fun _ => none⟩

theorem available_single (α : Type) : (single α).Available 1 := by
  refine ⟨⟨Nat.one_pos, by simp [single]⟩, rfl, ?_⟩
  intro mutex mem
  simp [single] at mem

end ArrayHeap

end Dang
