import Dang.Array.Deque
import Dang.Array.ItemAt

/-!
# Updates of an array for which allocations fail

An update is atomic if it reports every allocation that fails and then leaves the values as
they were, and is complete when it reports none. `array_push` is but for the copies of strings,
which none of them checks. `array_unshift` ignores whether the buffer grew, and `array_fill` gives
up the old values first and checks nothing.
-/

namespace Dang

/-- The calls that put new values into an array. -/
inductive ArrayUpdate (α : Type)
  | push (values : List α)
  | unshift (values : List α)
  | fill (values : List α)

namespace ArrayUpdate

variable {α : Type}

/-- The new values. -/
def values : ArrayUpdate α → List α
  | push values | unshift values | fill values => values

/-- What the update is to make of the values of an array. -/
def result : ArrayUpdate α → List (Option α) → List (Option α)
  | push values, old => old ++ values.map some
  | unshift values, old => values.map some ++ old
  | fill values, _ => values.map some

end ArrayUpdate

namespace ArrayScalars

variable {α : Type}

/-- The values that the scalars in the window hold. -/
def contents (state : ArrayScalars α) : List (Option α) :=
  state.array.handles.map fun s => (state.store.scalars s).map PooledScalar.value

/-- The update of the locked array. -/
def update [ScalarValue α] (memory : Memory) (s : ℕ) (state : ArrayScalars α) :
    ArrayUpdate α → Outcome (ℤ × ArrayScalars α)
  | .push values => state.push memory s values
  | .unshift values => state.unshift memory s values
  | .fill values => state.fill memory s values

/-- The buffer is large enough, or there is storage for a larger one. -/
def Grows (memory : Memory) (state : ArrayScalars α) : ArrayUpdate α → Prop
  | .push values => state.array.Reserves memory (state.array.count + values.length)
  | .unshift values => state.array.ReservesFront memory values.length
  | .fill values => { state.array with first := 0 }.Reserves memory values.length

/-- There is storage to copy each of the values. -/
def Copies [ScalarValue α] (memory : Memory) (update : ArrayUpdate α) : Prop :=
  ∀ value ∈ update.values, Stored memory value

/-- An allocation fails: that of a larger buffer, that of the scalars, or that of a copy. -/
def Fails [ScalarValue α] (memory : Memory) (s : ℕ) (state : ArrayScalars α)
    (update : ArrayUpdate α) : Prop :=
  ¬state.Grows memory update ∨ s = 0 ∨ ¬Copies memory update

/-- The new scalars are not in use where they are allocated beside the old ones. -/
def Allocated (s : ℕ) (state : ArrayScalars α) : ArrayUpdate α → Prop
  | .push values | .unshift values => s ≠ 0 → state.store.Fresh s values.length
  | .fill _ => True

/-- The update copes with what fails. -/
def Copes [ScalarValue α] (memory : Memory) (s : ℕ) (state : ArrayScalars α)
    (update : ArrayUpdate α) : Prop :=
  match update with
  | .push _ => ¬state.Grows memory update ∨ s = 0 ∨ Copies memory update
  | .unshift _ => s = 0 ∨ state.Grows memory update ∧ Copies memory update
  | .fill _ => state.Grows memory update ∧ s ≠ 0 ∧ Copies memory update

end ArrayScalars

namespace ArrayHeap

variable {α : Type}

/-- The values of an array. -/
def contents (heap : ArrayHeap α) (handle : ℕ) : List (Option α) :=
  ArrayScalars.contents ⟨heap.array handle, heap.store⟩

/-- `array_push`, `array_unshift` and `array_fill` -/
def update [ScalarValue α] (memory : Memory) (s : ℕ) (heap : ArrayHeap α) (handle : ℕ) :
    ArrayUpdate α → Outcome (ℤ × ArrayHeap α)
  | .push values => heap.push memory s handle values
  | .unshift values => heap.unshift memory s handle values
  | .fill values => heap.fill memory s handle values

/-- The update returns, writing nothing outside the buffer. If an allocation fails it returns
another number than zero and the values are as before, and if it returns zero it is
complete. -/
def Atomic [ScalarValue α] (memory : Memory) (s : ℕ) (heap : ArrayHeap α) (handle : ℕ)
    (update : ArrayUpdate α) : Prop :=
  ∃ status after, heap.update memory s handle update = .ok (status, after) ∧
    (ArrayScalars.Fails memory s ⟨heap.array handle, heap.store⟩ update →
      status ≠ 0 ∧ after.contents handle = heap.contents handle) ∧
    (status = 0 → after.contents handle = update.result (heap.contents handle))

end ArrayHeap

/-- Without storage for a larger buffer the array is as it was. -/
theorem ArrayT.reserve_failed {memory : Memory} {array : ArrayT} {targetSize : ℕ}
    (inside : array.Inside) (small : targetSize < 2 ^ 62)
    (failed : ¬array.Reserves memory targetSize) :
    array.reserve memory targetSize = .ok (-1, array) := by
  have bound := inside.small
  have window := inside.1
  simp only [Reserves, Classical.not_imp] at failed
  rcases failed with ⟨less, storage⟩
  have effective : sizeSub array.allocatedCount array.first =
      array.allocatedCount - array.first := sizeSub_eq (by omega) (by omega)
  have total : sizeAdd array.allocatedCount
      (targetSize - (array.allocatedCount - array.first)) = array.first + targetSize := by
    rw [sizeAdd_eq (by omega)]
    omega
  simp only [reserve, effective]
  rw [if_pos (by omega), growBack, total]
  simp only [storage, Bool.false_eq_true, if_false]

namespace ArrayScalars

variable {α : Type} {state after : ArrayScalars α} {memory : Memory} {s : ℕ} {values : List α}
  {status : ℤ}

/-- The new scalars hold the new values. -/
theorem contents_new {store : ScalarStore α} :
    (List.range' s values.length).map
      (fun handle => ((store.filled s values).scalars handle).map PooledScalar.value) =
      values.map some := by
  rw [← Function.comp_def, ← List.map_map, ScalarStore.map_range'_filled, List.map_map]
  rfl

/-- The old scalars hold the old values. -/
theorem contents_old {store : ScalarStore α} {handles : List ℕ}
    (fresh : store.Fresh s values.length) (used : ∀ handle ∈ handles, store.scalars handle ≠ none) :
    handles.map (fun handle => ((store.filled s values).scalars handle).map PooledScalar.value) =
      handles.map fun handle => (store.scalars handle).map PooledScalar.value := by
  apply List.map_congr_left
  intro handle mem
  rw [ScalarStore.filled_of_lt (fresh.outside (used handle mem))]

theorem contents_congr (handles : after.array.handles = state.array.handles)
    (store : after.store = state.store) : after.contents = state.contents := by
  rw [contents, contents, handles, store]

/-- Different scalars in use can all be released. -/
theorem exists_releaseItems {array : ArrayT} {store : ScalarStore α} {index rounds : ℕ}
    (inside : index + rounds ≤ array.allocatedCount)
    (distinct : ((List.range' index rounds).map array.items).Nodup)
    (used : ∀ handle ∈ (List.range' index rounds).map array.items,
      store.scalars handle ≠ none) :
    ∃ released, releaseItems array store index rounds = .ok released := by
  induction rounds generalizing index store with
  | zero => exact ⟨store, rfl⟩
  | succ rounds ih =>
      rw [List.range'_succ, List.map_cons, List.nodup_cons] at distinct
      rw [List.range'_succ, List.map_cons] at used
      rcases Option.ne_none_iff_exists'.mp (used _ List.mem_cons_self) with ⟨scalar, carried⟩
      have first := ScalarStore.release_eq carried
      have stillUsed : ∀ handle ∈ (List.range' (index + 1) rounds).map array.items,
          (store.set (array.items index) (if scalar.references = 1 then none
            else some { scalar with references := scalar.references - 1 })).scalars handle ≠
            none := by
        intro handle mem
        have apart : handle ≠ array.items index := by
          rintro rfl
          exact distinct.1 mem
        rw [ScalarStore.scalars_set, if_neg apart]
        exact used handle (List.mem_cons_of_mem _ mem)
      rcases ih (by omega) distinct.2 stillUsed with ⟨released, rest⟩
      refine ⟨released, ?_⟩
      simp only [releaseItems, ArrayT.item_of (show index < array.allocatedCount by omega),
        Outcome.ok_bind, first, rest]

variable [ScalarValue α]

/-- Without a larger buffer `array_push` changes nothing. -/
theorem push_failed (s : ℕ) (inside : state.array.Inside)
    (object : values.length * sizeofScalar ≤ sizeMax) (nonempty : values ≠ [])
    (failed : ¬state.Grows memory (.push values)) :
    state.push memory s values = .ok (-1, state) := by
  have bound := inside.small
  have window := inside.1
  simp only [sizeofScalar, sizeMax] at object
  have positive : 0 < values.length := List.length_pos_iff.mpr nonempty
  have reserved := ArrayT.reserve_failed inside
    (show state.array.count + values.length < 2 ^ 62 by omega) failed
  have nonzeroStatus : (-1 : ℤ) ≠ 0 := by decide
  simp only [push, positive, if_true, reserved, Outcome.ok_bind, ne_eq, nonzeroStatus,
    not_false_eq_true]

/-- Without new scalars `array_push` leaves the values as they are. -/
theorem push_zero (inside : state.array.Inside) (object : values.length * sizeofScalar ≤ sizeMax)
    (nonempty : values ≠ []) :
    ∃ after, state.push memory 0 values = .ok (-1, after) ∧ after.contents = state.contents := by
  have bound := inside.small
  have window := inside.1
  simp only [sizeofScalar, sizeMax] at object
  have positive : 0 < values.length := List.length_pos_iff.mpr nonempty
  rcases ArrayT.reserve_eq memory inside
    (show state.array.count + values.length < 2 ^ 62 by omega)
    with ⟨status, grown, reserved, _, _, same, _, _⟩
  by_cases failed : status ≠ 0
  · refine ⟨{ state with array := grown }, ?_, contents_congr same rfl⟩
    simp only [push, positive, if_true, reserved, Outcome.ok_bind, if_pos failed]
  · refine ⟨{ state with array := grown }, ?_, contents_congr same rfl⟩
    simp only [push, positive, if_true, reserved, Outcome.ok_bind, if_neg failed, ne_eq,
      not_true_eq_false, if_false]

/-- Without new scalars `array_unshift` leaves the values as they are. -/
theorem unshift_zero (inside : state.array.Inside)
    (object : values.length * sizeofScalar ≤ sizeMax) (nonempty : values ≠ []) :
    ∃ after, state.unshift memory 0 values = .ok (-1, after) ∧
      after.contents = state.contents := by
  simp only [sizeofScalar, sizeMax] at object
  have positive : 0 < values.length := List.length_pos_iff.mpr nonempty
  rcases ArrayT.unshiftStart_eq memory inside positive (show values.length < 2 ^ 60 by omega)
    with ⟨start, grown, started, _, same, _, _, _⟩
  refine ⟨{ state with array := grown }, ?_, contents_congr same rfl⟩
  simp only [unshift, positive, if_true, started, Outcome.ok_bind, ne_eq, not_true_eq_false,
    if_false]

/-- `array_fill` never reports a failure. -/
theorem fill_status (success : state.fill memory s values = .ok (status, after)) : status = 0 := by
  simp only [fill, Outcome.bind_eq_ok] at success
  rcases success with ⟨_, _, ⟨_, _⟩, _, _, _, _, _, same⟩
  cases same
  rfl

/-- `array_fill` returns, if nothing fails. -/
theorem exists_fill {copies : List α} (state : ArrayScalars α)
    (copied : Copied memory values copies) (inside : state.array.Inside)
    (distinct : state.array.handles.Nodup)
    (used : ∀ handle ∈ state.array.handles, state.store.scalars handle ≠ none)
    (object : values.length * sizeofScalar ≤ sizeMax) (nonempty : values ≠ [])
    (grows : state.Grows memory (.fill values)) (nonzero : s ≠ 0) :
    ∃ after, state.fill memory s values = .ok (0, after) := by
  have positive : 0 < values.length := List.length_pos_iff.mpr nonempty
  rcases exists_releaseItems inside.1 distinct used with ⟨released, releasing⟩
  have small : values.length < 2 ^ 62 := by
    simp only [sizeofScalar, sizeMax] at object
    omega
  rcases ArrayT.reserve_eq memory inside.cleared small
    with ⟨status, grown, reserved, first, _, _, _, ⟨_, room⟩ | ⟨_, _, failed⟩⟩
  · rw [Nat.zero_add] at room
    have fits : 0 + values.length ≤ grown.allocatedCount := by
      rw [Nat.zero_add]
      exact room
    refine ⟨⟨{ grown.placed 0 s values.length with count := values.length },
      released.filled s copies⟩, ?_⟩
    simp only [fill, releasing, reserved, Outcome.ok_bind, Outcome.assertThat_of positive,
      fillItems_allocateMany copied fits nonzero]
  · exact absurd grows failed

/-- `array_fill` puts the new values in place of the old ones, if nothing fails. -/
theorem fill_contents (inside : state.array.Inside) (distinct : state.array.handles.Nodup)
    (used : ∀ handle ∈ state.array.handles, state.store.scalars handle ≠ none)
    (object : values.length * sizeofScalar ≤ sizeMax) (nonempty : values ≠ [])
    (grows : state.Grows memory (.fill values)) (nonzero : s ≠ 0)
    (stored : Copies memory (.fill values)) :
    ∃ after, state.fill memory s values = .ok (0, after) ∧
      after.contents = values.map some := by
  have copied : Copied memory values values := copied_self.mpr stored
  rcases exists_fill state copied inside distinct used object nonempty grows nonzero with
    ⟨after, filled⟩
  rcases fill_eq_ok inside object nonzero filled with ⟨_, copies, _, made, _, window, store⟩
  cases copied_unique copied made
  refine ⟨after, filled, ?_⟩
  rw [contents, window, store, contents_new]

/-- Nothing is written to scalars that were not allocated. -/
theorem fillItems_zero {array : ArrayT} {store : ScalarStore α} {index : ℕ}
    {filled : ArrayScalars α} (absent : store.scalars 0 = none) (nonempty : values ≠ []) :
    fillItems memory ⟨array, store.allocateMany 0 values.length⟩ index 0 values ≠ .ok filled := by
  intro success
  cases values with
  | nil => exact nonempty rfl
  | cons value values =>
      have still : (store.allocateMany 0 (value :: values).length).scalars 0 = none := by
        simpa [ScalarStore.allocateMany] using absent
      simp only [fillItems, ScalarStore.setValue, still, Outcome.error_bind] at success
      cases success

/-- If `array_fill` returns there were values, and nothing failed. -/
theorem fill_supplied (inside : state.array.Inside)
    (used : ∀ handle ∈ state.array.handles, state.store.scalars handle ≠ none)
    (object : values.length * sizeofScalar ≤ sizeMax) (absent : state.store.scalars 0 = none)
    (success : state.fill memory s values = .ok (status, after)) :
    values ≠ [] ∧ state.Grows memory (.fill values) ∧ s ≠ 0 ∧
      ∃ copies, Copied memory values copies := by
  simp only [fill, Outcome.bind_eq_ok] at success
  rcases success with ⟨released, releasing, ⟨_, grown⟩, reserved, _, asserted, filled, filling, _⟩
  have nonempty : values ≠ [] := List.length_pos_iff.mp (Outcome.assertThat_eq_ok.mp asserted)
  refine ⟨nonempty, ?_, ?_, fillItems_copied filling⟩
  · by_contra failed
    have small : values.length < 2 ^ 62 := by
      simp only [sizeofScalar, sizeMax] at object
      omega
    rw [ArrayT.reserve_failed inside.cleared small failed, Except.ok.injEq,
      Prod.mk.injEq] at reserved
    rcases reserved with ⟨_, rfl⟩
    apply failed
    intro beyond
    rcases fillItems_inside filling with empty | fits
    · exact absurd empty nonempty
    · simp only at beyond fits
      omega
  · rintro rfl
    have outside : (0 : ℕ) ∉ state.array.handles := fun mem => used 0 mem absent
    have still : released.scalars 0 = none := (releaseItems_frame releasing outside).trans absent
    exact fillItems_zero still nonempty filling

/-- An update of the locked array is atomic. -/
def Atomic (memory : Memory) (s : ℕ) (state : ArrayScalars α) (update : ArrayUpdate α) : Prop :=
  ∃ status after, state.update memory s update = .ok (status, after) ∧
    (state.Fails memory s update → status ≠ 0 ∧ after.contents = state.contents) ∧
    (status = 0 → after.contents = update.result state.contents)

/-- `array_push` is atomic exactly if it has no storage for the buffer or the scalars, or has it
for the copies too. -/
theorem push_atomic_iff (inside : state.array.Inside)
    (used : ∀ handle ∈ state.array.handles, state.store.scalars handle ≠ none)
    (object : values.length * sizeofScalar ≤ sizeMax) (nonempty : values ≠ [])
    (fresh : s ≠ 0 → state.store.Fresh s values.length) :
    state.Atomic memory s (.push values) ↔
      ¬state.Grows memory (.push values) ∨ s = 0 ∨ Copies memory (.push values) := by
  have failed : (-1 : ℤ) ≠ 0 := by decide
  rcases Decidable.em (s = 0) with rfl | nonzero
  · rcases push_zero inside object nonempty with ⟨after, pushed, same⟩
    refine ⟨fun _ => Or.inr (Or.inl rfl), fun _ => ?_⟩
    exact ⟨-1, after, pushed, fun _ => ⟨failed, same⟩, fun zero => absurd zero failed⟩
  by_cases grows : state.Grows memory (.push values)
  · constructor
    · rintro ⟨status, after, returned, reports, _⟩
      refine Or.inr (Or.inr ?_)
      by_contra uncopied
      have nonzeroStatus := (reports (Or.inr (Or.inr uncopied))).1
      by_cases copied : ∃ copies, Copied memory values copies
      · rcases copied with ⟨copies, copied⟩
        rcases push_eq state copied inside object (fun _ => nonzero)
          with ⟨other, _, pushed, _, ⟨rfl, _⟩ | ⟨_, _, unable⟩⟩
        · rw [update, pushed] at returned
          cases returned
          exact nonzeroStatus rfl
        · exact unable grows
      · exact (push_uncopied copied inside object nonzero returned).2 grows
    · rintro (unable | zero | stored)
      · exact absurd grows unable
      · exact absurd zero nonzero
      · have copied : Copied memory values values := copied_self.mpr stored
        rcases push_eq state copied inside object (fun _ => nonzero)
          with ⟨status, after, pushed, _, ⟨rfl, window, store⟩ | ⟨_, _, unable⟩⟩
        · refine ⟨0, after, pushed, ?_, ?_⟩
          · rintro (unable | zero | uncopied)
            · exact absurd grows unable
            · exact absurd zero nonzero
            · exact absurd stored uncopied
          · intro _
            rw [contents, window, store, List.map_append, contents_old (fresh nonzero) used,
              contents_new]
            rfl
        · exact absurd grows unable
  · refine ⟨fun _ => Or.inl grows, fun _ => ?_⟩
    have pushed := push_failed s inside object nonempty grows
    exact ⟨-1, state, pushed, fun _ => ⟨failed, rfl⟩, fun zero => absurd zero failed⟩

/-- `array_unshift` is atomic exactly if no scalars are allocated, or the buffer grows and there
is storage for the copies. -/
theorem unshift_atomic_iff (inside : state.array.Inside)
    (used : ∀ handle ∈ state.array.handles, state.store.scalars handle ≠ none)
    (object : values.length * sizeofScalar ≤ sizeMax) (nonempty : values ≠ [])
    (fresh : s ≠ 0 → state.store.Fresh s values.length) :
    state.Atomic memory s (.unshift values) ↔
      s = 0 ∨ state.Grows memory (.unshift values) ∧ Copies memory (.unshift values) := by
  rcases Decidable.em (s = 0) with rfl | nonzero
  · rcases unshift_zero inside object nonempty with ⟨after, unshifted, same⟩
    refine ⟨fun _ => Or.inl rfl, fun _ => ?_⟩
    refine ⟨-1, after, unshifted, fun _ => ⟨by decide, same⟩, ?_⟩
    intro zero
    cases zero
  constructor
  · rintro ⟨status, after, returned, reports, _⟩
    rcases unshift_copied (fun _ => nonzero) returned with ⟨copies, copied⟩
    rcases unshift_eq state copied inside object (fun _ => nonzero)
      with ⟨other, unshifted, _⟩ | ⟨never, _⟩
    · rw [update, unshifted] at returned
      cases returned
      by_contra neither
      apply (reports ?_).1 rfl
      by_cases grows : state.Grows memory (.unshift values)
      · exact Or.inr (Or.inr fun stored => neither (Or.inr ⟨grows, stored⟩))
      · exact Or.inl grows
    · exact absurd returned (never _)
  · rintro (zero | ⟨grows, stored⟩)
    · exact absurd zero nonzero
    · have copied : Copied memory values values := copied_self.mpr stored
      rcases unshift_eq state copied inside object (fun _ => nonzero)
        with ⟨after, unshifted, _, window, store⟩ | ⟨_, failed⟩
      · refine ⟨0, after, unshifted, ?_, ?_⟩
        · rintro (failed | zero | uncopied)
          · exact absurd grows failed
          · exact absurd zero nonzero
          · exact absurd stored uncopied
        · intro _
          rw [contents, window, store, List.map_append, contents_old (fresh nonzero) used,
            contents_new]
          rfl
      · exact absurd grows failed

/-- `array_fill` is atomic exactly if nothing fails. -/
theorem fill_atomic_iff (inside : state.array.Inside) (distinct : state.array.handles.Nodup)
    (used : ∀ handle ∈ state.array.handles, state.store.scalars handle ≠ none)
    (object : values.length * sizeofScalar ≤ sizeMax) (nonempty : values ≠ []) :
    state.Atomic memory s (.fill values) ↔
      state.Grows memory (.fill values) ∧ s ≠ 0 ∧ Copies memory (.fill values) := by
  constructor
  · rintro ⟨status, after, returned, reports, _⟩
    have zero := fill_status returned
    by_contra fails
    apply (reports ?_).1 zero
    by_cases grows : state.Grows memory (.fill values)
    · rcases Decidable.em (s = 0) with none | nonzero
      · exact Or.inr (Or.inl none)
      · exact Or.inr (Or.inr fun stored => fails ⟨grows, nonzero, stored⟩)
    · exact Or.inl grows
  · rintro ⟨grows, nonzero, stored⟩
    rcases fill_contents inside distinct used object nonempty grows nonzero stored
      with ⟨after, filled, replaced⟩
    refine ⟨0, after, filled, ?_, fun _ => replaced⟩
    rintro (failed | zero | uncopied)
    · exact absurd grows failed
    · exact absurd zero nonzero
    · exact absurd stored uncopied

end ArrayScalars

namespace ArrayHeap

variable {α : Type} {heap after : ArrayHeap α} {handle : ℕ}

theorem contents_put (state : ArrayScalars α) :
    (heap.put handle state).contents handle = state.contents := by
  rw [contents, array_put, if_pos rfl, store_put]

variable [ScalarValue α]

/-- An update runs on the array and puts the result back. -/
theorem update_eq (available : heap.Available handle) (memory : Memory) (s : ℕ)
    (update : ArrayUpdate α) :
    heap.update memory s handle update = (do
      let (status, state) ← ArrayScalars.update memory s ⟨heap.array handle, heap.store⟩ update
      .ok (status, heap.put handle state)) := by
  cases update with
  | push values =>
      rw [ArrayHeap.update, push, onArray_eq available]
      rfl
  | unshift values =>
      rw [ArrayHeap.update, unshift, onArray_eq available]
      rfl
  | fill values =>
      rw [ArrayHeap.update, fill, onArray_eq available]
      rfl

/-- An update of an array is atomic if it is so on the locked array. -/
theorem atomic_iff_locked (available : heap.Available handle) {memory : Memory} {s : ℕ}
    {update : ArrayUpdate α} :
    heap.Atomic memory s handle update ↔
      ArrayScalars.Atomic memory s ⟨heap.array handle, heap.store⟩ update := by
  simp only [Atomic, ArrayScalars.Atomic, update_eq available]
  constructor
  · rintro ⟨status, after, updated, reports, complete⟩
    simp only [Outcome.bind_eq_ok, Except.ok.injEq, Prod.mk.injEq] at updated
    rcases updated with ⟨⟨answer, state⟩, done, rfl, rfl⟩
    rw [contents_put] at reports complete
    exact ⟨answer, state, done, reports, complete⟩
  · rintro ⟨status, state, done, reports, complete⟩
    refine ⟨status, heap.put handle state, ?_, ?_⟩
    · simp only [done, Outcome.ok_bind]
    · rw [contents_put]
      exact ⟨reports, complete⟩

/-- An update is atomic exactly if it copes with what fails: `array_push` if the buffer does not
grow, or no scalars are allocated, or the values are copied; `array_unshift` if no scalars are
allocated, or the buffer grows and the values are copied; and `array_fill` if nothing fails. -/
theorem atomic_iff_copes {memory : Memory} {s : ℕ} {update : ArrayUpdate α} (sound : heap.Sound)
    (inUse : heap.InUse handle) (nonempty : update.values ≠ [])
    (object : update.values.length * sizeofScalar ≤ sizeMax)
    (allocated : ArrayScalars.Allocated s ⟨heap.array handle, heap.store⟩ update) :
    heap.Atomic memory s handle update ↔
      ArrayScalars.Copes memory s ⟨heap.array handle, heap.store⟩ update := by
  have inside := sound.inside inUse
  have used := sound.used inUse
  rw [atomic_iff_locked (sound.available inUse)]
  cases update with
  | push values =>
      exact ArrayScalars.push_atomic_iff inside used object nonempty allocated
  | unshift values =>
      exact ArrayScalars.unshift_atomic_iff inside used object nonempty allocated
  | fill values =>
      exact ArrayScalars.fill_atomic_iff inside (sound.distinct inUse) used object nonempty

theorem atomic_iff_copes_pair : pair.Atomic .exhausted 0 1 (.unshift [.string (ascii "a")]) ∧
    pair.Atomic .ample 3 1 (.fill [.string (ascii "a")]) := by
  have one_inside : (single Value).IndexInside ⟨.push 1 [.int 5, .int 7], .ample, 1⟩ := trivial
  have sound : pair.Sound := (new_single Value).sound.step one_inside step_pair
  have inUse : pair.InUse 1 := ⟨by decide, rfl⟩
  constructor
  · refine (atomic_iff_copes sound inUse (by decide) (by decide) ?_).mpr (Or.inl rfl)
    intro nonzero
    exact absurd rfl nonzero
  · have copies : ArrayScalars.Copies .ample (.fill [Value.string (ascii "a")]) := by
      change ∀ value ∈ [Value.string (ascii "a")], Stored .ample value
      decide
    refine (atomic_iff_copes sound inUse (by decide) (by decide) ?_).mpr ⟨?_, by decide, copies⟩
    · trivial
    · intro beyond
      exact absurd beyond (by decide)

/-- What a scalar holds, where a string that is a null pointer is told apart. -/
inductive HeldValue
  | known (value : Value)
  | nullString
  deriving DecidableEq, Repr

instance : ScalarValue HeldValue where
  default := .known .undefined
  clone memory
    | .known (.string bytes) => do
        match ← StringT.alloc memory bytes.length (some bytes) with
        | none => .ok .nullString
        | some copy => .ok (.known (.string copy.contents))
    | .known other => .ok (.known other)
    | .nullString => .error .nullPointer

/-- Without storage for a larger buffer `array_unshift` writes in front of it, and without new
scalars `array_fill` asserts, after it has given up the old ones. Without storage for the copy of
a string `array_push` returns zero all the same. -/
theorem not_atomic_pair :
    (Step (single Value) ⟨.push 1 [.int 5, .int 7], .ample, 1⟩ pair ∧ pair.InUse 1 ∧
      pair.update .exhausted 3 1 (.unshift [.int 9]) = .error .invalidAccess ∧
      pair.update .ample 0 1 (.fill [.int 9]) = .error .assertion ∧
      ¬pair.Atomic .exhausted 3 1 (.unshift [.int 9]) ∧
      ¬pair.Atomic .ample 0 1 (.fill [.int 9])) ∧
    (single HeldValue).New ∧ (single HeldValue).InUse 1 ∧
      (∃ after, (single HeldValue).update .exhausted 1 1 (.push [.known (.string (ascii "a"))]) =
        .ok (0, after) ∧ after.contents 1 = [some .nullString]) ∧
      ¬(single HeldValue).Atomic .exhausted 1 1 (.push [.known (.string (ascii "a"))]) := by
  have outside : pair.update .exhausted 3 1 (.unshift [.int 9]) = .error .invalidAccess := by rfl
  have asserts : pair.update .ample 0 1 (.fill [.int 9]) = .error .assertion := by rfl
  have pushed : ∃ after, (single HeldValue).update .exhausted 1 1
      (.push [.known (.string (ascii "a"))]) = .ok (0, after) ∧
        after.contents 1 = [some .nullString] := ⟨_, rfl, rfl⟩
  refine ⟨⟨step_pair, ⟨by decide, rfl⟩, outside, asserts, ?_, ?_⟩, new_single _,
    ⟨by decide, rfl⟩, pushed, ?_⟩
  · rintro ⟨_, _, returned, _⟩
    rw [outside] at returned
    cases returned
  · rintro ⟨_, _, returned, _⟩
    rw [asserts] at returned
    cases returned
  · rintro ⟨_, _, returned, reports, _⟩
    rcases pushed with ⟨after, done, _⟩
    rw [done] at returned
    cases returned
    refine (reports (Or.inr (Or.inr ?_))).1 rfl
    intro copies
    cases copies _ List.mem_cons_self

end ArrayHeap

end Dang
