import Dang.Array.Window

/-!
# Several arrays

What holds of all the arrays in use between calls: their windows lie inside their
buffers and name scalars in use, and no scalar is in two places.
-/

namespace Dang

namespace ArrayHeap

variable {α : Type} {heap : ArrayHeap α} {handle : ℕ}

/-- The array is in use. -/
def InUse (heap : ArrayHeap α) (handle : ℕ) : Prop :=
  heap.arrays.HandleValid handle ∧ heap.arrays.HandleInUse handle

theorem inUse_put {other : ℕ} {state : ArrayScalars α} :
    (heap.put handle state).InUse other ↔ heap.InUse other := by
  simp only [InUse, put, Pool.handleValid_update, Pool.HandleInUse, Pool.items_update]
  by_cases same : other = handle
  · subst same
    simp
  · simp [same]

/-- The invariant of the arrays in use. -/
structure Sound (heap : ArrayHeap α) : Prop where
  available : ∀ {handle}, heap.InUse handle → heap.Available handle
  inside : ∀ {handle}, heap.InUse handle → (heap.array handle).Inside
  distinct : ∀ {handle}, heap.InUse handle → (heap.array handle).handles.Nodup
  disjoint : ∀ {handle other}, heap.InUse handle → heap.InUse other → handle ≠ other →
    ∀ s ∈ (heap.array handle).handles, s ∉ (heap.array other).handles
  used : ∀ {handle}, heap.InUse handle →
    ∀ s ∈ (heap.array handle).handles, heap.store.scalars s ≠ none

/-- An operation on one array keeps the invariant when the handles in the window it leaves
were there or are new, and when it takes no scalar from another array. -/
theorem Sound.put (sound : heap.Sound) (inUse : heap.InUse handle) {state : ArrayScalars α}
    (inside : state.array.Inside) (distinct : state.array.handles.Nodup)
    (used : ∀ s ∈ state.array.handles, state.store.scalars s ≠ none)
    (origin : ∀ s ∈ state.array.handles,
      s ∈ (heap.array handle).handles ∨ heap.store.scalars s = none)
    (frame : ∀ s, s ∉ (heap.array handle).handles → heap.store.scalars s ≠ none →
      state.store.scalars s ≠ none) :
    (heap.put handle state).Sound where
  available otherInUse :=
    (available_put _ _).mpr (sound.available (inUse_put.mp otherInUse))
  inside {other} otherInUse := by
    rw [array_put]
    by_cases same : other = handle
    · rw [if_pos same]
      exact inside
    · rw [if_neg same]
      exact sound.inside (inUse_put.mp otherInUse)
  distinct {other} otherInUse := by
    rw [array_put]
    by_cases same : other = handle
    · rw [if_pos same]
      exact distinct
    · rw [if_neg same]
      exact sound.distinct (inUse_put.mp otherInUse)
  disjoint {first second} firstInUse secondInUse apart s mem other := by
    rw [inUse_put] at firstInUse secondInUse
    rw [array_put] at mem other
    by_cases isFirst : first = handle
    · subst isFirst
      rw [if_pos rfl] at mem
      rw [if_neg (Ne.symm apart)] at other
      rcases origin s mem with old | new
      · exact sound.disjoint firstInUse secondInUse apart s old other
      · exact sound.used secondInUse s other new
    · rw [if_neg isFirst] at mem
      by_cases isSecond : second = handle
      · subst isSecond
        rw [if_pos rfl] at other
        rcases origin s other with old | new
        · exact sound.disjoint firstInUse secondInUse apart s mem old
        · exact sound.used firstInUse s mem new
      · rw [if_neg isSecond] at other
        exact sound.disjoint firstInUse secondInUse apart s mem other
  used {other} otherInUse s mem := by
    rw [inUse_put] at otherInUse
    rw [array_put] at mem
    by_cases same : other = handle
    · rw [if_pos same] at mem
      exact used s mem
    · rw [if_neg same] at mem
      apply frame s
      · intro own
        exact sound.disjoint otherInUse inUse same s mem own
      · exact sound.used otherInUse s mem

/-- Counting another reference keeps the invariant. -/
theorem Sound.reference (sound : heap.Sound) {s result : ℕ} {store : ScalarStore α}
    (success : heap.store.reference s = .ok (result, store)) :
    (⟨heap.arrays, store⟩ : ArrayHeap α).Sound where
  available := sound.available
  inside := sound.inside
  distinct := sound.distinct
  disjoint := sound.disjoint
  used {other} otherInUse handle mem := by
    have before := sound.used otherInUse handle mem
    cases found : heap.store.scalars s with
    | none => simp [ScalarStore.reference, found] at success
    | some scalar =>
        simp only [ScalarStore.reference, found, Except.ok.injEq, Prod.mk.injEq] at success
        rcases success with ⟨_, rfl⟩
        rw [ScalarStore.scalars_set]
        by_cases same : handle = s
        · simp [same]
        · rw [if_neg same]
          exact before

end ArrayHeap

namespace ScalarStore

variable {α : Type} {store : ScalarStore α}

theorem filled_ne_none {s handle : ℕ} {values : List α} (used : store.scalars handle ≠ none) :
    (store.filled s values).scalars handle ≠ none := by
  simp only [filled]
  by_cases above : s ≤ handle
  · rw [if_pos above]
    cases values[handle - s]? with
    | none => exact used
    | some value => exact Option.some_ne_none _
  · rw [if_neg above]
    exact used

theorem filled_of_range' {s handle : ℕ} {values : List α}
    (mem : handle ∈ List.range' s values.length) :
    (store.filled s values).scalars handle ≠ none := by
  rcases List.mem_range'_1.mp mem with ⟨lower, upper⟩
  have filled := filled_of_mem store s (show handle - s < values.length by omega)
  rw [show s + (handle - s) = handle by omega] at filled
  rw [filled]
  exact Option.some_ne_none _

theorem release_frame {after : ScalarStore α} {released other : ℕ}
    (success : store.release released = .ok after) (apart : other ≠ released) :
    after.scalars other = store.scalars other := by
  cases used : store.scalars released with
  | none => simp [release, used] at success
  | some scalar =>
      rw [release_eq used, Except.ok.injEq] at success
      subst success
      rw [scalars_set, if_neg apart]

end ScalarStore

namespace ArrayScalars

variable {α : Type}

/-- Releasing the scalars in the window leaves the others. -/
theorem releaseItems_frame {array : ArrayT} {store after : ScalarStore α} {index rounds : ℕ}
    (success : releaseItems array store index rounds = .ok after) {other : ℕ}
    (outside : other ∉ (List.range' index rounds).map array.items) :
    after.scalars other = store.scalars other := by
  induction rounds generalizing index store with
  | zero =>
      simp only [releaseItems, Except.ok.injEq] at success
      rw [success]
  | succ rounds ih =>
      simp only [releaseItems, Outcome.bind_eq_ok] at success
      rcases success with ⟨handle, read, next, released, rest⟩
      simp only [List.range'_succ, List.map_cons, List.mem_cons, not_or] at outside
      by_cases inside : index < array.allocatedCount
      · rw [ArrayT.item_of inside, Except.ok.injEq] at read
        rw [ih rest outside.2]
        exact ScalarStore.release_frame released (read ▸ outside.1)
      · simp [ArrayT.item, inside] at read

/-- What `array_fill` leaves, if it returns. -/
theorem fill_eq_ok [ScalarValue α] {memory : Memory} {s : ℕ} {state after : ArrayScalars α}
    {values : List α} {status : ℤ} (inside : state.array.Inside)
    (object : values.length * sizeofScalar ≤ sizeMax) (nonzero : s ≠ 0)
    (success : state.fill memory s values = .ok (status, after)) :
    ∃ released copies, releaseItems state.array state.store state.array.first
        state.array.count = .ok released ∧ Copied memory values copies ∧ after.array.Inside ∧
      after.array.handles = List.range' s values.length ∧
      after.store = released.filled s copies := by
  simp only [sizeofScalar, sizeMax] at object
  simp only [fill, Outcome.bind_eq_ok] at success
  rcases success with ⟨released, releasing, ⟨_, _⟩, reserved, _, positive, rest⟩
  rcases ArrayT.reserve_eq memory inside.cleared
    (show values.length < 2 ^ 62 by omega)
    with ⟨_, grown, reservedTo, first, _, _, grownInside, _⟩
  rw [reservedTo, Except.ok.injEq, Prod.mk.injEq] at reserved
  rcases reserved with ⟨rfl, rfl⟩
  rcases rest with ⟨filled, filling, same⟩
  simp only [Except.ok.injEq, Prod.mk.injEq] at same
  rcases fillItems_inside filling with empty | fits
  · rw [Outcome.assertThat_eq_ok, empty] at positive
    exact absurd positive (Nat.lt_irrefl 0)
  · rcases fillItems_copied filling with ⟨copies, copied⟩
    rw [fillItems_allocateMany copied fits nonzero, Except.ok.injEq] at filling
    rcases same with ⟨_, rfl⟩
    subst filling
    refine ⟨released, copies, releasing, copied, ⟨?_, grownInside.2⟩, ?_, rfl⟩
    · simp only [ArrayT.placed, first]
      exact fits
    · have front := ArrayT.placed_front { grown with count := 0 } 0 s values.length
        (Or.inl rfl)
      simp only [ArrayT.placed, Nat.zero_add, ArrayT.handles, List.range'_zero, List.map_nil,
        List.append_nil] at front ⊢
      rw [first]
      exact front

end ArrayScalars

end Dang
