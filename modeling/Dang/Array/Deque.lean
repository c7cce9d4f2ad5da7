import Dang.Array.Window
import Dang.Foundations.Refinement
import Dang.Scalar.Value

/-!
# An array is a deque

The calls on one array answer as those on a list of values do, in any order and with
any counts, as long as storage lasts.
-/

namespace Dang

/-- The calls a deque serves. -/
inductive DequeCall (α : Type)
  | push (values : List α)
  | unshift (values : List α)
  | pop
  | shift
  | list
  | size

/-- What the calls return and pass back. -/
inductive DequeAnswer (α : Type)
  | status (status : ℤ)
  | item (status : ℤ) (value : Option α)
  | items (status : ℤ) (values : List α)
  | count (count : ℕ)
  deriving DecidableEq

/-- A call, with the storage that is there for it and the handle that
`scalar_allocate_many` would return. -/
structure DequeRequest (α : Type) where
  call : DequeCall α
  memory : Memory
  s : ℕ

/-- A deque of values. -/
def dequeAnswer {α : Type} (values : List α) (request : DequeRequest α) :
    DequeAnswer α × List α :=
  match request.call with
  | .push new => (.status 0, values ++ new)
  | .unshift new => (.status 0, new ++ values)
  | .pop =>
      match values.getLast? with
      | some last => (.item 0 (some last), values.dropLast)
      | none => (.item (-1) none, values)
  | .shift =>
      match values with
      | first :: rest => (.item 0 (some first), rest)
      | [] => (.item (-1) none, [])
  | .list => (.items 0 values, values)
  | .size => (.count values.length, values)

namespace ArrayHeap

variable {α : Type} {heap : ArrayHeap α} {handle : ℕ} {values : List α}

/-- An array serves a call. -/
def serve [ScalarValue α] (handle : ℕ) (heap : ArrayHeap α) (request : DequeRequest α) :
    Outcome (DequeAnswer α × ArrayHeap α) :=
  match request.call with
  | .push values => do
      let (status, heap) ← heap.push request.memory request.s handle values
      .ok (.status status, heap)
  | .unshift values => do
      let (status, heap) ← heap.unshift request.memory request.s handle values
      .ok (.status status, heap)
  | .pop => do
      let ((status, value), heap) ← heap.pop request.memory handle
      .ok (.item status value, heap)
  | .shift => do
      let ((status, value), heap) ← heap.shift request.memory handle
      .ok (.item status value, heap)
  | .list => do
      let ((status, values), heap) ← heap.list request.memory handle
      .ok (.items status values, heap)
  | .size => do
      let (count, heap) ← heap.size handle
      .ok (.count count, heap)

/-- The caller passes an object, storage lasts, also for the copies of the values, and the new
scalars are fresh. -/
def Supplied [ScalarValue α] (handle : ℕ) (heap : ArrayHeap α) (request : DequeRequest α) :
    Prop :=
  match request.call with
  | .push values => values.length * sizeofScalar ≤ sizeMax ∧
      (∀ value ∈ values, Stored request.memory value) ∧ (values ≠ [] →
        (heap.array handle).Reserves request.memory ((heap.array handle).count + values.length) ∧
          request.s ≠ 0 ∧ heap.store.Fresh request.s values.length)
  | .unshift values => values.length * sizeofScalar ≤ sizeMax ∧
      (∀ value ∈ values, Stored request.memory value) ∧ (values ≠ [] →
        (heap.array handle).ReservesFront request.memory values.length ∧
          request.s ≠ 0 ∧ heap.store.Fresh request.s values.length)
  | .pop => ∀ s ∈ (heap.array handle).handles.getLast?, heap.store.CanGet request.memory s
  | .shift => ∀ s ∈ (heap.array handle).handles.head?, heap.store.CanGet request.memory s
  | .list => (0 < (heap.array handle).count →
        request.memory.calloc (heap.array handle).count sizeofScalar = true) ∧
      ∀ s ∈ (heap.array handle).handles, heap.store.CanGet request.memory s
  | .size => True

/-- The array holds the values: its window lies inside the buffer, and each handle in it
carries one reference. -/
structure Represents (heap : ArrayHeap α) (handle : ℕ) (values : List α) : Prop where
  available : heap.Available handle
  inside : (heap.array handle).Inside
  distinct : (heap.array handle).handles.Nodup
  owned : (heap.array handle).handles.map heap.store.scalars =
    values.map fun value => some ⟨1, value⟩

namespace Represents

theorem length_eq (represents : heap.Represents handle values) :
    (heap.array handle).count = values.length := by
  simpa using congrArg List.length represents.owned

/-- What an operation leaves represents the new values when the array it leaves does. -/
theorem put {state : ArrayScalars α} {after : List α} (represents : heap.Represents handle values)
    (inside : state.array.Inside) (distinct : state.array.handles.Nodup)
    (owned : state.array.handles.map state.store.scalars =
      after.map fun value => some ⟨1, value⟩) :
    (heap.put handle state).Represents handle after where
  available := (available_put handle state).mpr represents.available
  inside := by simpa only [array_put, if_true] using inside
  distinct := by simpa only [array_put, if_true] using distinct
  owned := by simpa only [array_put, if_true, store_put] using owned

end Represents

end ArrayHeap

namespace ScalarStore

variable {α : Type} {store : ScalarStore α}

/-- The new scalars hold the values. -/
theorem map_range'_filled {s : ℕ} {values : List α} :
    (List.range' s values.length).map (store.filled s values).scalars =
      values.map fun value => some ⟨1, value⟩ := by
  apply List.ext_getElem
  · simp
  · intro i below _
    simp only [List.length_map, List.length_range'] at below
    simp [filled_of_mem store s below]

/-- The scalars in use before are as they were. -/
theorem map_filled {s : ℕ} {handles : List ℕ} {values owned : List α}
    (fresh : store.Fresh s values.length)
    (used : handles.map store.scalars = owned.map fun value => some ⟨1, value⟩) :
    handles.map (store.filled s values).scalars =
      owned.map fun value => some ⟨1, value⟩ := by
  rw [← used]
  apply List.map_congr_left
  intro handle mem
  apply filled_of_lt
  apply fresh.outside
  have found : store.scalars handle ∈ owned.map fun value => some ⟨1, value⟩ :=
    used ▸ List.mem_map_of_mem mem
  rcases List.mem_map.mp found with ⟨value, _, same⟩
  rw [← same]
  exact Option.some_ne_none _

/-- Scalars in use are not among the fresh ones. -/
theorem Fresh.disjoint {s count : ℕ} {handles : List ℕ} {owned : List α}
    (fresh : store.Fresh s count)
    (used : handles.map store.scalars = owned.map fun value => some ⟨1, value⟩) :
    ∀ handle ∈ handles, handle ∉ List.range' s count := by
  intro handle mem new
  have found : store.scalars handle ∈ owned.map fun value => some ⟨1, value⟩ :=
    used ▸ List.mem_map_of_mem mem
  rcases List.mem_map.mp found with ⟨value, _, same⟩
  simp only [List.mem_range'_1] at new
  rw [fresh handle new.1 new.2] at same
  exact Option.some_ne_none _ same

/-- Releasing a scalar with one reference leaves the others. -/
theorem map_release {after : ScalarStore α} {released : ℕ} {handles : List ℕ}
    (success : store.release released = .ok after) (outside : released ∉ handles) :
    handles.map after.scalars = handles.map store.scalars := by
  cases used : store.scalars released with
  | none => simp [release, used] at success
  | some scalar =>
      rw [release_eq used, Except.ok.injEq] at success
      subst success
      apply List.map_congr_left
      intro handle mem
      have apart : handle ≠ released := by
        rintro rfl
        exact outside mem
      rw [scalars_set, if_neg apart]

end ScalarStore

namespace ArrayHeap

variable {α : Type} {heap : ArrayHeap α} {handle : ℕ} {values : List α} {memory : Memory}

namespace Represents

/-- The last handle of the window carries the last value. -/
theorem concat {rest : List α} {last : α} (represents : heap.Represents handle (rest ++ [last])) :
    ∃ front back, (heap.array handle).handles = front ++ [back] ∧
      front.map heap.store.scalars = rest.map (fun value => some ⟨1, value⟩) ∧
      heap.store.scalars back = some ⟨1, last⟩ ∧ back ∉ front ∧ front.Nodup := by
  have owned := represents.owned
  rw [List.map_append, List.map_eq_append_iff] at owned
  rcases owned with ⟨front, backs, window, before, after⟩
  simp only [List.map_cons, List.map_nil, List.map_eq_singleton_iff] at after
  rcases after with ⟨back, rfl, carried⟩
  have distinct := represents.distinct
  rw [window, List.nodup_append] at distinct
  refine ⟨front, back, window, before, carried, ?_, distinct.1⟩
  intro mem
  exact distinct.2.2 back mem back (List.mem_singleton_self back) rfl

/-- The first handle of the window carries the first value. -/
theorem cons {first : α} {rest : List α} (represents : heap.Represents handle (first :: rest)) :
    ∃ front back, (heap.array handle).handles = front :: back ∧
      back.map heap.store.scalars = rest.map (fun value => some ⟨1, value⟩) ∧
      heap.store.scalars front = some ⟨1, first⟩ ∧ front ∉ back ∧ back.Nodup := by
  have owned := represents.owned
  rw [List.map_cons, List.map_eq_cons_iff] at owned
  rcases owned with ⟨front, back, window, carried, after⟩
  have distinct := represents.distinct
  rw [window, List.nodup_cons] at distinct
  exact ⟨front, back, window, after, carried, distinct.1, distinct.2⟩

theorem handles_nil (represents : heap.Represents handle []) :
    (heap.array handle).handles = [] := by
  simpa using represents.owned

theorem size (represents : heap.Represents handle values) :
    heap.size handle = .ok (values.length, heap) := by
  simp only [ArrayHeap.size, onArray_eq represents.available, Outcome.ok_bind, put_self,
    represents.length_eq]

/-- An array as `_array_init` leaves it is empty. -/
theorem of_init (available : heap.Available handle)
    (new : heap.array handle = ArrayT.init) : heap.Represents handle [] where
  available := available
  inside := by
    rw [new]
    exact ArrayT.init_inside
  distinct := by simp [new, ArrayT.handles, ArrayT.init]
  owned := by simp [new, ArrayT.handles, ArrayT.init]

variable [ScalarValue α]

theorem pop {rest : List α} {last : α} (represents : heap.Represents handle (rest ++ [last]))
    (stored : Stored memory last) :
    ∃ after, heap.pop memory handle = .ok ((0, some last), after) ∧ after.Represents handle rest := by
  rcases represents.concat with ⟨front, back, window, before, carried, outside, distinct⟩
  rcases ArrayScalars.pop_eq memory ⟨heap.array handle, heap.store⟩ represents.inside
    window carried with ⟨array, store, popped, inside, handles, released⟩
  have copied : ScalarValue.clone memory last = .ok last := stored
  simp only [ArrayHeap.pop, onArray_eq represents.available, popped, copied, Outcome.ok_bind]
  refine ⟨_, rfl, represents.put inside ?_ ?_⟩
  · rw [handles]
    exact distinct
  · rw [handles, ScalarStore.map_release released outside, before]

theorem shift {first : α} {rest : List α} (represents : heap.Represents handle (first :: rest))
    (stored : Stored memory first) :
    ∃ after, heap.shift memory handle = .ok ((0, some first), after) ∧
      after.Represents handle rest := by
  rcases represents.cons with ⟨front, back, window, before, carried, outside, distinct⟩
  rcases ArrayScalars.shift_eq memory ⟨heap.array handle, heap.store⟩ represents.inside
    window carried with ⟨array, store, shifted, inside, handles, released⟩
  have copied : ScalarValue.clone memory first = .ok first := stored
  simp only [ArrayHeap.shift, onArray_eq represents.available, shifted, copied, Outcome.ok_bind]
  refine ⟨_, rfl, represents.put inside ?_ ?_⟩
  · rw [handles]
    exact distinct
  · rw [handles, ScalarStore.map_release released outside, before]

/-- Taking from an empty array fails and changes nothing. -/
theorem takes_nothing (memory : Memory) (represents : heap.Represents handle []) :
    heap.pop memory handle = .ok ((-1, none), heap) ∧
      heap.shift memory handle = .ok ((-1, none), heap) := by
  have window := represents.handles_nil
  simp only [ArrayHeap.pop, ArrayHeap.shift, onArray_eq represents.available,
    ArrayScalars.pop_empty memory ⟨heap.array handle, heap.store⟩ window,
    ArrayScalars.shift_empty memory ⟨heap.array handle, heap.store⟩ window,
    Outcome.ok_bind, put_self, true_and]

theorem list (represents : heap.Represents handle values)
    (supplied : 0 < (heap.array handle).count →
      memory.calloc (heap.array handle).count sizeofScalar = true)
    (stored : ∀ value ∈ values, Stored memory value) :
    heap.list memory handle = .ok ((0, values), heap) := by
  have held : (heap.array handle).handles.map
      (fun s => (heap.store.scalars s).map PooledScalar.value) = values.map some := by
    rw [← Function.comp_def, ← List.map_map, represents.owned, List.map_map]
    rfl
  have listed := ArrayScalars.list_eq memory ⟨heap.array handle, heap.store⟩ represents.inside held
    stored
  rw [represents.length_eq] at supplied
  rw [if_pos supplied] at listed
  simp only [ArrayHeap.list, onArray_eq represents.available, listed, Outcome.ok_bind, put_self]

/-- Where the scalars of some handles can be copied, so can the values. -/
theorem stored_of_canGet {handles : List ℕ} {owned : List α}
    (carried : handles.map heap.store.scalars = owned.map fun value => some ⟨1, value⟩)
    (copies : ∀ s ∈ handles, heap.store.CanGet memory s) : ∀ value ∈ owned, Stored memory value := by
  intro value mem
  have found : some ⟨1, value⟩ ∈ handles.map heap.store.scalars := by
    rw [carried]
    exact List.mem_map_of_mem mem
  rcases List.mem_map.mp found with ⟨s, held, used⟩
  exact copies s held _ used

theorem push {s : ℕ} {new : List α}
    (represents : heap.Represents handle values)
    (supplied : heap.Supplied handle ⟨.push new, memory, s⟩) :
    ∃ after, heap.push memory s handle new = .ok (0, after) ∧
      after.Represents handle (values ++ new) := by
  rcases supplied with ⟨object, stored, granted⟩
  rcases ArrayScalars.push_eq ⟨heap.array handle, heap.store⟩ (ArrayScalars.copied_self.mpr stored)
    represents.inside object (fun nonempty => (granted nonempty).2.1)
    with ⟨status, state, pushed, inside, done | ⟨_, _, failed⟩⟩
  · rcases done with ⟨rfl, window, store⟩
    simp only [ArrayHeap.push, onArray_eq represents.available, pushed, Outcome.ok_bind]
    refine ⟨_, rfl, represents.put inside ?_ ?_⟩
    · rw [window, List.nodup_append]
      refine ⟨represents.distinct, List.nodup_range', ?_⟩
      cases new with
      | nil => simp
      | cons value new =>
          intro old oldMem fresh freshMem same
          exact (granted (by simp)).2.2.disjoint represents.owned old oldMem (same ▸ freshMem)
    · rw [window, store, List.map_append, List.map_append, ScalarStore.map_range'_filled]
      cases new with
      | nil => simpa using represents.owned
      | cons value new =>
          rw [ScalarStore.map_filled (granted (by simp)).2.2 represents.owned]
  · cases new with
    | nil =>
        refine absurd ?_ failed
        intro beyond
        have within := represents.inside.1
        simp only [List.length_nil, Nat.add_zero] at beyond
        omega
    | cons value new => exact absurd (granted (by simp)).1 failed

theorem unshift {s : ℕ} {new : List α}
    (represents : heap.Represents handle values)
    (supplied : heap.Supplied handle ⟨.unshift new, memory, s⟩) :
    ∃ after, heap.unshift memory s handle new = .ok (0, after) ∧
      after.Represents handle (new ++ values) := by
  rcases supplied with ⟨object, stored, granted⟩
  cases new with
  | nil =>
      refine ⟨heap, ?_, represents⟩
      simp [ArrayHeap.unshift, onArray_eq represents.available, ArrayScalars.unshift, put_self]
  | cons value new =>
      rcases granted (by simp) with ⟨reserves, nonzero, fresh⟩
      rcases ArrayScalars.unshift_eq ⟨heap.array handle, heap.store⟩
        (ArrayScalars.copied_self.mpr stored) represents.inside object (fun _ => nonzero)
        with ⟨state, unshifted, inside, window, store⟩ | ⟨_, failed⟩
      · simp only [ArrayHeap.unshift, onArray_eq represents.available, unshifted,
          Outcome.ok_bind]
        refine ⟨_, rfl, represents.put inside ?_ ?_⟩
        · rw [window, List.nodup_append]
          refine ⟨List.nodup_range', represents.distinct, ?_⟩
          intro new newMem old oldMem same
          exact fresh.disjoint represents.owned old oldMem (same ▸ newMem)
        · rw [window, store, List.map_append, List.map_append, ScalarStore.map_range'_filled,
            ScalarStore.map_filled fresh represents.owned]
      · exact absurd reserves failed

/-- One call answers as the deque does. -/
theorem serve {request : DequeRequest α} (represents : heap.Represents handle values)
    (supplied : heap.Supplied handle request) :
    ∃ after, heap.serve handle request = .ok ((dequeAnswer values request).1, after) ∧
      after.Represents handle (dequeAnswer values request).2 := by
  rcases request with ⟨call, memory, s⟩
  cases call with
  | push new =>
      rcases represents.push supplied with ⟨after, pushed, next⟩
      exact ⟨after, by simp [ArrayHeap.serve, pushed, dequeAnswer], next⟩
  | unshift new =>
      rcases represents.unshift supplied with ⟨after, unshifted, next⟩
      exact ⟨after, by simp [ArrayHeap.serve, unshifted, dequeAnswer], next⟩
  | pop =>
      rcases values.eq_nil_or_concat' with rfl | ⟨rest, last, rfl⟩
      · refine ⟨heap, ?_, represents⟩
        simp [ArrayHeap.serve, (represents.takes_nothing memory).1, dequeAnswer]
      · rcases represents.concat with ⟨front, back, window, _, carried, _⟩
        have stored : Stored memory last := by
          refine supplied back ?_ _ carried
          rw [window]
          exact List.getLast?_concat
        rcases represents.pop stored with ⟨after, popped, next⟩
        refine ⟨after, by simp [ArrayHeap.serve, popped, dequeAnswer], ?_⟩
        simpa [dequeAnswer] using next
  | shift =>
      cases values with
      | nil =>
          refine ⟨heap, ?_, represents⟩
          simp [ArrayHeap.serve, (represents.takes_nothing memory).2, dequeAnswer]
      | cons first rest =>
          rcases represents.cons with ⟨front, back, window, _, carried, _⟩
          have stored : Stored memory first := by
            refine supplied front ?_ _ carried
            rw [window]
            rfl
          rcases represents.shift stored with ⟨after, shifted, next⟩
          exact ⟨after, by simp [ArrayHeap.serve, shifted, dequeAnswer], next⟩
  | list =>
      have stored := stored_of_canGet represents.owned supplied.2
      refine ⟨heap, ?_, represents⟩
      simp [ArrayHeap.serve, represents.list supplied.1 stored, dequeAnswer]
  | size =>
      refine ⟨heap, ?_, represents⟩
      simp [ArrayHeap.serve, represents.size, dequeAnswer]

end Represents

/-- Every sequence of calls on a new array answers as the deque does, and in every state
reached the array represents the deque; taking from it when it is empty changes nothing. -/
theorem array_refines_deque [ScalarValue α] {requests : List (DequeRequest α)}
    (available : heap.Available handle) (new : heap.array handle = ArrayT.init)
    (supplied : RequestsMeet (Supplied handle) (serve handle) heap requests) :
    heap.Represents handle [] ∧ ∃ steps, trace (serve handle) heap requests = .ok steps ∧
      List.Forall₂ (fun reached expected =>
        reached.1 = expected.1 ∧ reached.2.Represents handle expected.2 ∧
          (expected.2 = [] → ∀ memory,
            reached.2.pop memory handle = .ok ((-1, none), reached.2) ∧
            reached.2.shift memory handle = .ok ((-1, none), reached.2)))
        steps (modelTrace dequeAnswer [] requests) := by
  have empty := Represents.of_init available new
  refine ⟨empty, ?_⟩
  apply trace_refines (Supplied handle) (fun reached values =>
    reached.Represents handle values ∧ (values = [] → ∀ memory,
      reached.pop memory handle = .ok ((-1, none), reached) ∧
      reached.shift memory handle = .ok ((-1, none), reached)))
  · rintro state values request ⟨represents, _⟩ meets
    rcases represents.serve meets with ⟨after, served, next⟩
    refine ⟨after, served, next, ?_⟩
    intro empty memory
    exact (empty ▸ next).takes_nothing memory
  · exact ⟨empty, fun _ memory => empty.takes_nothing memory⟩
  · exact supplied

theorem array_refines_deque_single :
    ∃ steps, trace (serve 1) (single Value)
        [⟨.push [.string (ascii "a"), .int 7], .ample, 1⟩, ⟨.shift, .ample, 0⟩] = .ok steps ∧
      steps.map Prod.fst = [.status 0, .item 0 (some (.string (ascii "a")))] := by
  have copies : ∀ value ∈ [Value.string (ascii "a"), .int 7], Stored .ample value := by decide
  have supplied : RequestsMeet (Supplied 1) (serve 1) (single Value)
      [⟨.push [.string (ascii "a"), .int 7], .ample, 1⟩, ⟨.shift, .ample, 0⟩] := by
    refine ⟨⟨by decide, copies, fun _ => ⟨?_, by decide, fun _ _ _ => rfl⟩⟩, ?_⟩
    · intro beyond
      exact absurd beyond (by decide)
    · intro after answer pushed
      refine ⟨?_, fun _ _ _ => trivial⟩
      cases pushed
      intro s mem scalar used
      cases mem
      cases used
      decide
  rcases (array_refines_deque (available_single Value) rfl supplied).2 with ⟨steps, followed, agree⟩
  refine ⟨steps, followed, ?_⟩
  cases agree with
  | cons first rest =>
      cases rest with
      | cons second rest =>
          cases rest
          simp [first.1, second.1, dequeAnswer]

end ArrayHeap

end Dang
