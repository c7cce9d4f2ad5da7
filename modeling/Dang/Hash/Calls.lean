import Dang.Hash.Refinement

/-!
# Calls on a hash answer as a finite map does

Every sequence of calls on one hash, in any order, with the rest of the program at
work on the scalars in between.
-/

namespace Dang

/-- A call on the hash, or other work on the scalars, which leaves them as given. -/
inductive HashCall
  | keyItem (key : Value)
  | slice (elements : List Value)
  | keyDelete (key : Value)
  | keyExists (key : Value)
  | fill (pairs : List Value)
  | size
  | others (store : ScalarStore Value)

/-- What the calls return and pass back. -/
inductive HashAnswer
  | handle (handle : ℕ)
  | elements (status : ℤ) (elements : List Value)
  | status (status : ℤ)
  | count (count : ℕ)
  | nothing
  deriving DecidableEq

/-- A call, with the storage that is there for it and what `scalar_allocate` returns in each
round of it. -/
structure HashRequest where
  call : HashCall
  memory : Memory
  s : ℕ → ℕ

variable (formatFloat : BitVec 64 → Bytes)

/-- `hash_key_item`, `hash_slice`, `hash_key_delete`, `hash_key_exists`, `hash_fill` and
`hash_size`. -/
def HashScalars.serve (state : HashScalars) (request : HashRequest) :
    Outcome (HashAnswer × HashScalars) :=
  match request.call with
  | .keyItem key => do
      let key ← keyString formatFloat request.memory key
      let (handle, state) ← state.keyItem request.memory (request.s 0) key
      .ok (.handle handle, state)
  | .slice elements => do
      let (elements, state) ← state.slice formatFloat request.memory request.s 0 elements
      .ok (.elements 0 elements, state)
  | .keyDelete key => do
      let key ← keyString formatFloat request.memory key
      let (status, state) ← state.keyDelete key
      .ok (.status status, state)
  | .keyExists key => do
      let key ← keyString formatFloat request.memory key
      .ok (.status (state.hash.keyExists key), state)
  | .fill pairs => do
      let (status, state) ← state.fill formatFloat request.memory request.s pairs
      .ok (.status status, state)
  | .size => .ok (.count state.hash.size, state)
  | .others store => .ok (.nothing, { state with store := store })

/-- What the model answers. -/
def hashAnswer (model : HashModel) (request : HashRequest) : HashAnswer × HashModel :=
  match request.call with
  | .keyItem key =>
      let item := model.keyItem (request.s 0) (key.stringValue formatFloat)
      (.handle item.1, item.2)
  | .slice elements =>
      let items := model.slice formatFloat request.s 0 elements
      (.elements 0 items.1, items.2)
  | .keyDelete key => (.status 0, model.keyDelete (key.stringValue formatFloat))
  | .keyExists key =>
      (.status (if key.stringValue formatFloat ∈ model.bindings then 1 else 0), model)
  | .fill pairs => (.status 0, model.clear.fillPairs formatFloat request.s 0 pairs)
  | .size => (.count model.bindings.keys.card, model)
  | .others store => (.nothing, { model with store := store })

/-- Storage lasts, also for keys and for copies of values, new scalars are fresh, pairs are pairs,
and the rest of the program takes no scalar from the hash. -/
def HashScalars.Supplied (state : HashScalars) (request : HashRequest) : Prop :=
  match request.call with
  | .keyItem key =>
      request.memory.calloc 1 sizeofHashItem = true ∧
        request.memory.Stores (key.stringValue formatFloat) ∧
          HashModel.FreshHandle state.store (request.s 0)
  | .slice elements =>
      request.memory.calloc 1 sizeofHashItem = true ∧
        (∀ element ∈ elements, request.memory.Stores (element.stringValue formatFloat)) ∧
        HashModel.FreshRounds state.store request.s 0 elements.length
  | .keyDelete key | .keyExists key => request.memory.Stores (key.stringValue formatFloat)
  | .fill pairs =>
      request.memory.calloc 1 sizeofHashItem = true ∧ pairs.length % 2 = 0 ∧
        PairsStored formatFloat request.memory pairs ∧
        ∀ store, state.store.releaseAll state.hash.values = .ok store →
          HashModel.FreshRounds store request.s 0 (pairs.length / 2)
  | .others store => ∀ handle ∈ state.hash.values,
      ∃ scalar, store.scalars handle = some scalar ∧ 0 < scalar.references
  | .size => True

/-- The last value given for a key in a list of keys and values by turns. -/
def lastValue (key : Bytes) : List Value → Option Value
  | first :: value :: pairs =>
      (lastValue key pairs).or (if first.stringValue formatFloat = key then some value else none)
  | _ => none

namespace HashModel

/-- The value of the scalar bound to a key. -/
def value (model : HashModel) (key : Bytes) : Option Value :=
  (model.bindings.lookup key).bind fun handle =>
    (model.store.scalars handle).map PooledScalar.value

variable {model : HashModel} {s : ℕ} {key : Bytes}

theorem value_put {other : Bytes} {new : Value} (owning : model.Owning)
    (fresh : FreshHandle model.store s) :
    (model.put s key new).value other = if other = key then some new else model.value other := by
  unfold value put
  cases found : model.bindings.lookup key with
  | some handle =>
      rcases owning.owned found with ⟨scalar, used, _⟩
      by_cases same : other = key
      · subst same
        simp [found, ScalarStore.scalars_assigned new used]
      · rw [if_neg same]
        cases foundOther : model.bindings.lookup other with
        | none => rfl
        | some bound =>
            have apart : bound ≠ handle := by
              rintro rfl
              exact same (owning.distinct foundOther found)
            simp only [Option.bind_some, ScalarStore.assigned,
              ScalarStore.scalars_change_of_ne apart]
  | none =>
      have used : (model.store.allocateMany s 1).scalars s = some ⟨1, .undefined⟩ := by
        rw [scalars_allocate fresh.1, if_pos rfl]
      by_cases same : other = key
      · subst same
        simp [Finmap.lookup_insert, ScalarStore.scalars_assigned new used]
      · rw [if_neg same, Finmap.lookup_insert_of_ne _ same]
        cases foundOther : model.bindings.lookup other with
        | none => rfl
        | some bound =>
            rcases owning.owned foundOther with ⟨scalar, carried, _⟩
            have apart : bound ≠ s := by
              rintro rfl
              simp [fresh.2] at carried
            simp only [Option.bind_some, ScalarStore.assigned,
              ScalarStore.scalars_change_of_ne apart, scalars_allocate fresh.1, if_neg apart]

variable {formatFloat}

/-- Filling gives each key the last value there is for it, and binds no other key. -/
theorem value_fillPairs {rounds : ℕ → ℕ} {i count : ℕ} {pairs : List Value}
    (even : pairs.length = 2 * count) (owning : model.Owning)
    (fresh : FreshRounds model.store rounds i count) :
    (model.fillPairs formatFloat rounds i pairs).value key =
      (lastValue formatFloat key pairs).or (model.value key) := by
  induction count generalizing model i pairs with
  | zero =>
      rw [List.length_eq_zero_iff.mp even]
      rfl
  | succ count ih =>
      rcases exists_pair even with ⟨first, new, pairs, rfl, rest⟩
      have here := fresh.1 i (Nat.le_refl i) (by omega)
      have later : FreshRounds (model.put (rounds i) (first.stringValue formatFloat) new).store
          rounds (i + 1) count :=
        fresh.succ (fun other stays apart => stays.put owning here.1 apart)
      rw [fillPairs, ih rest (owning.put _ _ here) later, value_put owning here, lastValue]
      by_cases same : key = first.stringValue formatFloat
      · simp [same]
      · simp [same, Ne.symm same]

end HashModel

namespace HashScalars

variable {formatFloat}

/-- One call answers as the model does. -/
theorem Represents.serve {state : HashScalars} {model : HashModel} {request : HashRequest}
    (represents : state.Represents model) (supplied : state.Supplied formatFloat request) :
    ∃ after, state.serve formatFloat request =
        .ok ((hashAnswer formatFloat model request).1, after) ∧
      after.Represents (hashAnswer formatFloat model request).2 := by
  rcases request with ⟨call, memory, s⟩
  cases call with
  | keyItem key =>
      rcases supplied with ⟨storage, named, fresh⟩
      have asked := keyString_eq_ok.mpr ⟨named, rfl⟩
      rcases represents.keyItem storage named fresh with ⟨after, found, next⟩
      exact ⟨after, by simp [HashScalars.serve, asked, found, hashAnswer], next⟩
  | slice elements =>
      rcases represents.slice formatFloat supplied.1 supplied.2.1 supplied.2.2
        with ⟨after, sliced, next⟩
      exact ⟨after, by simp [HashScalars.serve, sliced, hashAnswer], next⟩
  | keyDelete key =>
      have asked := keyString_eq_ok.mpr ⟨supplied, rfl⟩
      rcases represents.keyDelete (key.stringValue formatFloat) with ⟨after, deleted, next⟩
      exact ⟨after, by simp [HashScalars.serve, asked, deleted, hashAnswer], next⟩
  | keyExists key =>
      have asked := keyString_eq_ok.mpr ⟨supplied, rfl⟩
      refine ⟨state, ?_, represents⟩
      simp [HashScalars.serve, asked, represents.keyExists, hashAnswer]
  | fill pairs =>
      rcases supplied with ⟨storage, even, stored, fresh⟩
      rcases represents.fill formatFloat even storage stored fresh
        with ⟨after, filled, next⟩
      exact ⟨after, by simp [HashScalars.serve, filled, hashAnswer], next⟩
  | size =>
      refine ⟨state, ?_, represents⟩
      simp [HashScalars.serve, represents.holds.size, hashAnswer]
  | others store =>
      refine ⟨{ state with store := store }, rfl, represents.holds, rfl, ?_, ?_⟩
      · intro key handle found
        apply supplied handle
        rw [represents.holds.mem_values]
        exact ⟨key, Finmap.mem_keys.mpr (Finmap.mem_of_lookup_eq_some found), found⟩
      · exact represents.owning.distinct

theorem represents_init (store : ScalarStore Value) :
    (⟨.init, store⟩ : HashScalars).Represents ⟨∅, store⟩ where
  holds := HashT.init_holds
  store := rfl
  owning :=
    { owned := fun found => by simp at found
      distinct := fun found => by simp at found }

/-- Every sequence of calls on a new hash answers as the finite map does, and in every state
reached the buckets hold the map; filling the map gives each key the last value there is for
it, and binds no other key. -/
theorem hash_refines_map {store : ScalarStore Value} {requests : List HashRequest}
    (supplied : RequestsMeet (Supplied formatFloat) (serve formatFloat) ⟨.init, store⟩ requests) :
    (⟨.init, store⟩ : HashScalars).Represents ⟨∅, store⟩ ∧
      (∃ steps, trace (serve formatFloat) ⟨.init, store⟩ requests = .ok steps ∧
        List.Forall₂ (fun reached expected =>
          reached.1 = expected.1 ∧ reached.2.Represents expected.2)
          steps (modelTrace (hashAnswer formatFloat) ⟨∅, store⟩ requests)) ∧
      ∀ (model : HashModel) (s : ℕ → ℕ) (pairs : List Value) (key : Bytes),
        pairs.length % 2 = 0 →
        HashModel.FreshRounds model.clear.store s 0 (pairs.length / 2) →
        (model.clear.fillPairs formatFloat s 0 pairs).value key =
          lastValue formatFloat key pairs := by
  refine ⟨represents_init store, ?_, ?_⟩
  · apply trace_refines (Supplied formatFloat) Represents
    · intro state model request represents meets
      exact represents.serve meets
    · exact represents_init store
    · exact supplied
  · intro model s pairs key even fresh
    rw [HashModel.value_fillPairs (show pairs.length = 2 * (pairs.length / 2) by omega)
      HashModel.Owning.clear fresh]
    simp [HashModel.value, HashModel.clear]

/-- Two keys, of which one is deleted and then filled again, with others. -/
def sampleRequests : List HashRequest :=
  [⟨.keyItem (.int 5), .ample, fun _ => 1⟩,
    ⟨.keyItem (.string (ascii "a")), .ample, fun _ => 2⟩,
    ⟨.keyDelete (.int 5), .ample, fun _ => 0⟩,
    ⟨.slice [.string (ascii "b"), .string (ascii "a")], .ample, fun i => 3 + i⟩,
    ⟨.fill [.string (ascii "c"), .int 7, .int 5, .string (ascii "d")], .ample, fun i => 5 + i⟩,
    ⟨.keyExists (.string (ascii "b")), .ample, fun _ => 0⟩,
    ⟨.keyItem (.string (ascii "5")), .ample, fun _ => 7⟩]

theorem hash_refines_map_sample :
    ∃ steps, trace (serve fun _ => []) ⟨.init, ⟨fun _ => none⟩⟩ sampleRequests = .ok steps ∧
      steps.map Prod.fst = [.handle 1, .handle 2, .status 0,
        .elements 0 [.reference .scalar 3, .reference .scalar 2], .status 0, .status 0,
        .handle 6] := by
  have rounds : ∀ (store : ScalarStore Value) (start : ℕ), start ≠ 0 →
      store.scalars start = none → store.scalars (start + 1) = none →
        HashModel.FreshRounds store (fun i => start + i) 0 2 := by
    intro store start nonzero first second
    refine ⟨fun j _ upper => ⟨Nat.ne_of_gt ?_, ?_⟩, fun j k _ less _ => ?_⟩
    · exact Nat.add_pos_left (Nat.pos_of_ne_zero nonzero) j
    · obtain rfl | rfl : j = 0 ∨ j = 1 := by omega
      · exact first
      · exact second
    · exact Nat.ne_of_lt (Nat.add_lt_add_left less start)
  have supplied : RequestsMeet (Supplied fun _ => []) (serve fun _ => []) ⟨.init, ⟨fun _ => none⟩⟩
      sampleRequests := by
    have five : Memory.ample.Stores (ascii "5") := by decide
    have other : Memory.ample.Stores (ascii "b") := by decide
    refine ⟨⟨by decide, by decide, by decide, rfl⟩, fun _ state served => ?_⟩
    cases served
    refine ⟨⟨by decide, by decide, by decide, rfl⟩, fun _ state served => ?_⟩
    cases served
    refine ⟨five, fun _ state served => ?_⟩
    cases served
    refine ⟨⟨by decide, by decide, rounds _ 3 (by decide) rfl rfl⟩, fun _ state served => ?_⟩
    cases served
    refine ⟨⟨by decide, by decide, ⟨by decide, by decide, by decide, by decide, trivial⟩, ?_⟩,
      fun _ state served => ?_⟩
    · intro store released
      cases released
      exact rounds _ 5 (by decide) rfl rfl
    cases served
    refine ⟨other, fun _ state served => ?_⟩
    cases served
    exact ⟨⟨by decide, by decide, by decide, rfl⟩, fun _ _ _ => trivial⟩
  rcases (hash_refines_map supplied).2.1 with ⟨steps, followed, agree⟩
  refine ⟨steps, followed, ?_⟩
  have same : List.Forall₂ (fun reached expected => reached = expected) (steps.map Prod.fst)
      ((modelTrace (hashAnswer fun _ => []) ⟨∅, ⟨fun _ => none⟩⟩ sampleRequests).map Prod.fst) := by
    rw [List.forall₂_map_left_iff, List.forall₂_map_right_iff]
    exact agree.imp fun _ _ both => both.1
  rw [List.forall₂_eq_eq_eq] at same
  rw [same]
  rfl

end HashScalars

end Dang
