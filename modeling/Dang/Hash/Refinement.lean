import Dang.Hash.Map

/-!
# Operations on a hash are operations on a finite map

The model is a finite map from the string values of keys to the handles of scalars,
beside the scalars themselves. Each bound scalar has a reference that the map owns.
-/

namespace Dang

namespace ScalarStore

variable {α : Type} {store : ScalarStore α} {handle other : ℕ} {scalar : PooledScalar α}

/-- One scalar changed, if it is in use. -/
def change (store : ScalarStore α) (handle : ℕ)
    (change : PooledScalar α → Option (PooledScalar α)) : ScalarStore α where
  scalars other :=
    if other = handle then (store.scalars handle).bind change else store.scalars other

/-- One more reference. -/
def referenced (store : ScalarStore α) (handle : ℕ) : ScalarStore α :=
  store.change handle fun scalar => some { scalar with references := scalar.references + 1 }

/-- What the last reference but one, or the last, leaves of a scalar. -/
def lessOne (scalar : PooledScalar α) : Option (PooledScalar α) :=
  if scalar.references = 1 then none
  else some { scalar with references := scalar.references - 1 }

/-- One reference less. -/
def released (store : ScalarStore α) (handle : ℕ) : ScalarStore α :=
  store.change handle lessOne

/-- Another value. -/
def assigned (store : ScalarStore α) (handle : ℕ) (value : α) : ScalarStore α :=
  store.change handle fun scalar => some { scalar with value := value }

theorem set_eq_change {change : PooledScalar α → Option (PooledScalar α)}
    (used : store.scalars handle = some scalar) :
    store.set handle (change scalar) = store.change handle change := by
  simp only [set, ScalarStore.change, used, Option.bind_some, ScalarStore.mk.injEq]
  funext other
  exact Function.update_apply _ _ _ _

theorem scalars_change_self {change : PooledScalar α → Option (PooledScalar α)}
    (used : store.scalars handle = some scalar) :
    (store.change handle change).scalars handle = change scalar := by
  simp [ScalarStore.change, used]

theorem scalars_change_of_ne {change : PooledScalar α → Option (PooledScalar α)}
    (apart : other ≠ handle) :
    (store.change handle change).scalars other = store.scalars other :=
  if_neg apart

theorem change_change {first second : PooledScalar α → Option (PooledScalar α)} :
    (store.change handle first).change handle second =
      store.change handle fun scalar => (first scalar).bind second := by
  simp only [ScalarStore.change, if_true, ScalarStore.mk.injEq, Option.bind_assoc]
  funext other
  by_cases same : other = handle
  · rw [if_pos same, if_pos same]
  · rw [if_neg same, if_neg same, if_neg same]

theorem change_congr {first : PooledScalar α → Option (PooledScalar α)}
    (second : PooledScalar α → Option (PooledScalar α)) (used : store.scalars handle = some scalar)
    (same : first scalar = second scalar) :
    store.change handle first = store.change handle second := by
  simp [ScalarStore.change, used, same]

theorem scalars_referenced (used : store.scalars handle = some scalar) :
    (store.referenced handle).scalars handle =
      some { scalar with references := scalar.references + 1 } :=
  scalars_change_self used

theorem scalars_assigned (value : α) (used : store.scalars handle = some scalar) :
    (store.assigned handle value).scalars handle = some { scalar with value := value } :=
  scalars_change_self used

theorem released_referenced (used : store.scalars handle = some scalar)
    (positive : 0 < scalar.references) : (store.referenced handle).released handle = store := by
  have several : scalar.references ≠ 0 := by omega
  rw [released, referenced, change_change, change_congr some used]
  · rcases store with ⟨scalars⟩
    simp only [ScalarStore.change, ScalarStore.mk.injEq]
    funext other
    by_cases same : other = handle
    · simp [same]
    · rw [if_neg same]
  · simp [lessOne, several]

theorem reference_eq_referenced (used : store.scalars handle = some scalar) :
    store.reference handle = .ok (handle, store.referenced handle) := by
  simp only [reference, used, referenced, ← set_eq_change used]

theorem release_eq_released (used : store.scalars handle = some scalar) :
    store.release handle = .ok (store.released handle) := by
  rw [released, ← set_eq_change used, lessOne]
  by_cases last : scalar.references = 1
  · simp [release, used, last]
  · simp [release, used, last]

theorem setValue_eq_assigned [ScalarValue α] {memory : Memory} {value : α}
    (used : store.scalars handle = some scalar) (stored : Stored memory value) :
    store.setValue memory handle value = .ok (store.assigned handle value) := by
  rw [setValue_of used stored, assigned, ← set_eq_change used]

/-- Releasing different scalars, each in use, releases each of them once. -/
theorem releaseAll_eq {handles : List ℕ} (distinct : handles.Nodup)
    (used : ∀ handle ∈ handles, store.scalars handle ≠ none) :
    ∃ after, store.releaseAll handles = .ok after ∧ ∀ other, after.scalars other =
      if other ∈ handles then (store.scalars other).bind lessOne else store.scalars other := by
  induction handles generalizing store with
  | nil => exact ⟨store, rfl, fun other => by simp⟩
  | cons first rest ih =>
      rw [List.nodup_cons] at distinct
      rcases Option.ne_none_iff_exists'.mp (used first List.mem_cons_self) with ⟨scalar, carried⟩
      have apart : ∀ other ∈ rest, other ≠ first := by
        rintro other mem rfl
        exact distinct.1 mem
      have stillUsed : ∀ other ∈ rest, (store.released first).scalars other ≠ none := by
        intro other mem
        rw [released, scalars_change_of_ne (apart other mem)]
        exact used other (List.mem_cons_of_mem _ mem)
      rcases ih distinct.2 stillUsed with ⟨after, rest_eq, pointwise⟩
      refine ⟨after, ?_, ?_⟩
      · simp only [releaseAll, release_eq_released carried, Outcome.ok_bind, rest_eq]
      · intro other
        rw [pointwise]
        by_cases same : other = first
        · subst same
          rw [if_neg distinct.1, if_pos List.mem_cons_self, released, scalars_change_self carried,
            carried, Option.bind_some]
        · rw [released, scalars_change_of_ne same]
          simp [same]

/-- Releasing scalars leaves the others. -/
theorem releaseAll_frame {after : ScalarStore α} {handles : List ℕ}
    (success : store.releaseAll handles = .ok after) (outside : other ∉ handles) :
    after.scalars other = store.scalars other := by
  induction handles generalizing store with
  | nil =>
      rw [releaseAll, Except.ok.injEq] at success
      rw [success]
  | cons handle handles ih =>
      simp only [releaseAll, Outcome.bind_eq_ok] at success
      rcases success with ⟨next, released, rest⟩
      rw [List.mem_cons, not_or] at outside
      rw [ih rest outside.2]
      cases used : store.scalars handle with
      | none => simp [release, used] at released
      | some scalar =>
          rw [release_eq_released used, Except.ok.injEq] at released
          subst released
          exact scalars_change_of_ne outside.1

end ScalarStore

/-- A finite map of keys to scalars, and the scalars. -/
structure HashModel where
  bindings : Bindings
  store : ScalarStore Value

namespace HashModel

/-- A key is looked up, and bound to a new scalar if it is not bound. -/
def keyItem (s : ℕ) (model : HashModel) (key : Bytes) : ℕ × HashModel :=
  match model.bindings.lookup key with
  | some handle => (handle, { model with store := model.store.referenced handle })
  | none => (s, ⟨model.bindings.insert key s, (model.store.allocateMany s 1).referenced s⟩)

/-- A key is unbound. -/
def keyDelete (model : HashModel) (key : Bytes) : HashModel :=
  match model.bindings.lookup key with
  | some handle => ⟨model.bindings.erase key, model.store.released handle⟩
  | none => model

/-- A key is bound to a value. -/
def put (s : ℕ) (model : HashModel) (key : Bytes) (value : Value) : HashModel :=
  match model.bindings.lookup key with
  | some handle => { model with store := model.store.assigned handle value }
  | none => ⟨model.bindings.insert key s, (model.store.allocateMany s 1).assigned s value⟩

/-- Nothing is bound, and what was bound is released. -/
def clear (model : HashModel) : HashModel where
  bindings := ∅
  store :=
    { scalars := fun handle =>
        if ∃ key ∈ model.bindings.keys, model.bindings.lookup key = some handle then
          (model.store.scalars handle).bind ScalarStore.lessOne
        else model.store.scalars handle }

variable (formatFloat : BitVec 64 → Bytes)

/-- References to the items of several keys. -/
def slice (s : ℕ → ℕ) (i : ℕ) (model : HashModel) : List Value → List Value × HashModel
  | [] => ([], model)
  | element :: elements =>
      let item := model.keyItem (s i) (element.stringValue formatFloat)
      let others := slice s (i + 1) item.2 elements
      (.reference .scalar item.1 :: others.1, others.2)

/-- Keys and values by turns. -/
def fillPairs (s : ℕ → ℕ) (i : ℕ) (model : HashModel) : List Value → HashModel
  | key :: value :: pairs =>
      fillPairs s (i + 1) (model.put (s i) (key.stringValue formatFloat) value) pairs
  | _ => model

/-- The map owns a reference to each of its scalars, which are different. -/
structure Owning (model : HashModel) : Prop where
  owned : ∀ {key handle}, model.bindings.lookup key = some handle →
    ∃ scalar, model.store.scalars handle = some scalar ∧ 0 < scalar.references
  distinct : ∀ {key other handle}, model.bindings.lookup key = some handle →
    model.bindings.lookup other = some handle → key = other

/-- The handle is not in use. -/
def FreshHandle (store : ScalarStore Value) (s : ℕ) : Prop :=
  s ≠ 0 ∧ store.scalars s = none

variable {model : HashModel} {s : ℕ} {key : Bytes}

theorem scalars_allocate (nonzero : s ≠ 0) (other : ℕ) :
    (model.store.allocateMany s 1).scalars other =
      if other = s then some ⟨1, .undefined⟩ else model.store.scalars other := by
  simp only [ScalarStore.allocateMany]
  by_cases same : other = s
  · rw [if_pos (by omega), if_pos same]
    rfl
  · rw [if_neg (by omega), if_neg same]

/-- Changing a scalar other than to take it from the map keeps the map owning. -/
theorem Owning.change (owning : model.Owning) {handle : ℕ}
    {change : PooledScalar Value → Option (PooledScalar Value)}
    (keeps : ∀ scalar, model.store.scalars handle = some scalar →
      ∃ changed, change scalar = some changed ∧ 0 < changed.references) :
    (⟨model.bindings, model.store.change handle change⟩ : HashModel).Owning where
  owned {key} bound found := by
    rcases owning.owned found with ⟨scalar, used, positive⟩
    by_cases same : bound = handle
    · subst same
      rcases keeps scalar used with ⟨changed, result, stays⟩
      exact ⟨changed, by rw [ScalarStore.scalars_change_self used, result], stays⟩
    · exact ⟨scalar, by rw [ScalarStore.scalars_change_of_ne same, used], positive⟩
  distinct := owning.distinct

/-- Binding a key to a new scalar keeps the map owning. -/
theorem Owning.insert (owning : model.Owning) (store : ScalarStore Value)
    (fresh : FreshHandle model.store s) {changed : PooledScalar Value}
    (new : store.scalars s = some changed) (positive : 0 < changed.references)
    (frame : ∀ other ≠ s, store.scalars other = model.store.scalars other) :
    (⟨model.bindings.insert key s, store⟩ : HashModel).Owning := by
  have apart : ∀ {other handle}, model.bindings.lookup other = some handle → handle ≠ s := by
    rintro other handle found rfl
    rcases owning.owned found with ⟨scalar, used, _⟩
    simp [fresh.2] at used
  constructor
  · intro other handle found
    by_cases same : other = key
    · subst same
      rw [Finmap.lookup_insert, Option.some.injEq] at found
      subst found
      exact ⟨changed, new, positive⟩
    · rw [Finmap.lookup_insert_of_ne _ same] at found
      rcases owning.owned found with ⟨scalar, used, stays⟩
      exact ⟨scalar, by rw [frame handle (apart found), used], stays⟩
  · intro first second handle firstFound secondFound
    by_cases isFirst : first = key
    · by_cases isSecond : second = key
      · rw [isFirst, isSecond]
      · subst isFirst
        rw [Finmap.lookup_insert, Option.some.injEq] at firstFound
        rw [Finmap.lookup_insert_of_ne _ isSecond] at secondFound
        exact absurd firstFound.symm (apart secondFound)
    · rw [Finmap.lookup_insert_of_ne _ isFirst] at firstFound
      by_cases isSecond : second = key
      · subst isSecond
        rw [Finmap.lookup_insert, Option.some.injEq] at secondFound
        exact absurd secondFound.symm (apart firstFound)
      · rw [Finmap.lookup_insert_of_ne _ isSecond] at secondFound
        exact owning.distinct firstFound secondFound

theorem Owning.keyItem (owning : model.Owning) (key : Bytes) (fresh : FreshHandle model.store s) :
    (model.keyItem s key).2.Owning := by
  unfold HashModel.keyItem
  cases found : model.bindings.lookup key with
  | some handle =>
      apply owning.change
      intro scalar _
      exact ⟨_, rfl, Nat.succ_pos _⟩
  | none =>
      have used : (model.store.allocateMany s 1).scalars s = some ⟨1, .undefined⟩ := by
        rw [scalars_allocate fresh.1, if_pos rfl]
      refine owning.insert ((model.store.allocateMany s 1).referenced s) fresh
        (ScalarStore.scalars_change_self used) (Nat.succ_pos _) ?_
      intro other apart
      rw [ScalarStore.referenced, ScalarStore.scalars_change_of_ne apart,
        scalars_allocate fresh.1, if_neg apart]

theorem Owning.put (owning : model.Owning) (key : Bytes) (value : Value)
    (fresh : FreshHandle model.store s) :
    (model.put s key value).Owning := by
  unfold HashModel.put
  cases found : model.bindings.lookup key with
  | some handle =>
      apply owning.change
      intro scalar used
      rcases owning.owned found with ⟨other, sameUsed, positive⟩
      rw [used, Option.some.injEq] at sameUsed
      subst sameUsed
      exact ⟨_, rfl, positive⟩
  | none =>
      have used : (model.store.allocateMany s 1).scalars s = some ⟨1, .undefined⟩ := by
        rw [scalars_allocate fresh.1, if_pos rfl]
      refine owning.insert ((model.store.allocateMany s 1).assigned s value) fresh
        (ScalarStore.scalars_change_self used) Nat.one_pos ?_
      intro other apart
      rw [ScalarStore.assigned, ScalarStore.scalars_change_of_ne apart,
        scalars_allocate fresh.1, if_neg apart]

theorem Owning.keyDelete (owning : model.Owning) (key : Bytes) : (model.keyDelete key).Owning := by
  unfold HashModel.keyDelete
  cases found : model.bindings.lookup key with
  | none => exact owning
  | some handle =>
      have others : ∀ {other bound}, (model.bindings.erase key).lookup other = some bound →
          other ≠ key ∧ model.bindings.lookup other = some bound := by
        intro other bound foundOther
        have different : other ≠ key := by
          rintro rfl
          simp at foundOther
        rw [Finmap.lookup_erase_ne different] at foundOther
        exact ⟨different, foundOther⟩
      constructor
      · intro other bound foundOther
        rcases others foundOther with ⟨different, before⟩
        have apart : bound ≠ handle := by
          rintro rfl
          exact different (owning.distinct before found)
        rcases owning.owned before with ⟨scalar, used, positive⟩
        exact ⟨scalar, (ScalarStore.scalars_change_of_ne apart).trans used, positive⟩
      · intro first second bound firstFound secondFound
        exact owning.distinct (others firstFound).2 (others secondFound).2

theorem Owning.clear : model.clear.Owning where
  owned found := by simp [HashModel.clear] at found
  distinct found := by simp [HashModel.clear] at found

theorem lookup_keyItem :
    (model.keyItem s key).2.bindings.lookup key = some (model.keyItem s key).1 := by
  unfold HashModel.keyItem
  cases found : model.bindings.lookup key with
  | some handle => exact found
  | none => exact Finmap.lookup_insert _

/-- Changing a scalar that a key is bound to takes no handle. -/
theorem FreshHandle.changeBound {other handle : ℕ} (owning : model.Owning)
    (change : PooledScalar Value → Option (PooledScalar Value))
    (found : model.bindings.lookup key = some handle) (fresh : FreshHandle model.store other) :
    FreshHandle (model.store.change handle change) other := by
  rcases owning.owned found with ⟨scalar, used, _⟩
  have different : other ≠ handle := by
    rintro rfl
    simp [fresh.2] at used
  exact ⟨fresh.1, (ScalarStore.scalars_change_of_ne different).trans fresh.2⟩

/-- Allocating a scalar takes its handle only. -/
theorem FreshHandle.changeNew {other : ℕ}
    (change : PooledScalar Value → Option (PooledScalar Value)) (nonzero : s ≠ 0)
    (fresh : FreshHandle model.store other) (apart : other ≠ s) :
    FreshHandle ((model.store.allocateMany s 1).change s change) other := by
  refine ⟨fresh.1, (ScalarStore.scalars_change_of_ne apart).trans ?_⟩
  rw [scalars_allocate nonzero, if_neg apart]
  exact fresh.2

/-- A handle that was not in use is only in use after it was taken. -/
theorem FreshHandle.keyItem {other : ℕ} (owning : model.Owning) (nonzero : s ≠ 0)
    (fresh : FreshHandle model.store other) (apart : other ≠ s) :
    FreshHandle (model.keyItem s key).2.store other := by
  unfold HashModel.keyItem
  cases found : model.bindings.lookup key with
  | some handle => exact fresh.changeBound owning _ found
  | none => exact fresh.changeNew _ nonzero apart

theorem FreshHandle.put {other : ℕ} {value : Value} (owning : model.Owning) (nonzero : s ≠ 0)
    (fresh : FreshHandle model.store other) (apart : other ≠ s) :
    FreshHandle (model.put s key value).store other := by
  unfold HashModel.put
  cases found : model.bindings.lookup key with
  | some handle => exact fresh.changeBound owning _ found
  | none => exact fresh.changeNew _ nonzero apart

/-- The handles for `count` rounds from `i` on are different and not in use. -/
def FreshRounds (store : ScalarStore Value) (s : ℕ → ℕ) (i count : ℕ) : Prop :=
  (∀ j, i ≤ j → j < i + count → FreshHandle store (s j)) ∧
    ∀ j k, i ≤ j → j < k → k < i + count → s j ≠ s k

theorem FreshRounds.succ {store after : ScalarStore Value} {s : ℕ → ℕ} {i count : ℕ}
    (fresh : FreshRounds store s i (count + 1))
    (stays : ∀ other, FreshHandle store other → other ≠ s i → FreshHandle after other) :
    FreshRounds after s (i + 1) count := by
  constructor
  · intro j lower upper
    exact stays (s j) (fresh.1 j (by omega) (by omega))
      (Ne.symm (fresh.2 i j (Nat.le_refl i) (by omega) (by omega)))
  · intro j k lower less upper
    exact fresh.2 j k (by omega) less (by omega)

/-- A list of pairs that is not empty begins with one. -/
theorem exists_pair {pairs : List Value} {count : ℕ} (even : pairs.length = 2 * (count + 1)) :
    ∃ key value rest, pairs = key :: value :: rest ∧ rest.length = 2 * count := by
  match pairs with
  | key :: value :: rest =>
      simp only [List.length_cons] at even
      exact ⟨key, value, rest, rfl, by omega⟩
  | [_] =>
      simp only [List.length_singleton] at even
      omega
  | [] => simp at even

/-- Looking a key up, setting the value found and giving up the reference to it binds the
key to the value. -/
theorem released_assigned_keyItem (key : Bytes) (value : Value) (owning : model.Owning)
    (fresh : FreshHandle model.store s) :
    (⟨(model.keyItem s key).2.bindings,
      ((model.keyItem s key).2.store.assigned (model.keyItem s key).1 value).released
        (model.keyItem s key).1⟩ : HashModel) = model.put s key value := by
  unfold HashModel.keyItem HashModel.put
  cases found : model.bindings.lookup key with
  | some handle =>
      rcases owning.owned found with ⟨scalar, used, positive⟩
      simp only [ScalarStore.referenced, ScalarStore.assigned, ScalarStore.released,
        ScalarStore.change_change, HashModel.mk.injEq, true_and]
      apply ScalarStore.change_congr _ used
      have several : scalar.references ≠ 0 := by omega
      simp [ScalarStore.lessOne, several]
  | none =>
      have used : (model.store.allocateMany s 1).scalars s = some ⟨1, .undefined⟩ := by
        rw [scalars_allocate fresh.1, if_pos rfl]
      simp only [ScalarStore.referenced, ScalarStore.assigned, ScalarStore.released,
        ScalarStore.change_change, HashModel.mk.injEq, true_and]
      apply ScalarStore.change_congr _ used
      rfl

end HashModel

/-- A hash and the scalars represent a finite map. -/
structure HashScalars.Represents (state : HashScalars) (model : HashModel) : Prop where
  holds : state.hash.Holds model.bindings
  store : state.store = model.store
  owning : model.Owning

namespace HashScalars.Represents

open HashModel

variable {state : HashScalars} {model : HashModel} {memory : Memory} {s : ℕ} {key : Bytes}

theorem newItem (represents : state.Represents model)
    (storage : memory.calloc 1 sizeofHashItem = true) (named : memory.Stores key)
    (fresh : FreshHandle state.store s)
    (unbound : model.bindings.lookup key = none) :
    ∃ after, state.newItem memory s key = .ok ((model.keyItem s key).1, after) ∧
      after.Represents (model.keyItem s key).2 := by
  rcases represents with ⟨holds, store, owning⟩
  have kept := owning.keyItem key (store ▸ fresh)
  have used : (model.store.allocateMany s 1).scalars s = some ⟨1, .undefined⟩ := by
    rw [scalars_allocate fresh.1, if_pos rfl]
  have copied := dupBytes_eq_ok.mpr ⟨named, rfl⟩
  simp only [HashScalars.newItem, storage, if_true, store, copied,
    ScalarStore.reference_eq_referenced used, Outcome.ok_bind]
  unfold HashModel.keyItem at kept ⊢
  rw [unbound] at kept ⊢
  refine ⟨_, rfl, holds.insert unbound ?_, rfl, kept⟩
  have counted := holds.counted (bucketIndex key)
  rw [HashT.bucket, counted]
  by_cases empty : (state.hash.buckets (bucketIndex key)).items = []
  · rw [if_pos empty, empty, List.length_nil]
  · rw [if_neg empty]

theorem keyItem (represents : state.Represents model)
    (storage : memory.calloc 1 sizeofHashItem = true) (named : memory.Stores key)
    (fresh : FreshHandle state.store s) :
    ∃ after, state.keyItem memory s key = .ok ((model.keyItem s key).1, after) ∧
      after.Represents (model.keyItem s key).2 := by
  rcases represents.holds.reached_cases key with ⟨handle, rest, found, place⟩ | ⟨unbound, beyond⟩
  · have kept := represents.owning.keyItem key (represents.store ▸ fresh)
    rcases represents.owning.owned found with ⟨scalar, used, _⟩
    have same : stringCmp key key = 0 := stringCmp_zero.mpr rfl
    simp only [HashScalars.keyItem, place, same, if_true, represents.store,
      ScalarStore.reference_eq_referenced used, Outcome.ok_bind]
    unfold HashModel.keyItem at kept ⊢
    rw [found] at kept ⊢
    exact ⟨_, rfl, represents.holds, rfl, kept⟩
  · have isNew : state.keyItem memory s key = state.newItem memory s key := by
      unfold HashScalars.keyItem
      cases place : (state.hash.bucket key).reached key with
      | nil => rfl
      | cons item rest =>
          rw [place] at beyond
          simp only
          rw [if_neg (beyond item rfl)]
    rw [isNew]
    exact represents.newItem storage named fresh unbound

theorem keyDelete (represents : state.Represents model) (key : Bytes) :
    ∃ after, state.keyDelete key = .ok (0, after) ∧ after.Represents (model.keyDelete key) := by
  have kept := represents.owning.keyDelete key
  unfold HashModel.keyDelete at kept ⊢
  rcases represents.holds.reached_cases key with ⟨handle, rest, found, place⟩ | ⟨unbound, beyond⟩
  · rcases represents.owning.owned found with ⟨scalar, used, _⟩
    have same : stringCmp key key = 0 := stringCmp_zero.mpr rfl
    have some : (state.hash.bucket key).count ≠ 0 := by
      intro empty
      simp [represents.holds.reached_of_count_zero empty] at place
    rw [found] at kept ⊢
    simp only [HashScalars.keyDelete, some, if_false, place, same, if_true, represents.store,
      ScalarStore.release_eq_released used, Outcome.ok_bind]
    exact ⟨_, rfl, represents.holds.erase place, rfl, kept⟩
  · rw [unbound]
    refine ⟨state, ?_, represents⟩
    unfold HashScalars.keyDelete
    cases place : (state.hash.bucket key).reached key with
    | nil => simp [place]
    | cons item rest =>
        rw [place] at beyond
        simp [place, beyond item rfl]

theorem keyExists (represents : state.Represents model) :
    state.hash.keyExists key = if key ∈ model.bindings then 1 else 0 := by
  unfold HashT.keyExists
  rcases represents.holds.reached_cases key with ⟨handle, rest, found, place⟩ | ⟨unbound, beyond⟩
  · have same : stringCmp key key = 0 := stringCmp_zero.mpr rfl
    have some : (state.hash.bucket key).count ≠ 0 := by
      intro empty
      simp [represents.holds.reached_of_count_zero empty] at place
    simp [some, place, same, Finmap.mem_of_lookup_eq_some found]
  · rw [if_neg (Finmap.lookup_eq_none.mp unbound)]
    cases place : (state.hash.bucket key).reached key with
    | nil => simp [place]
    | cons item rest =>
        rw [place] at beyond
        simp [place, beyond item rfl]

theorem clear (represents : state.Represents model) :
    ∃ store, state.store.releaseAll state.hash.values = .ok store ∧
      (⟨.init, store⟩ : HashScalars).Represents model.clear := by
  have nodup := represents.holds.values_nodup represents.owning.distinct
  have used : ∀ handle ∈ state.hash.values, state.store.scalars handle ≠ none := by
    intro handle mem
    rcases represents.holds.mem_values.mp mem with ⟨key, _, found⟩
    rcases represents.owning.owned found with ⟨scalar, carried, _⟩
    rw [represents.store, carried]
    exact Option.some_ne_none _
  rcases ScalarStore.releaseAll_eq nodup used with ⟨store, releasing, pointwise⟩
  refine ⟨store, releasing, HashT.init_holds, ?_, Owning.clear⟩
  simp only [represents.store, represents.holds.mem_values] at pointwise
  rcases store with ⟨scalars⟩
  simp only [HashModel.clear, ScalarStore.mk.injEq]
  funext other
  exact pointwise other

variable {rounds : ℕ → ℕ} {i : ℕ}

theorem slice {elements : List Value} (formatFloat : BitVec 64 → Bytes)
    (represents : state.Represents model)
    (storage : memory.calloc 1 sizeofHashItem = true)
    (named : ∀ element ∈ elements, memory.Stores (element.stringValue formatFloat))
    (fresh : FreshRounds state.store rounds i elements.length) :
    ∃ after, state.slice formatFloat memory rounds i elements =
        .ok ((model.slice formatFloat rounds i elements).1, after) ∧
      after.Represents (model.slice formatFloat rounds i elements).2 := by
  induction elements generalizing state model i with
  | nil => exact ⟨state, rfl, represents⟩
  | cons element elements ih =>
      have here := fresh.1 i (Nat.le_refl i) (by simp)
      have key := named element List.mem_cons_self
      have asked := keyString_eq_ok.mpr ⟨key, rfl⟩
      rcases represents.keyItem storage key here
        with ⟨next, found, nextRepresents⟩
      rcases nextRepresents.owning.owned lookup_keyItem with ⟨scalar, used, positive⟩
      have usedAgain := ScalarStore.scalars_referenced used
      have undone := ScalarStore.released_referenced used positive
      have later : FreshRounds next.store rounds (i + 1) elements.length := by
        rw [nextRepresents.store]
        apply fresh.succ
        intro other stays apart
        rw [represents.store] at stays
        exact stays.keyItem represents.owning here.1 apart
      rcases ih nextRepresents (fun other mem => named other (List.mem_cons_of_mem _ mem)) later
        with ⟨after, rest, afterRepresents⟩
      refine ⟨after, ?_, afterRepresents⟩
      rcases next with ⟨hash, store⟩
      have same := nextRepresents.store
      simp only at same
      subst same
      simp only [HashScalars.slice, asked, found, Outcome.ok_bind,
        ScalarStore.reference_eq_referenced used, ScalarStore.release_eq_released usedAgain,
        undone, rest, HashModel.slice]

theorem fillPairs {pairs : List Value} {count : ℕ} (formatFloat : BitVec 64 → Bytes)
    (even : pairs.length = 2 * count)
    (represents : state.Represents model)
    (storage : memory.calloc 1 sizeofHashItem = true)
    (stored : PairsStored formatFloat memory pairs)
    (fresh : FreshRounds state.store rounds i count) :
    ∃ after, state.fillPairs formatFloat memory rounds i pairs = .ok after ∧
      after.Represents (model.fillPairs formatFloat rounds i pairs) := by
  induction count generalizing state model i pairs with
  | zero =>
      rw [List.length_eq_zero_iff.mp even]
      exact ⟨state, rfl, represents⟩
  | succ count ih =>
      rcases exists_pair even with ⟨key, value, pairs, rfl, rest⟩
      have here := fresh.1 i (Nat.le_refl i) (by omega)
      rcases stored with ⟨named, copied, stored⟩
      have asked := keyString_eq_ok.mpr ⟨named, rfl⟩
      rcases represents.keyItem storage named here
        with ⟨next, found, nextRepresents⟩
      rcases nextRepresents.owning.owned lookup_keyItem with ⟨scalar, used, positive⟩
      have usedAgain := ScalarStore.scalars_assigned value used
      have bound := released_assigned_keyItem (key.stringValue formatFloat) value
        represents.owning (represents.store ▸ here)
      have kept := represents.owning.put (key.stringValue formatFloat) value
        (represents.store ▸ here)
      have put : (⟨next.hash,
          (model.put (rounds i) (key.stringValue formatFloat) value).store⟩ :
            HashScalars).Represents
          (model.put (rounds i) (key.stringValue formatFloat) value) := by
        refine ⟨?_, rfl, kept⟩
        rw [← bound]
        exact nextRepresents.holds
      have later : FreshRounds (model.put (rounds i) (key.stringValue formatFloat) value).store
          rounds (i + 1) count := by
        apply fresh.succ
        intro other stays apart
        rw [represents.store] at stays
        exact stays.put represents.owning here.1 apart
      rcases ih rest put stored later with ⟨after, filled, afterRepresents⟩
      refine ⟨after, ?_, afterRepresents⟩
      have store := congrArg HashModel.store bound
      simp only [HashScalars.fillPairs, asked, found, Outcome.ok_bind, nextRepresents.store,
        ScalarStore.setValue_eq_assigned used copied, ScalarStore.release_eq_released usedAgain]
      rw [← filled, ← store]

theorem fill {pairs : List Value} (formatFloat : BitVec 64 → Bytes)
    (represents : state.Represents model)
    (even : pairs.length % 2 = 0) (storage : memory.calloc 1 sizeofHashItem = true)
    (stored : PairsStored formatFloat memory pairs)
    (fresh : ∀ store, state.store.releaseAll state.hash.values = .ok store →
      FreshRounds store rounds 0 (pairs.length / 2)) :
    ∃ after, state.fill formatFloat memory rounds pairs = .ok (0, after) ∧
      after.Represents (model.clear.fillPairs formatFloat rounds 0 pairs) := by
  rcases represents.clear with ⟨store, releasing, cleared⟩
  rcases fillPairs formatFloat (show pairs.length = 2 * (pairs.length / 2) by omega)
    cleared storage stored (fresh store releasing)
    with ⟨after, filled, afterRepresents⟩
  refine ⟨after, ?_, afterRepresents⟩
  simp only [HashScalars.fill, Outcome.assertThat_of even, releasing, filled, Outcome.ok_bind]

end HashScalars.Represents

end Dang
