import Dang.Hash.Listing

/-!
# Several hashes

The hashes in use over one pool of scalars. Each owns the scalars of its items, so no two
have one in common, and filling one of them leaves the others as they are.
-/

namespace Dang

namespace HashModel

variable {model : HashModel} {s : ℕ} {key : Bytes} {formatFloat : BitVec 64 → Bytes}

/-- Looking a key up unbinds none. -/
theorem lookup_keyItem_of_bound {other : Bytes} {handle : ℕ}
    (bound : model.bindings.lookup other = some handle) :
    (model.keyItem s key).2.bindings.lookup other = some handle := by
  unfold keyItem
  cases before : model.bindings.lookup key with
  | some _ => exact bound
  | none =>
      have apart : other ≠ key := by
        rintro rfl
        rw [before] at bound
        cases bound
      exact (Finmap.lookup_insert_of_ne _ apart).trans bound

theorem lookup_slice_of_bound {rounds : ℕ → ℕ} {i : ℕ} {elements : List Value} {handle : ℕ}
    (bound : model.bindings.lookup key = some handle) :
    (model.slice formatFloat rounds i elements).2.bindings.lookup key = some handle := by
  induction elements generalizing model i with
  | nil => exact bound
  | cons element elements ih => exact ih (lookup_keyItem_of_bound bound)

/-- Slicing gives references to the scalars that the keys are bound to in the end. -/
theorem exists_slice (rounds : ℕ → ℕ) (i : ℕ) (elements : List Value) :
    ∃ handles, (model.slice formatFloat rounds i elements).1 =
        handles.map (.reference .scalar) ∧
      List.Forall₂ (fun element handle =>
        (model.slice formatFloat rounds i elements).2.bindings.lookup
          (element.stringValue formatFloat) = some handle) elements handles := by
  induction elements generalizing model i with
  | nil => exact ⟨[], rfl, List.Forall₂.nil⟩
  | cons element elements ih =>
      rcases @ih (model.keyItem (rounds i) (element.stringValue formatFloat)).2 (i + 1)
        with ⟨handles, same, bound⟩
      have first : (model.slice formatFloat rounds i (element :: elements)).2.bindings.lookup
          (element.stringValue formatFloat) =
            some (model.keyItem (rounds i) (element.stringValue formatFloat)).1 := by
        rw [slice]
        exact lookup_slice_of_bound lookup_keyItem
      refine ⟨_ :: handles, ?_, List.Forall₂.cons first bound⟩
      simp only [slice, same, List.map_cons]

/-- Binding a key binds no other scalar than the new one. -/
theorem lookup_put {value : Value} {other : Bytes} {handle : ℕ}
    (found : (model.put s key value).bindings.lookup other = some handle) :
    model.bindings.lookup other = some handle ∨ handle = s := by
  unfold put at found
  cases before : model.bindings.lookup key with
  | some bound =>
      rw [before] at found
      exact Or.inl found
  | none =>
      rw [before] at found
      by_cases same : other = key
      · subst same
        rw [Finmap.lookup_insert, Option.some.injEq] at found
        exact Or.inr found.symm
      · rw [Finmap.lookup_insert_of_ne _ same] at found
        exact Or.inl found

/-- Binding a key changes no scalar but the one it is bound to. -/
theorem scalars_put {value : Value} {other : ℕ} (nonzero : s ≠ 0)
    (unbound : ∀ bound, model.bindings.lookup bound ≠ some other) (apart : other ≠ s) :
    (model.put s key value).store.scalars other = model.store.scalars other := by
  unfold put
  cases before : model.bindings.lookup key with
  | some bound =>
      apply ScalarStore.scalars_change_of_ne
      rintro rfl
      exact unbound key before
  | none =>
      refine (ScalarStore.scalars_change_of_ne apart).trans ?_
      rw [scalars_allocate nonzero, if_neg apart]

/-- Filling binds no other scalars than those of the rounds. -/
theorem lookup_fillPairs {rounds : ℕ → ℕ} {i count : ℕ} {pairs : List Value} {handle : ℕ}
    (even : pairs.length = 2 * count)
    (found : (model.fillPairs formatFloat rounds i pairs).bindings.lookup key = some handle) :
    model.bindings.lookup key = some handle ∨ ∃ j, i ≤ j ∧ j < i + count ∧ handle = rounds j := by
  induction count generalizing model i pairs with
  | zero =>
      rw [List.length_eq_zero_iff.mp even] at found
      exact Or.inl found
  | succ count ih =>
      rcases exists_pair even with ⟨first, new, pairs, rfl, rest⟩
      rw [fillPairs] at found
      rcases ih rest found with before | ⟨j, lower, upper, same⟩
      · rcases lookup_put before with before | same
        · exact Or.inl before
        · exact Or.inr ⟨i, Nat.le_refl i, by omega, same⟩
      · exact Or.inr ⟨j, by omega, by omega, same⟩

/-- Filling changes no scalar that is neither bound nor one of the rounds. -/
theorem scalars_fillPairs {rounds : ℕ → ℕ} {i count : ℕ} {pairs : List Value} {other : ℕ}
    (even : pairs.length = 2 * count) (nonzero : ∀ j, i ≤ j → j < i + count → rounds j ≠ 0)
    (unbound : ∀ bound, model.bindings.lookup bound ≠ some other)
    (apart : ∀ j, i ≤ j → j < i + count → other ≠ rounds j) :
    (model.fillPairs formatFloat rounds i pairs).store.scalars other =
      model.store.scalars other := by
  induction count generalizing model i pairs with
  | zero =>
      rw [List.length_eq_zero_iff.mp even]
      rfl
  | succ count ih =>
      rcases exists_pair even with ⟨first, new, pairs, rfl, rest⟩
      have here := apart i (Nat.le_refl i) (by omega)
      rw [fillPairs, ih rest]
      · exact scalars_put (nonzero i (Nat.le_refl i) (by omega)) unbound here
      · intro j lower upper
        exact nonzero j (by omega) (by omega)
      · intro bound found
        rcases lookup_put found with before | same
        · exact unbound bound before
        · exact here same
      · intro j lower upper
        exact apart j (by omega) (by omega)

end HashModel

/-- What `hash_fill` leaves of the old and the new scalars. -/
theorem HashScalars.Represents.refill {state : HashScalars} {model : HashModel} {memory : Memory}
    {s : ℕ → ℕ} {count : ℕ} {pairs : List Value} (formatFloat : BitVec 64 → Bytes)
    (represents : state.Represents model) (even : pairs.length = 2 * count)
    (storage : 0 < count → memory.calloc 1 sizeofHashItem = true)
    (stored : HashScalars.PairsStored formatFloat memory pairs)
    (fresh : ∀ store, state.store.releaseAll state.hash.values = .ok store →
      HashModel.FreshRounds store s 0 count) :
    ∃ filled after released, state.fill formatFloat memory s pairs = .ok (0, filled) ∧
      filled.Represents after ∧ (∀ key, after.value key = lastValue formatFloat key pairs) ∧
      state.store.releaseAll state.hash.values = .ok released ∧
      (∀ key bound, after.bindings.lookup key = some bound → ∃ j < count, bound = s j) ∧
      ∀ other, (∀ j < count, other ≠ s j) →
        filled.store.scalars other = released.scalars other := by
  rcases represents.clear with ⟨released, releasing, cleared⟩
  have same : released = model.clear.store := cleared.store
  have filling : ∃ filled, state.fill formatFloat memory s pairs = .ok (0, filled) ∧
      filled.Represents (model.clear.fillPairs formatFloat s 0 pairs) := by
    have pairwise : pairs.length % 2 = 0 := by omega
    have halves : pairs.length / 2 = count := by omega
    rw [← halves] at fresh
    rcases Nat.eq_zero_or_pos count with zero | positive
    · rw [zero, Nat.mul_zero, List.length_eq_zero_iff] at even
      subst even
      -- No pair is put, whatever storage there is.
      have ample : Memory.ample.calloc 1 sizeofHashItem = true := by decide
      have nothing := represents.fill formatFloat pairwise ample trivial fresh
      exact nothing
    · exact represents.fill formatFloat pairwise (storage positive) stored fresh
  rcases filling with ⟨filled, done, after⟩
  have new := fresh released releasing
  have nonzero : ∀ j, 0 ≤ j → j < 0 + count → s j ≠ 0 := by
    intro j lower upper
    exact (new.1 j lower upper).1
  have unbound : ∀ (bound : Bytes) (other : ℕ), model.clear.bindings.lookup bound ≠ some other := by
    intro bound other found
    simp [HashModel.clear] at found
  refine ⟨filled, _, released, done, after, ?_, releasing, ?_, ?_⟩
  · intro key
    rw [HashModel.value_fillPairs even HashModel.Owning.clear (same ▸ new)]
    simp [HashModel.value, HashModel.clear]
  · intro key bound found
    rcases HashModel.lookup_fillPairs even found with old | ⟨j, _, upper, last⟩
    · exact absurd old (unbound key bound)
    · exact ⟨j, by omega, last⟩
  · intro other apart
    rw [after.store, same, HashModel.scalars_fillPairs even nonzero (fun bound => unbound bound other)
      (fun j _ upper => apart j (by omega))]

namespace HashScalars

/-- The pairs of items, in order. -/
def pairsOf (store : ScalarStore Value) (items : List HashItem) : List Value :=
  items.flatMap fun item => [keyOf item, valueOf store item]

variable {state : HashScalars} {model : HashModel} {store : ScalarStore Value}
  {items : List HashItem} {formatFloat : BitVec 64 → Bytes} {key : Bytes}

theorem length_pairsOf : (pairsOf store items).length = 2 * items.length := by
  induction items with
  | nil => rfl
  | cons item items ih =>
      rw [pairsOf, List.flatMap_cons, List.length_append, ← pairsOf, ih, List.length_cons]
      simp only [List.length_cons, List.length_nil]
      omega

/-- The first of the pairs is a key. -/
theorem pairsOf_eq_cons {first : Value} {rest : List Value}
    (split : pairsOf store items = first :: rest) : ∃ key, first = .string key := by
  cases items with
  | nil => cases split
  | cons item items =>
      rw [pairsOf, List.flatMap_cons, List.cons_append, List.cons.injEq] at split
      exact ⟨item.1, split.1.symm⟩

/-- A key without an item has no value in the pairs. -/
theorem lastValue_pairsOf_none (absent : key ∉ items.map Prod.fst) :
    lastValue formatFloat key (pairsOf store items) = none := by
  induction items with
  | nil => rfl
  | cons item items ih =>
      rw [List.map_cons, List.mem_cons, not_or] at absent
      have later := ih absent.2
      have other : ¬(keyOf item).stringValue formatFloat = key := fun same => absent.1 same.symm
      simp only [pairsOf, List.flatMap_cons, List.cons_append, List.nil_append, lastValue, other,
        if_false, Option.or_none]
      exact later

/-- The key of an item has the value of the item in the pairs, if the keys are different. -/
theorem lastValue_pairsOf {item : HashItem} (distinct : (items.map Prod.fst).Nodup)
    (mem : item ∈ items) :
    lastValue formatFloat item.1 (pairsOf store items) = some (valueOf store item) := by
  induction items with
  | nil => cases mem
  | cons first items ih =>
      rw [List.map_cons, List.nodup_cons] at distinct
      rcases List.mem_cons.mp mem with rfl | later
      · have unlisted : lastValue formatFloat item.1 (pairsOf store items) = none :=
          lastValue_pairsOf_none distinct.1
        have here : (keyOf item).stringValue formatFloat = item.1 := rfl
        simp only [pairsOf, List.flatMap_cons, List.cons_append, List.nil_append, lastValue, here,
          if_true]
        rw [← pairsOf, unlisted, Option.none_or]
      · simp only [pairsOf, List.flatMap_cons, List.cons_append, List.nil_append, lastValue]
        rw [← pairsOf, ih distinct.2 later, Option.some_or]

/-- There is storage for copies of the pairs exactly if there is for each key and its value. -/
theorem Represents.copies_iff {memory : Memory} (represents : state.Represents model) :
    model.Copies memory ↔
      ∀ value ∈ pairsOf state.store (chains state.hash).flatten, Stored memory value := by
  constructor
  · intro copies value mem
    rcases List.mem_flatMap.mp mem with ⟨item, listed, either⟩
    rcases represents.exists_scalar listed with ⟨scalar, used, bound⟩
    rcases copies item.1 scalar.value bound with ⟨stores, stored⟩
    rcases List.mem_pair.mp either with rfl | rfl
    · exact stored_string.mpr stores
    · simp only [valueOf, used, Option.map_some, Option.getD_some]
      exact stored
  · intro stored key value bound
    rcases represents.exists_item bound with ⟨handle, scalar, listed, used, rfl⟩
    have both : ∀ value ∈ [keyOf (key, handle), valueOf state.store (key, handle)],
        Stored memory value := by
      intro value mem
      exact stored value (List.mem_flatMap.mpr ⟨_, listed, mem⟩)
    rw [List.forall_mem_cons, List.forall_mem_singleton] at both
    simp only [valueOf, used, Option.map_some, Option.getD_some] at both
    exact ⟨stored_string.mp both.1, both.2⟩

/-- The keys of the pairs are strings, so that what `hash_fill` asks for is what copies do. -/
theorem pairsStored_iff {memory : Memory} : PairsStored formatFloat memory (pairsOf store items) ↔
    ∀ value ∈ pairsOf store items, Stored memory value := by
  induction items with
  | nil => exact iff_of_true trivial fun value mem => absurd mem List.not_mem_nil
  | cons item items ih =>
      have head : Stored memory (keyOf item) ↔ memory.Stores item.1 := stored_string
      simp only [pairsOf, List.flatMap_cons, List.cons_append, List.nil_append, PairsStored,
        List.forall_mem_cons, head]
      exact and_congr_right' (and_congr_right' ih)

/-- The pairs of all items give each key its value. -/
theorem Represents.lastValue_pairs (formatFloat : BitVec 64 → Bytes)
    (represents : state.Represents model) (key : Bytes) :
    lastValue formatFloat key (pairsOf state.store (chains state.hash).flatten) =
      model.value key := by
  have keys := represents.keys_eq
  have distinct : ((chains state.hash).flatten.map Prod.fst).Nodup := by
    rw [← Multiset.coe_nodup, keys]
    exact model.bindings.keys.nodup
  rcases Decidable.em (key ∈ (chains state.hash).flatten.map Prod.fst) with listed | absent
  · rcases List.mem_map.mp listed with ⟨item, mem, rfl⟩
    rcases represents.exists_scalar mem with ⟨scalar, used, value⟩
    rw [lastValue_pairsOf distinct mem, value, valueOf, used]
    rfl
  · have unbound : key ∉ model.bindings := by
      rw [← Finmap.mem_keys, ← Finset.mem_val, ← keys]
      exact absent
    rw [lastValue_pairsOf_none absent, HashModel.value, Finmap.lookup_eq_none.mpr unbound]
    rfl

end HashScalars

namespace HashScalars

variable {state after : HashScalars} {memory : Memory} {key : Bytes}
  {formatFloat : BitVec 64 → Bytes} {status : ℤ} {pairs : List Value}

/-- Looking a key up adds one item at most. -/
theorem size_keyItem {s handle : ℕ}
    (success : state.keyItem memory s key = .ok (handle, after)) :
    after.hash.size ≤ state.hash.size + 1 := by
  have new : state.newItem memory s key = .ok (handle, after) →
      after.hash.size ≤ state.hash.size + 1 := by
    intro success
    simp only [newItem] at success
    split at success
    case isTrue =>
      simp only [Outcome.bind_eq_ok, Prod.exists, Except.ok.injEq, Prod.mk.injEq] at success
      rcases success with ⟨copy, copied, _, store, _, _, rfl⟩
      have same := (dupBytes_eq_ok.mp copied).2.symm
      subst same
      have sizes := HashT.size_setBucket state.hash key
        { count := if (state.hash.bucket key).items = [] then 1
            else (state.hash.bucket key).count + 1
          items := (state.hash.bucket key).passed key ++
            (key, s) :: (state.hash.bucket key).reached key }
      have larger : (if (state.hash.bucket key).items = [] then 1
          else (state.hash.bucket key).count + 1) ≤ (state.hash.bucket key).count + 1 := by
        split
        case isTrue => exact Nat.le_add_left 1 _
        case isFalse => exact Nat.le_refl _
      simp only at sizes ⊢
      omega
    case isFalse =>
      simp only [Except.ok.injEq, Prod.mk.injEq] at success
      rcases success with ⟨_, rfl⟩
      exact Nat.le_succ _
  simp only [keyItem] at success
  split at success
  case h_1 =>
    split at success
    case isTrue =>
      simp only [Outcome.bind_eq_ok, Prod.exists, Except.ok.injEq, Prod.mk.injEq] at success
      rcases success with ⟨_, store, _, _, rfl⟩
      exact Nat.le_succ _
    case isFalse => exact new success
  case h_2 => exact new success

/-- Filling adds one item at most for each pair. -/
theorem size_fillPairs {s : ℕ → ℕ} {i count : ℕ} (even : pairs.length = 2 * count)
    (success : state.fillPairs formatFloat memory s i pairs = .ok after) :
    after.hash.size ≤ state.hash.size + count := by
  induction count generalizing state i pairs with
  | zero =>
      rw [List.length_eq_zero_iff.mp even, fillPairs, Except.ok.injEq] at success
      rw [success]
      omega
  | succ count ih =>
      rcases HashModel.exists_pair even with ⟨key, value, pairs, rfl, rest⟩
      simp only [fillPairs, Outcome.bind_eq_ok, Prod.exists] at success
      rcases success with ⟨_, _, handle, next, found, stored, _, store, _, filling⟩
      have once := size_keyItem found
      have others := ih rest filling
      simp only at others
      omega

/-- A hash that was filled has one item at most for each pair. -/
theorem size_fill {s : ℕ → ℕ}
    (success : state.fill formatFloat memory s pairs = .ok (status, after)) :
    2 * after.hash.size ≤ pairs.length := by
  simp only [fill, Outcome.bind_eq_ok, Except.ok.injEq, Prod.mk.injEq] at success
  rcases success with ⟨_, asserted, store, _, filled, filling, _, rfl⟩
  have even := Outcome.assertThat_eq_ok.mp asserted
  have few := size_fillPairs (show pairs.length = 2 * (pairs.length / 2) by omega) filling
  have none := HashT.init_holds.size
  simp only [none, Finmap.keys_empty, Finset.card_empty] at few
  omega

/-- An item is allocated if there is a pair. -/
theorem storage_of_fill {s : ℕ → ℕ} (absent : state.store.scalars 0 = none)
    (outside : 0 ∉ state.hash.values) (nonempty : pairs ≠ [])
    (success : state.fill formatFloat memory s pairs = .ok (status, after)) :
    memory.calloc 1 sizeofHashItem = true := by
  simp only [fill, Outcome.bind_eq_ok] at success
  rcases success with ⟨_, _, released, releasing, filled, filling, _⟩
  have still := (ScalarStore.releaseAll_frame releasing outside).trans absent
  by_contra failed
  rcases pairs with _ | ⟨key, _ | ⟨value, pairs⟩⟩
  · exact nonempty rfl
  · cases filling
  · simp only [fillPairs, Outcome.bind_eq_ok] at filling
    rcases filling with ⟨named, asked, _, found, _, set, _⟩
    rcases keyString_eq_ok.mp asked with ⟨_, rfl⟩
    have refused : keyItem memory (s 0) ⟨.init, released⟩ (key.stringValue formatFloat) =
        .ok (0, ⟨.init, released⟩) := by
      simp only [keyItem, newItem, failed, if_false]
      rfl
    rw [refused, Except.ok.injEq] at found
    subst found
    simp only [ScalarStore.setValue, still] at set
    cases set

/-- Filling a hash asks for the strings of the keys and for copies of the values. -/
theorem stored_of_fillPairs {s : ℕ → ℕ} {i count : ℕ} (even : pairs.length = 2 * count)
    (success : state.fillPairs formatFloat memory s i pairs = .ok after) :
    PairsStored formatFloat memory pairs := by
  induction count generalizing state i pairs with
  | zero =>
      rw [List.length_eq_zero_iff.mp even]
      exact trivial
  | succ count ih =>
      rcases HashModel.exists_pair even with ⟨key, value, pairs, rfl, rest⟩
      simp only [fillPairs, Outcome.bind_eq_ok, Prod.exists] at success
      rcases success with ⟨_, asked, handle, next, _, stored, set, store, _, filling⟩
      refine ⟨(keyString_eq_ok.mp asked).1, ?_, ih rest filling⟩
      cases used : next.store.scalars handle with
      | none => simp [ScalarStore.setValue, used] at set
      | some scalar =>
          simp only [ScalarStore.setValue, used] at set
          rcases Outcome.bind_eq_ok.mp set with ⟨copy, copied, _⟩
          exact (Value.clone_eq_ok.mp copied).1

theorem stored_of_fill {s : ℕ → ℕ}
    (success : state.fill formatFloat memory s pairs = .ok (status, after)) :
    PairsStored formatFloat memory pairs := by
  simp only [fill, Outcome.bind_eq_ok] at success
  rcases success with ⟨_, asserted, _, _, filled, filling, _⟩
  have even := Outcome.assertThat_eq_ok.mp asserted
  exact stored_of_fillPairs (show pairs.length = 2 * (pairs.length / 2) by omega) filling

end HashScalars

/-- The pool of hashes, those in use, and the pool of scalars. -/
structure HashHeap where
  hashes : ℕ → Option HashT
  store : ScalarStore Value

namespace HashHeap

variable {β : Type}

/-- The heap with one hash replaced, and the scalars. -/
def put (heap : HashHeap) (handle : ℕ) (state : HashScalars) : HashHeap where
  hashes := Function.update heap.hashes handle (some state.hash)
  store := state.store

/-- What the public functions do around their bodies, which lock the hash. -/
def onHash (heap : HashHeap) (handle : ℕ)
    (body : HashScalars → Outcome (β × HashScalars)) : Outcome (β × HashHeap) :=
  match heap.hashes handle with
  | some hash => do
      let (result, state) ← body ⟨hash, heap.store⟩
      .ok (result, heap.put handle state)
  | none => .error .assertion

/-- `hash_list_pairs`: the status, and the pairs and their count passed back. -/
def listPairs (memory : Memory) (heap : HashHeap) (handle : ℕ) :
    Outcome ((ℤ × Option (List Value × ℕ)) × HashHeap) :=
  heap.onHash handle fun state => do
    let answer ← state.listPairs memory
    .ok (answer, state)

/-- `hash_fill` -/
def fill (formatFloat : BitVec 64 → Bytes) (memory : Memory) (s : ℕ → ℕ) (heap : HashHeap)
    (handle : ℕ) (pairs : List Value) : Outcome (ℤ × HashHeap) :=
  heap.onHash handle fun state => state.fill formatFloat memory s pairs

/-- `hash_slice`: what it makes of the elements. -/
def slice (formatFloat : BitVec 64 → Bytes) (memory : Memory) (s : ℕ → ℕ) (heap : HashHeap)
    (handle : ℕ) (elements : List Value) : Outcome (List Value × HashHeap) :=
  heap.onHash handle fun state => state.slice formatFloat memory s 0 elements

/-- The hashes hold finite maps, of which each binding owns a scalar of its own. -/
structure Represents (heap : HashHeap) (bindings : ℕ → Bindings) : Prop where
  holds : ∀ {handle hash}, heap.hashes handle = some hash → hash.Holds (bindings handle)
  owned : ∀ {handle hash key s}, heap.hashes handle = some hash →
    (bindings handle).lookup key = some s →
      ∃ scalar, heap.store.scalars s = some scalar ∧ 0 < scalar.references
  distinct : ∀ {handle hash key other second otherKey s}, heap.hashes handle = some hash →
    heap.hashes other = some second → (bindings handle).lookup key = some s →
      (bindings other).lookup otherKey = some s → handle = other ∧ key = otherKey

variable {heap after : HashHeap} {bindings : ℕ → Bindings} {handle : ℕ} {hash : HashT}

theorem hashes_put_self (state : HashScalars) :
    (heap.put handle state).hashes handle = some state.hash :=
  Function.update_self _ _ _

theorem hashes_put_of_ne {other : ℕ} (state : HashScalars) (apart : other ≠ handle) :
    (heap.put handle state).hashes other = heap.hashes other :=
  Function.update_of_ne apart _ _

/-- Putting back what is there changes nothing. -/
theorem put_self (inUse : heap.hashes handle = some hash) :
    heap.put handle ⟨hash, heap.store⟩ = heap := by
  rw [put, ← inUse, Function.update_eq_self]

/-- Each hash represents its map. -/
theorem Represents.state (represents : heap.Represents bindings)
    (inUse : heap.hashes handle = some hash) :
    (⟨hash, heap.store⟩ : HashScalars).Represents ⟨bindings handle, heap.store⟩ where
  holds := represents.holds inUse
  store := rfl
  owning :=
    { owned := represents.owned inUse
      distinct := fun first second => (represents.distinct inUse inUse first second).2 }

/-- A function on one hash keeps the others when it changes none of their scalars, and takes
none of them. -/
theorem Represents.put (represents : heap.Represents bindings) {state : HashScalars}
    {model : HashModel} (done : state.Represents model)
    (frame : ∀ {other second key s}, heap.hashes other = some second → other ≠ handle →
      (bindings other).lookup key = some s → state.store.scalars s = heap.store.scalars s ∧
        ∀ bound, model.bindings.lookup bound ≠ some s) :
    (heap.put handle state).Represents (Function.update bindings handle model.bindings) where
  holds {other second} found := by
    rcases Decidable.em (other = handle) with rfl | apart
    · rw [hashes_put_self, Option.some.injEq] at found
      rw [Function.update_self, ← found]
      exact done.holds
    · rw [hashes_put_of_ne _ apart] at found
      rw [Function.update_of_ne apart]
      exact represents.holds found
  owned {other second key s} found bound := by
    rcases Decidable.em (other = handle) with rfl | apart
    · rw [Function.update_self] at bound
      simp only [HashHeap.put, done.store]
      exact done.owning.owned bound
    · rw [hashes_put_of_ne _ apart] at found
      rw [Function.update_of_ne apart] at bound
      simp only [HashHeap.put, (frame found apart bound).1]
      exact represents.owned found bound
  distinct {first firstHash key second secondHash otherKey s} firstFound secondFound bound
      otherBound := by
    rcases Decidable.em (first = handle) with rfl | isFirst
    · rw [Function.update_self] at bound
      rcases Decidable.em (second = first) with rfl | isSecond
      · rw [Function.update_self] at otherBound
        exact ⟨rfl, done.owning.distinct bound otherBound⟩
      · rw [hashes_put_of_ne _ isSecond] at secondFound
        rw [Function.update_of_ne isSecond] at otherBound
        exact absurd bound ((frame secondFound isSecond otherBound).2 key)
    · rw [hashes_put_of_ne _ isFirst] at firstFound
      rw [Function.update_of_ne isFirst] at bound
      rcases Decidable.em (second = handle) with rfl | isSecond
      · rw [Function.update_self] at otherBound
        exact absurd otherBound ((frame firstFound isFirst bound).2 otherKey)
      · rw [hashes_put_of_ne _ isSecond] at secondFound
        rw [Function.update_of_ne isSecond] at otherBound
        exact represents.distinct firstFound secondFound bound otherBound

/-- Filling a hash gives each key the last value there is for it, binds no other key, and leaves
the other hashes as they are. The scalars bound before were each released once; those bound now
are the new ones, and all others are as they were. -/
theorem Represents.fill {memory : Memory} {s : ℕ → ℕ} {count : ℕ} {pairs : List Value}
    (formatFloat : BitVec 64 → Bytes) (represents : heap.Represents bindings)
    (inUse : heap.hashes handle = some hash) (even : pairs.length = 2 * count)
    (storage : 0 < count → memory.calloc 1 sizeofHashItem = true)
    (stored : HashScalars.PairsStored formatFloat memory pairs)
    (fresh : ∀ store, heap.store.releaseAll hash.values = .ok store →
      HashModel.FreshRounds store s 0 count) :
    ∃ after copy released, heap.fill formatFloat memory s handle pairs = .ok (0, after) ∧
      after.Represents (Function.update bindings handle copy) ∧
      (∀ other ≠ handle, after.hashes other = heap.hashes other) ∧
      (∀ key, HashModel.value ⟨copy, after.store⟩ key = lastValue formatFloat key pairs) ∧
      heap.store.releaseAll hash.values = .ok released ∧
      (∀ key bound, copy.lookup key = some bound → ∃ j < count, bound = s j) ∧
      ∀ other, (∀ j < count, other ≠ s j) →
        after.store.scalars other = released.scalars other := by
  rcases (represents.state inUse).refill formatFloat even storage stored fresh with
    ⟨filled, model, released, done, after, values, releasing, origin, frame⟩
  refine ⟨heap.put handle filled, model.bindings, released, ?_, represents.put after ?_, ?_, ?_,
    releasing, origin, frame⟩
  · simp only [HashHeap.fill, onHash, inUse, done, Outcome.ok_bind]
  · intro other second key scalar found apart bound
    rcases represents.owned found bound with ⟨carried, used, _⟩
    have elsewhere : scalar ∉ hash.values := by
      intro mem
      rcases (represents.holds inUse).mem_values.mp mem with ⟨own, _, ownBound⟩
      exact apart (represents.distinct found inUse bound ownBound).1
    have kept := ScalarStore.releaseAll_frame releasing elsewhere
    have notNew : ∀ j < count, scalar ≠ s j := by
      rintro j below rfl
      have absent := ((fresh released releasing).1 j (Nat.zero_le j) (by omega)).2
      rw [kept, used] at absent
      cases absent
    refine ⟨(frame scalar notNew).trans kept, ?_⟩
    intro key copied
    rcases origin key scalar copied with ⟨j, below, same⟩
    exact notNew j below same
  · intro other apart
    exact hashes_put_of_ne _ apart
  · intro key
    rw [← values key]
    rcases model with ⟨copy, store⟩
    rw [HashHeap.put, after.store]

/-- Slicing a hash leaves references to the scalars that the keys are bound to. -/
theorem Represents.slice {memory : Memory} {s : ℕ → ℕ} {elements : List Value}
    (formatFloat : BitVec 64 → Bytes) (represents : heap.Represents bindings)
    (inUse : heap.hashes handle = some hash)
    (storage : memory.calloc 1 sizeofHashItem = true)
    (named : ∀ element ∈ elements, memory.Stores (element.stringValue formatFloat))
    (fresh : HashModel.FreshRounds heap.store s 0 elements.length) :
    ∃ handles after sliced bound, heap.slice formatFloat memory s handle elements =
        .ok (handles.map (.reference .scalar), after) ∧
      after.hashes handle = some sliced ∧ sliced.Holds bound ∧
      List.Forall₂ (fun element handle =>
        bound.lookup (element.stringValue formatFloat) = some handle) elements handles := by
  rcases (represents.state inUse).slice formatFloat storage named fresh with ⟨state, done, after⟩
  rcases @HashModel.exists_slice ⟨bindings handle, heap.store⟩ formatFloat s 0 elements with
    ⟨handles, same, bound⟩
  refine ⟨handles, heap.put handle state, state.hash, _, ?_, hashes_put_self state, after.holds,
    bound⟩
  simp only [HashHeap.slice, onHash, inUse, done, Outcome.ok_bind, same]

/-- Without storage for the list there is none. -/
theorem listPairs_refused (inUse : heap.hashes handle = some hash) {memory : Memory}
    (refused : ¬memory.calloc (2 * hash.size) sizeofScalar = true) :
    heap.listPairs memory handle = .ok ((-1, none), heap) := by
  simp only [listPairs, onHash, inUse, HashScalars.listPairs, HashScalars.list, refused,
    Bool.false_eq_true, if_false, Outcome.ok_bind, put_self inUse]

/-- The pairs of a hash are listed, unless there is no storage for the list. -/
theorem Represents.listPairs_eq (represents : heap.Represents bindings)
    (inUse : heap.hashes handle = some hash) {memory : Memory}
    (copies : HashModel.Copies memory ⟨bindings handle, heap.store⟩) :
    heap.listPairs memory handle = .ok
      (if memory.calloc (2 * hash.size) sizeofScalar = true then
        (0, some (HashScalars.pairsOf heap.store (HashScalars.chains hash).flatten,
          2 * hash.size))
      else (-1, none), heap) := by
  have state := represents.state inUse
  split
  case isTrue storage =>
    simp only [listPairs, onHash, inUse, state.listPairs_eq copies storage, Outcome.ok_bind,
      put_self inUse]
    rfl
  case isFalse refused => exact listPairs_refused inUse refused

/-- What a public function did, if it returned. -/
theorem onHash_eq_ok {result : β} {body : HashScalars → Outcome (β × HashScalars)}
    (success : heap.onHash handle body = .ok (result, after)) :
    ∃ hash state, heap.hashes handle = some hash ∧
      body ⟨hash, heap.store⟩ = .ok (result, state) ∧ after = heap.put handle state := by
  unfold onHash at success
  cases inUse : heap.hashes handle with
  | none =>
      rw [inUse] at success
      cases success
  | some hash =>
      simp only [inUse, Outcome.bind_eq_ok, Prod.exists, Except.ok.injEq, Prod.mk.injEq] at success
      rcases success with ⟨_, state, done, rfl, rfl⟩
      exact ⟨hash, state, rfl, done, rfl⟩

/-- What a listing of the pairs is, if it returns. -/
theorem Represents.listPairs_eq_ok (represents : heap.Represents bindings)
    (inUse : heap.hashes handle = some hash) {memory : Memory}
    {answer : ℤ × Option (List Value × ℕ)}
    (success : heap.listPairs memory handle = .ok (answer, after)) :
    after = heap ∧ (answer = (-1, none) ∨
      memory.calloc (2 * hash.size) sizeofScalar = true ∧
        HashModel.Copies memory ⟨bindings handle, heap.store⟩ ∧
        answer = (0, some (HashScalars.pairsOf heap.store (HashScalars.chains hash).flatten,
          2 * hash.size))) := by
  by_cases storage : memory.calloc (2 * hash.size) sizeofScalar = true
  · have copies : HashModel.Copies memory ⟨bindings handle, heap.store⟩ := by
      rcases onHash_eq_ok success with ⟨own, state, found, listed, _⟩
      rw [inUse, Option.some.injEq] at found
      subst found
      rcases Outcome.bind_eq_ok.mp listed with ⟨⟨status, passed⟩, lists, _⟩
      have whole := lists
      unfold HashScalars.listPairs HashScalars.list at lists
      simp only [storage, if_true] at lists
      rcases Outcome.bind_eq_ok.mp lists with ⟨results, _, result⟩
      cases result
      exact (represents.state inUse).copies_of_listPairs whole
    rw [represents.listPairs_eq inUse copies, if_pos storage, Except.ok.injEq,
      Prod.mk.injEq] at success
    rcases success with ⟨rfl, rfl⟩
    exact ⟨rfl, Or.inr ⟨storage, copies, rfl⟩⟩
  · rw [listPairs_refused inUse storage, Except.ok.injEq, Prod.mk.injEq] at success
    rcases success with ⟨rfl, rfl⟩
    exact ⟨rfl, Or.inl rfl⟩

/-- A key is bound if it has a value. -/
theorem Represents.mem_iff_value (represents : heap.Represents bindings)
    (inUse : heap.hashes handle = some hash) (key : Bytes) :
    key ∈ bindings handle ↔ HashModel.value ⟨bindings handle, heap.store⟩ key ≠ none := by
  constructor
  · intro mem
    rcases Finmap.mem_iff.mp mem with ⟨s, found⟩
    rcases represents.owned inUse found with ⟨scalar, used, _⟩
    simp [HashModel.value, found, used]
  · intro value
    by_contra unbound
    apply value
    rw [HashModel.value, Finmap.lookup_eq_none.mpr unbound]
    rfl

/-- Hashes with the same values have the same size. -/
theorem Represents.size_eq {other : ℕ} {copy : HashT} {copied : ℕ → Bindings}
    (represents : heap.Represents bindings) (inUse : heap.hashes handle = some hash)
    (copies : after.Represents copied) (copyInUse : after.hashes other = some copy)
    (same : ∀ key, HashModel.value ⟨copied other, after.store⟩ key =
      HashModel.value ⟨bindings handle, heap.store⟩ key) : copy.size = hash.size := by
  rw [(copies.holds copyInUse).size, (represents.holds inUse).size]
  congr 1
  apply Finset.ext
  intro key
  rw [Finmap.mem_keys, Finmap.mem_keys, copies.mem_iff_value copyInUse,
    represents.mem_iff_value inUse, same]

/-- A hash is only filled with pairs. -/
theorem even_of_fill {formatFloat : BitVec 64 → Bytes} {memory : Memory} {s : ℕ → ℕ} {status : ℤ}
    {pairs : List Value}
    (success : heap.fill formatFloat memory s handle pairs = .ok (status, after)) :
    pairs.length % 2 = 0 := by
  rcases onHash_eq_ok success with ⟨hash, state, _, done, _⟩
  rcases Outcome.bind_eq_ok.mp done with ⟨_, even, _⟩
  exact Outcome.assertThat_eq_ok.mp even

end HashHeap

end Dang
