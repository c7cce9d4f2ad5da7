import Dang.Foundations.ChainTable
import Dang.Hash.Calls

/-!
# Listings of a hash

`hash_list_keys`, `hash_list_values` and `hash_list_pairs` walk over the buckets and count
the items they have listed. The first two take that count for the number of the bucket.
References of the values listed are not followed.
-/

namespace Dang

namespace HashScalars

section Loops

variable (put : HashItem → ℕ → List Value → Outcome (List Value)) (n : ℕ)

/-- The loop over the items of a bucket, with `i` items listed so far. -/
def listItems : List HashItem → ℕ → List Value → Outcome (ℕ × List Value)
  | [], i, results => .ok (i, results)
  | item :: items, i, results =>
      if i < n then do
        let results ← put item i results
        listItems items (i + 1) results
      else .ok (i, results)

/-- What a round does with the bucket it reads. -/
def listBucket (bucket : HashBucket) (i : ℕ) (results : List Value) :
    Outcome (ℕ × List Value) :=
  if 0 < bucket.count then listItems put n bucket.items i results else .ok (i, results)

/-- The loop over the buckets, for the rounds left until the last. `index` is the index of the
bucket that is read. -/
def listBuckets (index : ℕ → ℕ → ℕ) (hash : HashT) :
    ℕ → ℕ → ℕ → List Value → Outcome (List Value)
  | 0, _, _, results => .ok results
  | rounds + 1, bucket, i, results =>
      if i < n then
        if inside : index bucket i < 256 then do
          let (i, results) ← listBucket put n (hash.buckets ⟨index bucket i, inside⟩) i results
          listBuckets index hash rounds (bucket + 1) i results
        else .error .invalidAccess
      else .ok results

end Loops

/-- What a listing returns, and passes back if it is zero: `width` scalars for each item. -/
def list (put : HashItem → ℕ → List Value → Outcome (List Value)) (index : ℕ → ℕ → ℕ)
    (width : ℕ) (memory : Memory) (state : HashScalars) :
    Outcome (ℤ × Option (List Value × ℕ)) :=
  let n := state.hash.size
  if memory.calloc (width * n) sizeofScalar then do
    let results ← listBuckets put n index state.hash 256 0 0
      (List.replicate (width * n) .undefined)
    .ok (0, some (results, width * n))
  else .ok (-1, none)

/-- `anon_scalar_set_string_value` with the key of an item. -/
def putKey (memory : Memory) (item : HashItem) (i : ℕ) (keys : List Value) :
    Outcome (List Value) := do
  let key ← dupBytes memory item.1
  .ok (keys.set i (.string key))

/-- `scalar_get_value` of the value of an item. -/
def putValue (memory : Memory) (store : ScalarStore Value) (item : HashItem) (i : ℕ)
    (values : List Value) : Outcome (List Value) := do
  let value ← store.getValue memory item.2
  .ok (values.set i value)

/-- `hash_list_keys` -/
def listKeys (memory : Memory) (state : HashScalars) : Outcome (ℤ × Option (List Value × ℕ)) :=
  list (putKey memory) (fun _ i => i) 1 memory state

/-- `hash_list_values` -/
def listValues (memory : Memory) (state : HashScalars) :
    Outcome (ℤ × Option (List Value × ℕ)) :=
  list (putValue memory state.store) (fun _ i => i) 1 memory state

/-- `hash_list_pairs` -/
def listPairs (memory : Memory) (state : HashScalars) :
    Outcome (ℤ × Option (List Value × ℕ)) :=
  list (fun item i pairs => do
      let pairs ← putKey memory item (2 * i) pairs
      putValue memory state.store item (2 * i + 1) pairs)
    (fun bucket _ => bucket) 2 memory state

/-- What a listing puts into the array for an item. -/
structure Puts (put : HashItem → ℕ → List Value → Outcome (List Value)) (width : ℕ)
    (entry : HashItem → List Value) (item : HashItem) : Prop where
  length : (entry item).length = width
  put_eq : ∀ i listed rest, listed.length = width * i →
    put item i (listed ++ (List.replicate width .undefined ++ rest)) =
      .ok (listed ++ (entry item ++ rest))

variable {put : HashItem → ℕ → List Value → Outcome (List Value)} {width n : ℕ}
  {entry : HashItem → List Value}

theorem length_flatMap_entry {items : List HashItem}
    (puts : ∀ item ∈ items, Puts put width entry item) :
    (items.flatMap entry).length = width * items.length := by
  induction items with
  | nil => rfl
  | cons item items ih =>
      have first := (puts item List.mem_cons_self).length
      have rest := ih fun other mem => puts other (List.mem_cons_of_mem _ mem)
      rw [List.flatMap_cons, List.length_append, first, rest, List.length_cons, Nat.mul_succ,
        Nat.add_comm]

/-- The loop over the items of a bucket lists as many of them as there is room `left`. -/
theorem listItems_eq {items : List HashItem} {i : ℕ} {listed : List Value} (left : ℕ)
    (puts : ∀ item ∈ items, Puts put width entry item) (length : listed.length = width * i) :
    listItems put (i + left) items i (listed ++ List.replicate (width * left) .undefined) =
      .ok (i + (items.take left).length,
        listed ++ (items.take left).flatMap entry ++
          List.replicate (width * (left - (items.take left).length)) .undefined) := by
  induction items generalizing i left listed with
  | nil => simp [listItems]
  | cons item items ih =>
      cases left with
      | zero => simp [listItems]
      | succ left =>
          have here := puts item List.mem_cons_self
          have grown : (listed ++ entry item).length = width * (i + 1) := by
            rw [List.length_append, length, here.length, Nat.mul_succ]
          have rest := ih left (fun other mem => puts other (List.mem_cons_of_mem _ mem))
            grown
          have slots : List.replicate (width * (left + 1)) Value.undefined =
              List.replicate width .undefined ++ List.replicate (width * left) .undefined := by
            rw [List.replicate_append_replicate, Nat.mul_succ, Nat.add_comm]
          rw [listItems, if_pos (by omega), slots, here.put_eq i listed _ length, Outcome.ok_bind,
            ← List.append_assoc, show i + (left + 1) = i + 1 + left by omega, rest]
          simp only [List.take_succ_cons, List.length_cons, List.flatMap_cons, List.append_assoc,
            Nat.add_sub_add_right, Nat.add_assoc, Nat.add_comm 1]

theorem listBucket_eq {bucket : HashBucket} {i : ℕ} {listed : List Value} (left : ℕ)
    (counted : bucket.count = bucket.items.length)
    (puts : ∀ item ∈ bucket.items, Puts put width entry item)
    (length : listed.length = width * i) :
    listBucket put (i + left) bucket i (listed ++ List.replicate (width * left) .undefined) =
      .ok (i + (bucket.items.take left).length,
        listed ++ (bucket.items.take left).flatMap entry ++
          List.replicate (width * (left - (bucket.items.take left).length)) .undefined) := by
  have here := listItems_eq left puts length
  unfold listBucket
  by_cases some : 0 < bucket.count
  · rw [if_pos some, here]
  · have items : bucket.items = [] := by
      apply List.eq_nil_of_length_eq_zero
      omega
    rw [if_neg some, items]
    simp

variable {index : ℕ → ℕ → ℕ} {hash : HashT} {bindings : Bindings}

/-- The chains of items of the buckets. -/
def chains (hash : HashT) : List (List HashItem) := List.ofFn fun i => (hash.buckets i).items

theorem chains_getElem? (place : ℕ) : (chains hash)[place]? =
    if inside : place < 256 then some (hash.buckets ⟨place, inside⟩).items else none := by
  rw [chains, List.getElem?_ofFn]

/-- The loop over the buckets lists the items it walks to, and leaves the rest undefined. -/
theorem listBuckets_eq (index : ℕ → ℕ → ℕ) (rounds bucket left : ℕ) {i : ℕ} {listed : List Value}
    (holds : hash.Holds bindings)
    (puts : ∀ place, ∀ item ∈ (hash.buckets place).items, Puts put width entry item)
    (length : listed.length = width * i) :
    listBuckets put (i + left) index hash rounds bucket i
        (listed ++ List.replicate (width * left) .undefined) =
      match ChainTable.walked index (i + left) (chains hash) rounds bucket i with
      | some items => .ok (listed ++ items.flatMap entry ++
          List.replicate (width * (left - items.length)) .undefined)
      | none => .error .invalidAccess := by
  induction rounds generalizing bucket i left listed with
  | zero => simp [listBuckets, ChainTable.walked]
  | succ rounds ih =>
      rw [listBuckets, ChainTable.walked]
      by_cases more : i < i + left
      · rw [if_pos more, if_pos more, chains_getElem?]
        by_cases inside : index bucket i < 256
        · rw [dif_pos inside, dif_pos inside]
          have here := listBucket_eq left (holds.counted ⟨index bucket i, inside⟩)
            (puts ⟨index bucket i, inside⟩) length
          have listable : ∀ item ∈ (hash.buckets ⟨index bucket i, inside⟩).items.take left,
              Puts put width entry item :=
            fun item mem => puts ⟨index bucket i, inside⟩ item (List.mem_of_mem_take mem)
          have longer := length_flatMap_entry listable
          simp only [here, Outcome.ok_bind, Option.bind_eq_bind, Option.bind_some,
            Nat.add_sub_cancel_left]
          generalize taken : (hash.buckets ⟨index bucket i, inside⟩).items.take left = items at *
          have few : items.length ≤ left := by
            rw [← taken]
            exact List.length_take_le _ _
          have total : i + left = i + items.length + (left - items.length) := by omega
          have grown : (listed ++ items.flatMap entry).length = width * (i + items.length) := by
            rw [List.length_append, length, longer, Nat.mul_add]
          rw [total, ih _ _ grown]
          cases ChainTable.walked index (i + items.length + (left - items.length)) (chains hash)
              rounds (bucket + 1) (i + items.length) with
          | none => rfl
          | some others =>
              simp only [Option.bind_some, List.flatMap_append, List.length_append,
                List.append_assoc, Nat.sub_sub]
        · rw [dif_neg inside, dif_neg inside]
          rfl
      · rw [if_neg more, if_neg more]
        simp [show left = 0 by omega]

/-- As far as there is room, a loop that returns has put each item. -/
theorem listItems_puts {items : List HashItem} {i j : ℕ} {results listed : List Value}
    (room : i + items.length ≤ n) (success : listItems put n items i results = .ok (j, listed)) :
    j = i + items.length ∧ ∀ item ∈ items, ∃ k before after, put item k before = .ok after := by
  induction items generalizing i results with
  | nil =>
      cases success
      exact ⟨rfl, fun item mem => absurd mem List.not_mem_nil⟩
  | cons item items ih =>
      rw [List.length_cons] at room ⊢
      rw [listItems, if_pos (by omega)] at success
      rcases Outcome.bind_eq_ok.mp success with ⟨made, first, later⟩
      rcases ih (by omega) later with ⟨rfl, rest⟩
      refine ⟨by omega, ?_⟩
      intro other mem
      rcases List.mem_cons.mp mem with rfl | mem
      · exact ⟨i, results, made, first⟩
      · exact rest other mem

/-- A loop over the buckets in their order that returns has put each item. -/
theorem listBuckets_puts {rounds bucket i : ℕ} {results listed : List Value}
    (holds : hash.Holds bindings) (last : bucket + rounds = 256)
    (left : i + ((chains hash).drop bucket).flatten.length = n)
    (success : listBuckets put n (fun bucket _ => bucket) hash rounds bucket i results =
      .ok listed) :
    ∀ item ∈ ((chains hash).drop bucket).flatten, ∃ k before after,
      put item k before = .ok after := by
  have whole : (chains hash).length = 256 := List.length_ofFn
  induction rounds generalizing bucket i results with
  | zero =>
      rw [List.drop_eq_nil_of_le (by omega)]
      intro item mem
      cases mem
  | succ rounds ih =>
      by_cases more : i < n
      · have inside : bucket < 256 := by omega
        have within : bucket < (chains hash).length := whole ▸ inside
        have here : (chains hash)[bucket] = (hash.buckets ⟨bucket, inside⟩).items := by
          have found := @chains_getElem? hash bucket
          rw [dif_pos inside, List.getElem?_eq_getElem within, Option.some.injEq] at found
          exact found
        rw [List.drop_eq_getElem_cons within, here, List.flatten_cons, List.length_append] at left
        rw [List.drop_eq_getElem_cons within, here, List.flatten_cons]
        rw [listBuckets, if_pos more, dif_pos inside] at success
        rcases Outcome.bind_eq_ok.mp success with ⟨⟨j, made⟩, first, later⟩
        have walked : j = i + (hash.buckets ⟨bucket, inside⟩).items.length ∧
            ∀ item ∈ (hash.buckets ⟨bucket, inside⟩).items, ∃ k before after,
              put item k before = .ok after := by
          unfold listBucket at first
          split at first
          case isTrue => exact listItems_puts (by omega) first
          case isFalse none =>
            have empty : (hash.buckets ⟨bucket, inside⟩).items = [] := by
              rw [← List.length_eq_zero_iff, ← holds.counted]
              omega
            cases first
            rw [empty]
            exact ⟨rfl, fun item mem => absurd mem List.not_mem_nil⟩
        rcases walked with ⟨rfl, items⟩
        have rest := ih (by omega) (by omega) later
        intro item mem
        rcases List.mem_append.mp mem with now | next
        · exact items item now
        · exact rest item next
      · have none : ((chains hash).drop bucket).flatten.length = 0 := by omega
        rw [List.length_eq_zero_iff.mp none]
        intro item mem
        cases mem

theorem map_length_chains (holds : hash.Holds bindings) :
    (chains hash).map List.length = List.ofFn fun i => (hash.buckets i).count := by
  rw [chains, List.map_ofFn]
  congr 1
  funext i
  exact (holds.counted i).symm

theorem length_chains (holds : hash.Holds bindings) :
    (chains hash).flatten.length = hash.size := by
  rw [List.length_flatten, map_length_chains holds, HashT.size]

theorem mem_chains {item : HashItem} :
    item ∈ (chains hash).flatten ↔ ∃ place, item ∈ (hash.buckets place).items := by
  simp only [chains, List.mem_flatten, List.mem_ofFn, exists_exists_eq_and]

/-- What a listing returns, by the items it walks to. -/
theorem list_eq {state : HashScalars} {memory : Memory} (holds : state.hash.Holds bindings)
    (puts : ∀ item ∈ (chains state.hash).flatten, Puts put width entry item)
    (storage : memory.calloc (width * state.hash.size) sizeofScalar = true) :
    list put index width memory state =
      match ChainTable.walked index (chains state.hash).flatten.length (chains state.hash)
        256 0 0 with
      | some items => .ok (0, some (items.flatMap entry ++
          List.replicate (width * (state.hash.size - items.length)) .undefined,
          width * state.hash.size))
      | none => .error .invalidAccess := by
  have each : ∀ place, ∀ item ∈ (state.hash.buckets place).items, Puts put width entry item :=
    fun place item mem => puts item (mem_chains.mpr ⟨place, mem⟩)
  have empty : ([] : List Value).length = width * 0 := rfl
  have loop := listBuckets_eq index 256 0 state.hash.size holds each empty
  rw [Nat.zero_add, List.nil_append] at loop
  rw [length_chains holds]
  simp only [list, storage, if_true, loop]
  cases ChainTable.walked index state.hash.size (chains state.hash) 256 0 0 with
  | none => rfl
  | some items => rfl

end HashScalars

/-- Each bucket that has items has an index that is the number of items in the buckets
before it. -/
def HashT.Aligned (hash : HashT) : Prop :=
  ∀ place : Fin 256, 0 < (hash.buckets place).count →
    ((List.ofFn fun i => (hash.buckets i).count).take place).sum = place

instance (hash : HashT) : Decidable hash.Aligned :=
  inferInstanceAs (Decidable (∀ _ : Fin 256, _))

namespace HashScalars

theorem aligned_iff {hash : HashT} {bindings : Bindings} (holds : hash.Holds bindings) :
    hash.Aligned ↔ ChainTable.Aligned (chains hash) := by
  have before : ∀ place, ((List.ofFn fun i => (hash.buckets i).count).take place).sum =
      ChainTable.before (chains hash) place := by
    intro place
    rw [ChainTable.before, List.length_flatten, List.map_take, map_length_chains holds]
  constructor
  · intro aligned place chain found nonempty
    rw [chains_getElem?] at found
    by_cases inside : place < 256
    · rw [dif_pos inside, Option.some.injEq] at found
      have some : 0 < (hash.buckets ⟨place, inside⟩).count := by
        rw [holds.counted, found]
        exact List.length_pos_of_ne_nil nonempty
      rw [← before]
      exact aligned ⟨place, inside⟩ some
    · rw [dif_neg inside] at found
      contradiction
  · intro aligned place some
    rw [before]
    apply aligned place (hash.buckets place).items
    · rw [chains_getElem?, dif_pos place.isLt]
    · apply List.ne_nil_of_length_pos
      rw [← holds.counted]
      exact some

/-- The key of an item, as it is listed. -/
def keyOf (item : HashItem) : Value := .string item.1

/-- The index of the bucket of a listed key. -/
def keyIndex : Value → ℕ
  | .string key => bucketIndex key
  | _ => 0

/-- The value of an item, as it is listed. -/
def valueOf (store : ScalarStore Value) (item : HashItem) : Value :=
  ((store.scalars item.2).map PooledScalar.value).getD .undefined

variable {state : HashScalars} {model : HashModel} {memory : Memory}

/-- Each item of the hash has a scalar with the value of its key. -/
theorem Represents.exists_scalar (represents : state.Represents model) {item : HashItem}
    (mem : item ∈ (chains state.hash).flatten) :
    ∃ scalar, state.store.scalars item.2 = some scalar ∧
      model.value item.1 = some scalar.value := by
  rcases mem_chains.mp mem with ⟨place, mem⟩
  have found := represents.holds.lookup_of_mem mem
  rcases represents.owning.owned found with ⟨scalar, used, _⟩
  refine ⟨scalar, ?_, ?_⟩
  · rw [represents.store, used]
  · simp [HashModel.value, found, used]

end HashScalars

/-- There is storage for a copy of each key and of its value. -/
def HashModel.Copies (memory : Memory) (model : HashModel) : Prop :=
  ∀ key value, model.value key = some value → memory.Stores key ∧ Stored memory value

namespace HashScalars

variable {state : HashScalars} {model : HashModel} {memory : Memory}

theorem putKey_of {item : HashItem} (stores : memory.Stores item.1) (i : ℕ) (keys : List Value) :
    putKey memory item i keys = .ok (keys.set i (keyOf item)) := by
  simp only [putKey, dupBytes_eq_ok.mpr ⟨stores, rfl⟩, Outcome.ok_bind, keyOf]

theorem Represents.putValue_of (represents : state.Represents model)
    (copies : model.Copies memory) {item : HashItem} (mem : item ∈ (chains state.hash).flatten)
    (i : ℕ) (values : List Value) :
    putValue memory state.store item i values = .ok (values.set i (valueOf state.store item)) := by
  rcases represents.exists_scalar mem with ⟨scalar, used, value⟩
  have copied : ScalarValue.clone memory scalar.value = .ok scalar.value :=
    (copies item.1 scalar.value value).2
  simp only [putValue, ScalarStore.getValue_eq memory used, copied, Outcome.ok_bind, valueOf, used,
    Option.map_some, Option.getD_some]

theorem Represents.stores_key (represents : state.Represents model) (copies : model.Copies memory)
    {item : HashItem} (mem : item ∈ (chains state.hash).flatten) : memory.Stores item.1 := by
  rcases represents.exists_scalar mem with ⟨scalar, _, value⟩
  exact (copies item.1 scalar.value value).1

theorem Represents.puts_key (represents : state.Represents model) (copies : model.Copies memory)
    {item : HashItem} (mem : item ∈ (chains state.hash).flatten) :
    Puts (putKey memory) 1 (fun item => [keyOf item]) item := by
  refine ⟨rfl, ?_⟩
  intro i listed rest length
  rw [putKey_of (represents.stores_key copies mem)]
  simp [length]

theorem Represents.puts_value (represents : state.Represents model) (copies : model.Copies memory)
    {item : HashItem} (mem : item ∈ (chains state.hash).flatten) :
    Puts (putValue memory state.store) 1 (fun item => [valueOf state.store item]) item := by
  refine ⟨rfl, ?_⟩
  intro i listed rest length
  rw [represents.putValue_of copies mem]
  simp [length]

theorem Represents.puts_pair (represents : state.Represents model) (copies : model.Copies memory)
    {item : HashItem} (mem : item ∈ (chains state.hash).flatten) :
    Puts (fun item i pairs => do
      let pairs ← putKey memory item (2 * i) pairs
      putValue memory state.store item (2 * i + 1) pairs) 2
      (fun item => [keyOf item, valueOf state.store item]) item := by
  refine ⟨rfl, ?_⟩
  intro i listed rest length
  simp only [putKey_of (represents.stores_key copies mem), Outcome.ok_bind,
    represents.putValue_of copies mem]
  simp [length, List.replicate_succ]

/-- The listing of the pairs has every item, bucket by bucket. -/
theorem Represents.listPairs_eq (represents : state.Represents model)
    (copies : model.Copies memory)
    (storage : memory.calloc (2 * state.hash.size) sizeofScalar = true) :
    state.listPairs memory = .ok (0, some ((chains state.hash).flatten.flatMap
      (fun item => [keyOf item, valueOf state.store item]), 2 * state.hash.size)) := by
  have length : (chains state.hash).length = 256 := List.length_ofFn
  have walk := ChainTable.walked_inOrder 256 0 length.symm
  rw [ChainTable.before_zero, List.drop_zero] at walk
  rw [listPairs, list_eq represents.holds (fun item mem => represents.puts_pair copies mem) storage,
    walk]
  simp [length_chains represents.holds]

/-- Where the table is aligned, the listings of keys and of values have every item. -/
theorem Represents.list_eq_of_aligned (represents : state.Represents model)
    (aligned : state.hash.Aligned)
    {put : HashItem → ℕ → List Value → Outcome (List Value)} {listed : HashItem → Value}
    (puts : ∀ item ∈ (chains state.hash).flatten, Puts put 1 (fun item => [listed item]) item)
    (storage : memory.calloc state.hash.size sizeofScalar = true) :
    list put (fun _ i => i) 1 memory state =
      .ok (0, some ((chains state.hash).flatten.map listed, state.hash.size)) := by
  have length : (chains state.hash).length = 0 + 256 := List.length_ofFn
  have walk := ChainTable.walked_of_aligned 256 0 0
    ((aligned_iff represents.holds).mp aligned) length (Nat.le_refl 256)
  rw [ChainTable.before_zero, List.drop_zero] at walk
  rw [list_eq represents.holds puts (by rw [Nat.one_mul, storage]), walk]
  simp [length_chains represents.holds, List.map_eq_flatMap]

/-- The keys of the items are those bound, each once. -/
theorem Represents.keys_eq (represents : state.Represents model) :
    (((chains state.hash).flatten.map Prod.fst : List Bytes) : Multiset Bytes) =
      model.bindings.keys.val := by
  have distinct : ((chains state.hash).flatten.map Prod.fst).Nodup := by
    rw [List.map_flatten, List.nodup_flatten, chains, List.map_ofFn, List.pairwise_ofFn]
    constructor
    · intro keys mem
      rcases List.mem_ofFn.mp mem with ⟨place, rfl⟩
      exact List.Pairwise.map _ (fun _ _ less => less.ne) (represents.holds.sorted place)
    · intro place other less
      rw [Function.comp_apply, Function.comp_apply, List.disjoint_left]
      intro key inFirst inSecond
      rcases List.mem_map.mp inFirst with ⟨first, firstMem, rfl⟩
      rcases List.mem_map.mp inSecond with ⟨second, secondMem, same⟩
      have index := represents.holds.placed other second secondMem
      rw [same, represents.holds.placed place first firstMem] at index
      exact less.ne index
  rw [Multiset.Nodup.ext (Multiset.coe_nodup.mpr distinct) model.bindings.keys.nodup]
  intro key
  simp only [Multiset.mem_coe, Finset.mem_val, Finmap.mem_keys, List.mem_map]
  constructor
  · rintro ⟨item, mem, rfl⟩
    rcases mem_chains.mp mem with ⟨place, mem⟩
    exact Finmap.mem_of_lookup_eq_some (represents.holds.lookup_of_mem mem)
  · intro bound
    rcases Finmap.mem_iff.mp bound with ⟨handle, found⟩
    rw [represents.holds.bound] at found
    exact ⟨(key, handle), mem_chains.mpr ⟨bucketIndex key, Entries.mem_of_find found⟩, rfl⟩

theorem flatMap_pair_getElem? {α β : Type} (items : List α) (first second : α → β) (i : ℕ) :
    (items.flatMap fun item => [first item, second item])[2 * i]? = (items.map first)[i]? ∧
      (items.flatMap fun item => [first item, second item])[2 * i + 1]? =
        (items.map second)[i]? := by
  induction items generalizing i with
  | nil => simp
  | cons item items ih =>
      cases i with
      | zero => simp
      | succ i =>
          rw [Nat.mul_succ]
          simpa using ih i

/-- The listing of the keys has the key of each binding once and nothing else, the listing of
the values has their values, both count the bindings, and the listing of both has the key and
the value of each position next to each other. -/
def ListingsAgree (memory : Memory) (state : HashScalars) (model : HashModel) : Prop :=
  ∃ keys values pairs : List Value,
    state.listKeys memory = .ok (0, some (keys, state.hash.size)) ∧
      state.listValues memory = .ok (0, some (values, state.hash.size)) ∧
      state.listPairs memory = .ok (0, some (pairs, 2 * state.hash.size)) ∧
      state.hash.size = model.bindings.keys.card ∧
      (keys : Multiset Value) = model.bindings.keys.val.map Value.string ∧
      (values : Multiset Value).map some = model.bindings.keys.val.map model.value ∧
      keys.length = state.hash.size ∧ values.length = state.hash.size ∧
      ∀ i < state.hash.size, pairs[2 * i]? = keys[i]? ∧ pairs[2 * i + 1]? = values[i]?

theorem Represents.listingsAgree (represents : state.Represents model)
    (aligned : state.hash.Aligned) (copies : model.Copies memory)
    (storage : memory.calloc state.hash.size sizeofScalar = true)
    (pairsStorage : memory.calloc (2 * state.hash.size) sizeofScalar = true) :
    ListingsAgree memory state model := by
  have keys := represents.keys_eq
  have length := length_chains represents.holds
  refine ⟨_, _, _,
    represents.list_eq_of_aligned aligned (fun item mem => represents.puts_key copies mem) storage,
    represents.list_eq_of_aligned aligned (fun item mem => represents.puts_value copies mem)
      storage,
    represents.listPairs_eq copies pairsStorage, represents.holds.size, ?_, ?_, ?_, ?_, ?_⟩
  · rw [← keys, Multiset.map_coe, List.map_map]
    rfl
  · rw [← keys, Multiset.map_coe, Multiset.map_coe, List.map_map, List.map_map]
    congr 1
    apply List.map_congr_left
    intro item mem
    rcases represents.exists_scalar mem with ⟨scalar, used, value⟩
    simp [valueOf, used, value]
  · rw [List.length_map, length]
  · rw [List.length_map, length]
  · intro i _
    exact flatMap_pair_getElem? _ _ _ i

/-- A map with one binding binds nothing else. -/
theorem lookup_single {key other : Bytes} {s handle : ℕ}
    (found : ((∅ : Bindings).insert key s).lookup other = some handle) :
    other = key ∧ handle = s := by
  rcases Decidable.em (other = key) with rfl | different
  · rw [Finmap.lookup_insert, Option.some.injEq] at found
    exact ⟨rfl, found.symm⟩
  · rw [Finmap.lookup_insert_of_ne _ different] at found
    cases found

/-- A hash with one item, bound to a scalar of the value seven. -/
theorem represents_single (key : Bytes) :
    (⟨HashT.init.setBucket key ⟨1, [(key, 1)]⟩,
      ⟨fun handle => if handle = 1 then some ⟨1, .int 7⟩ else none⟩⟩ : HashScalars).Represents
      ⟨(∅ : Bindings).insert key 1,
        ⟨fun handle => if handle = 1 then some ⟨1, .int 7⟩ else none⟩⟩ where
  holds := HashT.init_holds.insert (Finmap.lookup_empty key) rfl
  store := rfl
  owning := by
    constructor
    · intro other handle found
      rw [(lookup_single found).2]
      exact ⟨⟨1, .int 7⟩, rfl, Nat.one_pos⟩
    · intro first second handle foundFirst foundSecond
      rw [(lookup_single foundFirst).1, (lookup_single foundSecond).1]

theorem copies_single {key : Bytes} (stores : memory.Stores key) :
    (⟨(∅ : Bindings).insert key 1,
      ⟨fun handle => if handle = 1 then some ⟨1, .int 7⟩ else none⟩⟩ : HashModel).Copies
        memory := by
  intro other value bound
  rcases Option.bind_eq_some_iff.mp bound with ⟨handle, found, held⟩
  rcases lookup_single found with ⟨rfl, rfl⟩
  cases held
  exact ⟨stores, rfl⟩

/-- A key with a value has an item, whose scalar holds the value. -/
theorem Represents.exists_item (represents : state.Represents model) {key : Bytes} {value : Value}
    (bound : model.value key = some value) : ∃ handle scalar,
      (key, handle) ∈ (chains state.hash).flatten ∧
        state.store.scalars handle = some scalar ∧ scalar.value = value := by
  rcases Option.bind_eq_some_iff.mp bound with ⟨handle, found, held⟩
  rcases Option.map_eq_some_iff.mp held with ⟨scalar, used, same⟩
  have located := represents.holds.bound key
  rw [found] at located
  refine ⟨handle, scalar, ?_, ?_, same⟩
  · exact mem_chains.mpr ⟨bucketIndex key, Entries.mem_of_find located.symm⟩
  · rw [represents.store]
    exact used

/-- A listing of the pairs that comes to its end has copied each key and each value. -/
theorem Represents.copies_of_listPairs (represents : state.Represents model)
    {pairs : List Value} {count : ℕ}
    (success : state.listPairs memory = .ok (0, some (pairs, count))) : model.Copies memory := by
  unfold listPairs list at success
  dsimp only at success
  split at success
  case isFalse => cases success
  rcases Outcome.bind_eq_ok.mp success with ⟨listed, loop, _⟩
  have put := listBuckets_puts represents.holds (Nat.zero_add 256)
    (by rw [List.drop_zero, length_chains represents.holds, Nat.zero_add]) loop
  rw [List.drop_zero] at put
  intro key value bound
  rcases represents.exists_item bound with ⟨handle, scalar, mem, used, rfl⟩
  rcases put _ mem with ⟨k, before, after, done⟩
  rcases Outcome.bind_eq_ok.mp done with ⟨middle, keyed, valued⟩
  rcases Outcome.bind_eq_ok.mp keyed with ⟨copy, copied, _⟩
  rcases Outcome.bind_eq_ok.mp valued with ⟨got, getting, _⟩
  rw [ScalarStore.getValue_eq memory used] at getting
  exact ⟨(dupBytes_eq_ok.mp copied).1, (Value.clone_eq_ok.mp getting).1⟩

/-- The listings are complete and agree exactly if there is storage for them and for the copies
in them, and each bucket that has items has an index that is the number of items before it. -/
theorem listings_agree_iff (represents : state.Represents model) :
    ListingsAgree memory state model ↔
      memory.calloc state.hash.size sizeofScalar = true ∧
        memory.calloc (2 * state.hash.size) sizeofScalar = true ∧ model.Copies memory ∧
        state.hash.Aligned := by
  constructor
  · rintro ⟨keys, values, pairs, listedKeys, _, listedPairs, _, _, _, keysLength, _, agree⟩
    have storage : memory.calloc state.hash.size sizeofScalar = true := by
      by_contra failed
      simp [listKeys, list, failed] at listedKeys
    have pairsStorage : memory.calloc (2 * state.hash.size) sizeofScalar = true := by
      by_contra failed
      simp [listPairs, list, failed] at listedPairs
    have copies := represents.copies_of_listPairs listedPairs
    refine ⟨storage, pairsStorage, copies, ?_⟩
    have length := length_chains represents.holds
    rw [represents.listPairs_eq copies pairsStorage] at listedPairs
    simp only [Except.ok.injEq, Prod.mk.injEq, Option.some.injEq, true_and, and_true]
      at listedPairs
    have same : keys = (chains state.hash).flatten.map keyOf := by
      apply List.ext_getElem?
      intro i
      by_cases inside : i < state.hash.size
      · rw [← (agree i inside).1, ← listedPairs, (flatMap_pair_getElem? _ _ _ i).1]
      · rw [List.getElem?_eq_none (by omega),
          List.getElem?_eq_none (by rw [List.length_map]; omega)]
    rw [listKeys, list_eq represents.holds (fun item mem => represents.puts_key copies mem)
      (by rw [Nat.one_mul, storage])] at listedKeys
    cases walk : ChainTable.walked (fun _ i => i) (chains state.hash).flatten.length
        (chains state.hash) 256 0 0 with
    | none =>
        rw [walk] at listedKeys
        contradiction
    | some items =>
        rw [walk] at listedKeys
        simp only [Nat.one_mul, ← List.map_eq_flatMap, same, Except.ok.injEq, Prod.mk.injEq,
          Option.some.injEq, true_and, and_true] at listedKeys
        have whole : state.hash.size - items.length = 0 := by
          by_contra short
          have mem : Value.undefined ∈ (chains state.hash).flatten.map keyOf := by
            rw [← listedKeys]
            apply List.mem_append_right
            exact List.mem_replicate.mpr ⟨short, rfl⟩
          rcases List.mem_map.mp mem with ⟨item, _, impossible⟩
          exact Value.noConfusion impossible
        rw [whole, List.replicate_zero, List.append_nil] at listedKeys
        rw [aligned_iff represents.holds]
        apply ChainTable.aligned_of_walked keyIndex ?_ walk listedKeys
        intro place chain item found mem
        rw [chains_getElem?] at found
        by_cases inside : place < 256
        · rw [dif_pos inside, Option.some.injEq] at found
          subst found
          exact congrArg Fin.val (represents.holds.placed ⟨place, inside⟩ item mem)
        · rw [dif_neg inside] at found
          cases found
  · rintro ⟨storage, pairsStorage, copies, aligned⟩
    exact represents.listingsAgree aligned copies storage pairsStorage

theorem listings_agree_iff_single : ∃ state model, state.Represents model ∧
    model.bindings.lookup [] = some 1 ∧ ListingsAgree .ample state model :=
  ⟨_, _, represents_single [], Finmap.lookup_insert _,
    (listings_agree_iff (represents_single [])).mpr
      ⟨by decide +kernel, by decide +kernel, copies_single (by decide), by decide +kernel⟩⟩

/-- The key `"1"`, whose bucket is not the first, is not listed. -/
theorem listKeys_misses : ∃ state model, state.Represents model ∧
    model.bindings.lookup [49] = some 1 ∧
    state.listKeys .ample = .ok (0, some ([.undefined], 1)) ∧
    ¬ListingsAgree .ample state model := by
  have listed : listKeys .ample ⟨HashT.init.setBucket [49] ⟨1, [([49], 1)]⟩,
      ⟨fun handle => if handle = 1 then some ⟨1, .int 7⟩ else none⟩⟩ =
      .ok (0, some ([.undefined], 1)) := by decide +kernel
  refine ⟨_, _, represents_single [49], Finmap.lookup_insert _, listed, ?_⟩
  rintro ⟨keys, values, pairs, listedKeys, _, _, _, complete, _⟩
  rw [listed] at listedKeys
  have same : [.undefined] = keys :=
    (Prod.mk.inj (Option.some.inj (Prod.mk.inj (Except.ok.inj listedKeys)).2)).1
  subst same
  have mem : Value.undefined ∈ Multiset.map Value.string
      (((∅ : Bindings).insert [49] 1).keys.val) := by
    rw [← complete]
    decide
  rcases Multiset.mem_map.mp mem with ⟨key, _, impossible⟩
  cases impossible

end HashScalars

end Dang
