import Dang.Foundations.Entries
import Dang.Foundations.Refinement
import Dang.Hash.Basic
import Mathlib.Algebra.BigOperators.Fin
import Mathlib.Data.Finmap

/-!
# A hash is a finite map

What the operations on a hash do to the map from keys to handles that its buckets
hold.
-/

namespace Dang

/-- A finite map from the string values of keys to the handles of scalars. -/
abbrev Bindings := Finmap fun _ : Bytes => ℕ

namespace HashBucket

variable {bucket : HashBucket} {key : Bytes}

theorem passed_eq : bucket.passed key = Entries.passed key bucket.items := by
  unfold passed Entries.passed
  congr 1
  funext item
  exact decide_eq_decide.mpr stringCmp_neg

theorem reached_eq : bucket.reached key = Entries.reached key bucket.items := by
  unfold reached Entries.reached
  congr 1
  funext item
  exact decide_eq_decide.mpr stringCmp_neg

end HashBucket

namespace HashT

variable {hash : HashT} {bindings : Bindings} {key : Bytes}

/-- The buckets hold the bindings: each bucket is in strictly ascending order, has only keys
that hash to it, and counts its items. -/
structure Holds (hash : HashT) (bindings : Bindings) : Prop where
  ascending : ∀ i, (hash.buckets i).items.Pairwise fun first second =>
    stringCmp first.1 second.1 < 0
  placed : ∀ i, ∀ item ∈ (hash.buckets i).items, bucketIndex item.1 = i
  counted : ∀ i, (hash.buckets i).count = (hash.buckets i).items.length
  bound : ∀ key, bindings.lookup key = Entries.find key (hash.bucket key).items
  size : hash.size = bindings.keys.card

theorem init_holds : init.Holds ∅ where
  ascending _ := List.Pairwise.nil
  placed _ item mem := by simp [init, HashBucket.init] at mem
  counted _ := rfl
  bound key := by simp [init, HashBucket.init, bucket, Entries.find]
  size := by
    rw [HashT.size, List.sum_ofFn]
    simp [init, HashBucket.init]

theorem bucket_setBucket (other : Bytes) (bucket : HashBucket) :
    (hash.setBucket key bucket).bucket other =
      if bucketIndex other = bucketIndex key then bucket else hash.bucket other := by
  simp [HashT.bucket, setBucket, Function.update_apply]

/-- The size after changing one bucket. -/
theorem size_setBucket (hash : HashT) (key : Bytes) (bucket : HashBucket) :
    (hash.setBucket key bucket).size + (hash.bucket key).count = hash.size + bucket.count := by
  have counts : (fun i => ((hash.setBucket key bucket).buckets i).count) =
      Function.update (fun i => (hash.buckets i).count) (bucketIndex key) bucket.count := by
    funext i
    by_cases same : i = bucketIndex key
    · subst same
      simp [setBucket]
    · simp [setBucket, Function.update_of_ne same]
  simp only [HashT.size, List.sum_ofFn, counts]
  rw [Finset.sum_update_of_mem (Finset.mem_univ _),
    ← Finset.add_sum_erase Finset.univ (fun i => (hash.buckets i).count)
      (Finset.mem_univ (bucketIndex key)), Finset.sdiff_singleton_eq_erase, HashT.bucket]
  omega

namespace Holds

theorem sorted (holds : hash.Holds bindings) (i : Fin 256) :
    Entries.Sorted (hash.buckets i).items := by
  have ascending := holds.ascending i
  simp only [stringCmp_neg] at ascending
  exact ascending

/-- Changing one bucket changes the bindings of the keys that hash to it. -/
theorem setBucket {bucket : HashBucket} {changed : Bindings} (holds : hash.Holds bindings)
    (sorted : Entries.Sorted bucket.items)
    (placed : ∀ item ∈ bucket.items, bucketIndex item.1 = bucketIndex key)
    (counted : bucket.count = bucket.items.length)
    (bound : ∀ other, changed.lookup other =
      if bucketIndex other = bucketIndex key then Entries.find other bucket.items
      else bindings.lookup other)
    (size : changed.keys.card + (hash.bucket key).items.length =
      bindings.keys.card + bucket.items.length) :
    (hash.setBucket key bucket).Holds changed where
  ascending i := by
    simp only [stringCmp_neg, HashT.setBucket]
    by_cases same : i = bucketIndex key
    · subst same
      rw [Function.update_self]
      exact sorted
    · rw [Function.update_of_ne same]
      exact holds.sorted i
  placed i item mem := by
    simp only [HashT.setBucket] at mem
    by_cases same : i = bucketIndex key
    · subst same
      rw [Function.update_self] at mem
      exact placed item mem
    · rw [Function.update_of_ne same] at mem
      exact holds.placed i item mem
  counted i := by
    simp only [HashT.setBucket]
    by_cases same : i = bucketIndex key
    · subst same
      rw [Function.update_self]
      exact counted
    · rw [Function.update_of_ne same]
      exact holds.counted i
  bound other := by
    rw [bound, bucket_setBucket]
    by_cases same : bucketIndex other = bucketIndex key
    · rw [if_pos same, if_pos same]
    · rw [if_neg same, if_neg same, holds.bound]
  size := by
    have total := hash.size_setBucket key bucket
    have old := holds.counted (bucketIndex key)
    rw [holds.size] at total
    simp only [HashT.bucket] at total size
    omega

/-- A new item binds its key. -/
theorem insert {s count : ℕ} (holds : hash.Holds bindings) (absent : bindings.lookup key = none)
    (counted : count = (hash.bucket key).items.length + 1) :
    (hash.setBucket key ⟨count, (hash.bucket key).passed key ++
      (key, s) :: (hash.bucket key).reached key⟩).Holds (bindings.insert key s) := by
  have unbound : Entries.find key (hash.bucket key).items = none := by
    rw [← holds.bound, absent]
  have split : (hash.bucket key).passed key ++ (hash.bucket key).reached key =
      (hash.bucket key).items := by
    rw [HashBucket.passed_eq, HashBucket.reached_eq, Entries.passed_append_reached]
  apply holds.setBucket
  · rw [HashBucket.passed_eq, HashBucket.reached_eq]
    exact Entries.sorted_insert (holds.sorted _) unbound
  · intro item mem
    simp only [List.mem_append, List.mem_cons] at mem
    rcases mem with before | rfl | after
    · exact holds.placed _ item (split ▸ List.mem_append_left _ before)
    · rfl
    · exact holds.placed _ item (split ▸ List.mem_append_right _ after)
  · rw [counted, ← split]
    simp only [List.length_append, List.length_cons]
    omega
  · intro other
    by_cases same : other = key
    · subst same
      rw [Finmap.lookup_insert, if_pos rfl, HashBucket.passed_eq, HashBucket.reached_eq,
        Entries.find_insert unbound, if_pos rfl]
    · rw [Finmap.lookup_insert_of_ne _ same]
      by_cases neighbour : bucketIndex other = bucketIndex key
      · rw [if_pos neighbour, HashBucket.passed_eq, HashBucket.reached_eq,
          Entries.find_insert unbound, if_neg same, holds.bound, HashT.bucket, HashT.bucket,
          neighbour]
      · rw [if_neg neighbour]
  · have keys : (bindings.insert key s).keys = Insert.insert key bindings.keys := by
      ext other
      simp [Finmap.mem_keys]
    have new : key ∉ bindings.keys := by
      rw [Finmap.mem_keys, ← Finmap.lookup_eq_none]
      exact absent
    rw [keys, Finset.card_insert_of_notMem new, ← split]
    simp only [List.length_append, List.length_cons]
    omega

/-- Taking the item of a key out unbinds the key. -/
theorem erase {handle : ℕ} {rest : List HashItem} (holds : hash.Holds bindings)
    (place : (hash.bucket key).reached key = (key, handle) :: rest) :
    (hash.setBucket key ⟨(hash.bucket key).count - 1,
      (hash.bucket key).passed key ++ rest⟩).Holds (bindings.erase key) := by
  have split : (hash.bucket key).passed key ++ (key, handle) :: rest =
      (hash.bucket key).items := by
    rw [← place, HashBucket.passed_eq, HashBucket.reached_eq, Entries.passed_append_reached]
  have entry := place
  rw [HashBucket.reached_eq] at entry
  have found : bindings.lookup key = some handle := by
    rw [holds.bound, Entries.find_of_reached entry]
  apply holds.setBucket
  · rw [HashBucket.passed_eq]
    exact Entries.sorted_erase (holds.sorted _) entry
  · intro item mem
    apply holds.placed
    change item ∈ (hash.bucket key).items
    rw [← split]
    simp only [List.mem_append, List.mem_cons] at mem ⊢
    tauto
  · have counted := holds.counted (bucketIndex key)
    simp only [HashT.bucket] at split ⊢
    rw [counted, ← split]
    simp only [List.length_append, List.length_cons]
    omega
  · intro other
    have ordered : Entries.Sorted (hash.bucket key).items := holds.sorted _
    simp only [HashBucket.passed_eq, Entries.find_erase ordered entry]
    by_cases same : other = key
    · subst same
      rw [Finmap.lookup_erase, if_pos rfl, if_pos rfl]
    · rw [Finmap.lookup_erase_ne same, if_neg same]
      by_cases neighbour : bucketIndex other = bucketIndex key
      · rw [if_pos neighbour, holds.bound, HashT.bucket, HashT.bucket, neighbour]
      · rw [if_neg neighbour]
  · have bound : key ∈ bindings.keys := by
      rw [Finmap.mem_keys]
      exact Finmap.mem_of_lookup_eq_some found
    have positive := Finset.card_pos.mpr ⟨key, bound⟩
    rw [Finmap.keys_erase, Finset.card_erase_of_mem bound, ← split]
    simp only [List.length_append, List.length_cons]
    omega

/-- The walk to a key ends at its item, or the key is not bound. -/
theorem reached_cases (holds : hash.Holds bindings) (key : Bytes) :
    (∃ handle rest, bindings.lookup key = some handle ∧
        (hash.bucket key).reached key = (key, handle) :: rest) ∨
      bindings.lookup key = none ∧
        ∀ item ∈ ((hash.bucket key).reached key).head?, stringCmp item.1 key ≠ 0 := by
  by_cases here : ∃ item ∈ ((hash.bucket key).reached key).head?, stringCmp item.1 key = 0
  · rcases here with ⟨⟨itemKey, handle⟩, head, same⟩
    rw [stringCmp_zero] at same
    simp only at same
    subst same
    refine Or.inl ⟨handle, ((hash.bucket itemKey).reached itemKey).tail, ?_, ?_⟩
    · rw [holds.bound]
      apply Entries.find_of_reached
      rw [← HashBucket.reached_eq]
      exact List.eq_cons_of_mem_head? head
    · exact List.eq_cons_of_mem_head? head
  · have elsewhere : ∀ item ∈ ((hash.bucket key).reached key).head?,
        stringCmp item.1 key ≠ 0 := by
      intro item mem same
      exact here ⟨item, mem, same⟩
    refine Or.inr ⟨?_, elsewhere⟩
    rw [holds.bound]
    apply Entries.find_of_beyond (holds.sorted _)
    intro item mem same
    rw [← HashBucket.reached_eq] at mem
    exact elsewhere item mem (stringCmp_zero.mpr same)

/-- A bucket that counts no items reaches none. -/
theorem reached_of_count_zero (holds : hash.Holds bindings)
    (empty : (hash.bucket key).count = 0) : (hash.bucket key).reached key = [] := by
  have items : (hash.bucket key).items = [] := by
    apply List.eq_nil_of_length_eq_zero
    rw [← empty, HashT.bucket, holds.counted]
  rw [HashBucket.reached, items, List.dropWhile_nil]

/-- An item binds its key. -/
theorem lookup_of_mem (holds : hash.Holds bindings) {i : Fin 256} {item : HashItem}
    (mem : item ∈ (hash.buckets i).items) : bindings.lookup item.1 = some item.2 := by
  have index := holds.placed i item mem
  subst index
  rw [holds.bound]
  exact Entries.find_of_mem (holds.sorted _) mem

theorem values_eq (holds : hash.Holds bindings) :
    hash.values = (List.ofFn fun i => (hash.buckets i).items.map Prod.snd).flatten := by
  unfold HashT.values
  congr 2
  funext i
  by_cases some : 0 < (hash.buckets i).count
  · rw [if_pos some]
  · have items : (hash.buckets i).items = [] := by
      apply List.eq_nil_of_length_eq_zero
      rw [← holds.counted]
      omega
    rw [if_neg some, items, List.map_nil]

/-- The values of the items are those bound. -/
theorem mem_values (holds : hash.Holds bindings) {handle : ℕ} :
    handle ∈ hash.values ↔ ∃ key ∈ bindings.keys, bindings.lookup key = some handle := by
  rw [holds.values_eq]
  simp only [List.mem_flatten, List.mem_ofFn, exists_exists_eq_and, List.mem_map]
  constructor
  · rintro ⟨i, item, mem, rfl⟩
    have found := holds.lookup_of_mem mem
    exact ⟨item.1, Finmap.mem_keys.mpr (Finmap.mem_of_lookup_eq_some found), found⟩
  · rintro ⟨key, _, found⟩
    rw [holds.bound] at found
    exact ⟨bucketIndex key, (key, handle), Entries.mem_of_find found, rfl⟩

/-- The values of the items are different when those bound are. -/
theorem values_nodup (holds : hash.Holds bindings)
    (distinct : ∀ {key other handle}, bindings.lookup key = some handle →
      bindings.lookup other = some handle → key = other) : hash.values.Nodup := by
  rw [holds.values_eq, List.nodup_flatten]
  constructor
  · intro values mem
    rcases List.mem_ofFn.mp mem with ⟨i, rfl⟩
    have nodup : (hash.buckets i).items.Nodup :=
      (holds.sorted i).imp fun less same => less.ne (congrArg Prod.fst same)
    refine nodup.map_on ?_
    intro first firstMem second secondMem same
    have firstFound := holds.lookup_of_mem firstMem
    rw [same] at firstFound
    exact Prod.ext (distinct firstFound (holds.lookup_of_mem secondMem)) same
  · rw [List.pairwise_ofFn]
    intro i j less
    rw [List.disjoint_left]
    intro handle inFirst inSecond
    rcases List.mem_map.mp inFirst with ⟨first, firstMem, rfl⟩
    rcases List.mem_map.mp inSecond with ⟨second, secondMem, same⟩
    have secondFound := holds.lookup_of_mem secondMem
    rw [same] at secondFound
    have keys := distinct (holds.lookup_of_mem firstMem) secondFound
    have index := holds.placed i first firstMem
    rw [keys, holds.placed j second secondMem] at index
    exact less.ne index.symm

end Holds

end HashT

end Dang
