import Dang.Scalar.Value
import Mathlib.Algebra.GroupWithZero.Nat

/-!
# Hashes

The hash table of `hash.c`: 256 buckets, each a chain of items in the order of
`string_cmp`. `hash_allocate` passes no flags, so a hash has no mutex, and locking
it always succeeds. A parameter `s` is what `scalar_allocate` returned.
-/

namespace Dang

/-- `hash_item_t`: the key and the value. The link is the place in the list of items. -/
abbrev HashItem := Bytes × ℕ

/-- `hash_bucket_t` -/
structure HashBucket where
  count : ℕ
  items : List HashItem

/-- `hash_t` -/
structure HashT where
  buckets : Fin 256 → HashBucket

/-- `sizeof(hash_item_t)` -/
def sizeofHashItem : ℕ := 24

/-- `_hash_key` -/
def hashKey (key : Bytes) : BitVec 32 :=
  let hash := key.foldl (fun hash byte =>
    let hash := hash + BitVec.ofNat 32 byte
    let hash := hash + hash <<< 10
    hash ^^^ hash >>> 6) 0
  let hash := hash + hash <<< 3
  let hash := hash ^^^ hash >>> 11
  hash + hash <<< 15

/-- The index of the bucket of a key. -/
def bucketIndex (key : Bytes) : Fin 256 := Fin.ofNat 256 (hashKey key).toNat

namespace HashBucket

/-- `_hash_bucket_init` -/
def init : HashBucket := ⟨0, []⟩

/-- The items that the walk to a key passes. -/
def passed (bucket : HashBucket) (key : Bytes) : List HashItem :=
  bucket.items.takeWhile fun item => stringCmp item.1 key < 0

/-- The items from the one on where the walk to a key ends. -/
def reached (bucket : HashBucket) (key : Bytes) : List HashItem :=
  bucket.items.dropWhile fun item => stringCmp item.1 key < 0

end HashBucket

namespace HashT

/-- `_hash_init` -/
def init : HashT := ⟨fun _ => .init⟩

/-- The bucket of a key. -/
def bucket (hash : HashT) (key : Bytes) : HashBucket := hash.buckets (bucketIndex key)

/-- The hash with the bucket of a key changed. -/
def setBucket (hash : HashT) (key : Bytes) (bucket : HashBucket) : HashT :=
  ⟨Function.update hash.buckets (bucketIndex key) bucket⟩

/-- `_hash_size_unlocked` -/
def size (hash : HashT) : ℕ := (List.ofFn fun i => (hash.buckets i).count).sum

/-- `_hash_key_exists_unlocked` -/
def keyExists (hash : HashT) (key : Bytes) : ℤ :=
  let bucket := hash.bucket key
  if bucket.count = 0 then 0
  else
    match bucket.reached key with
    | item :: _ => if stringCmp item.1 key = 0 then 1 else 0
    | [] => 0

/-- The values that `_hash_destroy` releases, in order. -/
def values (hash : HashT) : List ℕ :=
  (List.ofFn fun i =>
    let bucket := hash.buckets i
    if 0 < bucket.count then bucket.items.map Prod.snd else []).flatten

end HashT

/-- Releases the scalars one after the other. -/
def ScalarStore.releaseAll {α : Type} (store : ScalarStore α) :
    List ℕ → Outcome (ScalarStore α)
  | [] => .ok store
  | handle :: handles => do
      let store ← store.release handle
      store.releaseAll handles

/-- A hash and the scalars. -/
structure HashScalars where
  hash : HashT
  store : ScalarStore Value

namespace HashScalars

/-- A new item at the place of the key, and a reference to its value. -/
def newItem (memory : Memory) (s : ℕ) (state : HashScalars) (key : Bytes) :
    Outcome (ℕ × HashScalars) :=
  if memory.calloc 1 sizeofHashItem then do
    let key ← dupBytes memory key
    let bucket := state.hash.bucket key
    let bucket : HashBucket :=
      { count := if bucket.items = [] then 1 else bucket.count + 1
        items := bucket.passed key ++ (key, s) :: bucket.reached key }
    let (handle, store) ← (state.store.allocateMany s 1).reference s
    .ok (handle, ⟨state.hash.setBucket key bucket, store⟩)
  else
    .ok (0, state)

/-- `_hash_key_item_unlocked` -/
def keyItem (memory : Memory) (s : ℕ) (state : HashScalars) (key : Bytes) :
    Outcome (ℕ × HashScalars) :=
  match (state.hash.bucket key).reached key with
  | item :: _ =>
      if stringCmp item.1 key = 0 then do
        let (handle, store) ← state.store.reference item.2
        .ok (handle, { state with store := store })
      else state.newItem memory s key
  | [] => state.newItem memory s key

/-- `_hash_key_delete_unlocked`. The item itself is not freed. -/
def keyDelete (state : HashScalars) (key : Bytes) : Outcome (ℤ × HashScalars) :=
  let bucket := state.hash.bucket key
  if bucket.count = 0 then .ok (0, state)
  else
    match bucket.reached key with
    | item :: rest =>
        if stringCmp item.1 key = 0 then do
          let store ← state.store.release item.2
          let bucket : HashBucket := ⟨bucket.count - 1, bucket.passed key ++ rest⟩
          .ok (0, ⟨state.hash.setBucket key bucket, store⟩)
        else .ok (0, state)
    | [] => .ok (0, state)

variable (formatFloat : BitVec 64 → Bytes)

/-- The string of a key that the functions below ask a scalar for. `_hash_key_item_unlocked` and
its siblings assert that it is there. -/
def keyString (memory : Memory) (key : Value) : Outcome Bytes := do
  match ← key.getStringValue formatFloat memory with
  | none => .error .assertion
  | some skey => .ok skey.contents

/-- The loop of `hash_slice` from round `i` on, with what `scalar_allocate` returns in each
round. The references the elements held before are not followed. -/
def slice (memory : Memory) (s : ℕ → ℕ) (i : ℕ) (state : HashScalars) :
    List Value → Outcome (List Value × HashScalars)
  | [] => .ok ([], state)
  | element :: elements => do
      let key ← keyString formatFloat memory element
      let (handle, state) ← state.keyItem memory (s i) key
      let (referenced, store) ← state.store.reference handle
      let store ← store.release handle
      let (elements, state) ← slice memory s (i + 1) { state with store := store } elements
      .ok (.reference .scalar referenced :: elements, state)

/-- The loop of `hash_fill` from round `i` on, with a key and a value in each round. -/
def fillPairs (memory : Memory) (s : ℕ → ℕ) (i : ℕ) (state : HashScalars) :
    List Value → Outcome HashScalars
  | [] => .ok state
  | [_] => .error .invalidAccess
  | key :: value :: pairs => do
      let key ← keyString formatFloat memory key
      let (handle, state) ← state.keyItem memory (s i) key
      let store ← state.store.setValue memory handle value
      let store ← store.release handle
      fillPairs memory s (i + 1) { state with store := store } pairs

/-- `hash_fill` -/
def fill (memory : Memory) (s : ℕ → ℕ) (state : HashScalars) (pairs : List Value) :
    Outcome (ℤ × HashScalars) := do
  Outcome.assertThat (pairs.length % 2 = 0)
  let store ← state.store.releaseAll state.hash.values
  let state ← fillPairs formatFloat memory s 0 ⟨.init, store⟩ pairs
  .ok (0, state)

/-- There is storage for the key and for a copy of the value of each pair. -/
def PairsStored (memory : Memory) : List Value → Prop
  | key :: value :: pairs =>
      memory.Stores (key.stringValue formatFloat) ∧ Stored memory value ∧ PairsStored memory pairs
  | _ => True

theorem keyString_eq_ok {formatFloat : BitVec 64 → Bytes} {memory : Memory} {key : Value}
    {string : Bytes} : keyString formatFloat memory key = .ok string ↔
      memory.Stores (key.stringValue formatFloat) ∧ string = key.stringValue formatFloat := by
  unfold keyString
  constructor
  · intro success
    rcases Outcome.bind_eq_ok.mp success with ⟨made, got, result⟩
    cases made with
    | none => cases result
    | some skey =>
        rcases Value.getStringValue_some.mp got with ⟨stores, rfl⟩
        cases result
        exact ⟨stores, StringT.contents_append _ _⟩
  · rintro ⟨stores, rfl⟩
    have got := Value.getStringValue_some.mpr ⟨stores, rfl⟩
    simp only [got, Outcome.ok_bind, StringT.contents_append]

end HashScalars

end Dang
