import Dang.Machine.HashCopy
import Dang.Machine.Integers

/-!
# Keys of a hash

`inst_HRINDEX`, `inst_HRKEYEX` and `inst_HRKEYDEL` take any scalar for a key, and look for its
string value. So an integer and the string that is printed for it are one key, and different
integers are different ones.
-/

namespace Dang

namespace HashHeap

variable (formatFloat : BitVec 64 → Bytes)

/-- `hash_key_item` -/
def keyItem (memory : Memory) (s : ℕ) (heap : HashHeap) (handle : ℕ) (key : Value) :
    Outcome (ℕ × HashHeap) :=
  heap.onHash handle fun state => do
    let skey ← HashScalars.keyString formatFloat memory key
    state.keyItem memory s skey

/-- `hash_key_exists` -/
def keyExists (memory : Memory) (heap : HashHeap) (handle : ℕ) (key : Value) :
    Outcome (ℤ × HashHeap) :=
  heap.onHash handle fun state => do
    let skey ← HashScalars.keyString formatFloat memory key
    .ok (state.hash.keyExists skey, state)

/-- `hash_key_delete` -/
def keyDelete (memory : Memory) (heap : HashHeap) (handle : ℕ) (key : Value) :
    Outcome (ℤ × HashHeap) :=
  heap.onHash handle fun state => do
    let skey ← HashScalars.keyString formatFloat memory key
    state.keyDelete skey

end HashHeap

namespace HashVm

variable (formatFloat : BitVec 64 → Bytes)

/-- `inst_HRINDEX`. It allocates the string of the key and the item, and the slot for the
reference. -/
def hrindex (memory : ℕ → Memory) (s : ℕ) (vm : HashVm) : Outcome (ℤ × HashVm) := do
  let (hr, stack) ← vm.stack.vmDsPop (memory 2)
  let (k, stack) ← stack.vmDsPop (memory 3)
  let handle ← hr.derefHashReference
  let (item, heap) ← vm.heap.keyItem formatFloat (memory 0) s handle k
  let (referenced, store) ← heap.store.reference item
  let store ← store.release item
  let (_, stack) ← stack.vmDsPush (memory 1) (.reference .scalar referenced)
  .ok (1, ⟨stack, { heap with store := store }⟩)

/-- `inst_HRKEYEX` -/
def hrkeyex (memory : ℕ → Memory) (vm : HashVm) : Outcome (ℤ × HashVm) := do
  let (hr, stack) ← vm.stack.vmDsPop (memory 2)
  let (k, stack) ← stack.vmDsPop (memory 3)
  let handle ← hr.derefHashReference
  let (exists', heap) ← vm.heap.keyExists formatFloat (memory 0) handle k
  let (_, stack) ← stack.vmDsPush (memory 1) (.int (BitVec.ofInt 64 exists'))
  .ok (1, ⟨stack, heap⟩)

/-- `inst_HRKEYDEL` -/
def hrkeydel (memory : ℕ → Memory) (vm : HashVm) : Outcome (ℤ × HashVm) := do
  let (hr, stack) ← vm.stack.vmDsPop (memory 2)
  let (k, stack) ← stack.vmDsPop (memory 3)
  let handle ← hr.derefHashReference
  let (_, heap) ← vm.heap.keyDelete formatFloat (memory 0) handle k
  .ok (1, ⟨stack, heap⟩)

end HashVm

section Keys

variable {formatFloat : BitVec 64 → Bytes} {heap : HashHeap} {bindings : ℕ → Bindings}
  {handle s : ℕ} {hash : HashT} {memory : Memory} {key : Value}

namespace HashScalars.Represents

/-- A key that is bound is found, without storage. -/
theorem keyItem_bound {state : HashScalars} {model : HashModel} {key : Bytes} {bound : ℕ}
    (represents : state.Represents model) (memory : Memory) (s : ℕ)
    (found : model.bindings.lookup key = some bound) :
    ∃ after, state.keyItem memory s key = .ok (bound, after) ∧
      after.Represents ⟨model.bindings, model.store.referenced bound⟩ := by
  rcases represents.holds.reached_cases key with ⟨reached, rest, same, place⟩ | ⟨unbound, _⟩
  · rcases represents.owning.owned found with ⟨scalar, used, _⟩
    rw [found, Option.some.injEq] at same
    subst same
    have equal : stringCmp key key = 0 := stringCmp_zero.mpr rfl
    simp only [HashScalars.keyItem, place, equal, if_true, represents.store,
      ScalarStore.reference_eq_referenced used, Outcome.ok_bind]
    refine ⟨_, rfl, represents.holds, rfl, represents.owning.change ?_⟩
    intro scalar _
    exact ⟨_, rfl, Nat.succ_pos _⟩
  · rw [found] at unbound
    cases unbound

end HashScalars.Represents

namespace HashHeap

/-- The string of the key finds storage, and a handle for the key is there, or a new item with a
copy of the string finds storage and a new scalar. -/
def Supplies (heap : HashHeap) (bindings : Bindings) (memory : Memory) (s : ℕ) (key : Bytes) :
    Prop :=
  memory.Stores key ∧ (bindings.lookup key ≠ none ∨
    memory.calloc 1 sizeofHashItem = true ∧ HashModel.FreshHandle heap.store s)

/-- Only this key is bound to another handle, or not bound any more. -/
def Rebinds (before after : Bindings) (key : Bytes) (bound : Option ℕ) : Prop :=
  ∀ other, after.lookup other = if other = key then bound else before.lookup other

theorem rebinds_insert (bindings : Bindings) (text : Bytes) (s : ℕ) :
    Rebinds bindings (bindings.insert text s) text (some s) := by
  intro other
  by_cases same : other = text
  · rw [if_pos same, same, Finmap.lookup_insert]
  · rw [if_neg same, Finmap.lookup_insert_of_ne _ same]

theorem rebinds_erase (bindings : Bindings) (text : Bytes) :
    Rebinds bindings (bindings.erase text) text none := by
  intro other
  by_cases same : other = text
  · rw [if_pos same, same, Finmap.lookup_erase]
  · rw [if_neg same, Finmap.lookup_erase_ne same]

theorem rebinds_self {bindings : Bindings} {text : Bytes} {bound : Option ℕ}
    (found : bindings.lookup text = bound) : Rebinds bindings bindings text bound := by
  intro other
  by_cases same : other = text
  · rw [if_pos same, same, found]
  · rw [if_neg same]

/-- What is done with one key of a hash keeps the other hashes, if it changes no scalar but that of
the key and a new one. -/
theorem Represents.putKey {state : HashScalars} {model : HashModel} {text : Bytes}
    {bound : Option ℕ} (represents : heap.Represents bindings)
    (inUse : heap.hashes handle = some hash) (done : state.Represents model)
    (rebinds : Rebinds (bindings handle) model.bindings text bound)
    (frame : ∀ scalar, heap.store.scalars scalar ≠ none →
      (bindings handle).lookup text ≠ some scalar →
        state.store.scalars scalar = heap.store.scalars scalar)
    (new : ∀ scalar ∈ bound, (bindings handle).lookup text = some scalar ∨
      heap.store.scalars scalar = none) :
    (heap.put handle state).Represents (Function.update bindings handle model.bindings) := by
  refine represents.put done ?_
  intro other second key scalar inUseToo apart found
  have used : heap.store.scalars scalar ≠ none := by
    rcases represents.owned inUseToo found with ⟨carried, used, _⟩
    rw [used]
    exact Option.some_ne_none carried
  have different : ∀ own, (bindings handle).lookup own ≠ some scalar :=
    fun own ownBound => apart (represents.distinct inUseToo inUse found ownBound).1
  refine ⟨frame scalar used (different text), ?_⟩
  intro own ownBound
  rw [rebinds own] at ownBound
  split at ownBound
  case isTrue =>
    rcases new scalar ownBound with old | unused
    · exact different text old
    · exact used unused
  case isFalse => exact different own ownBound

/-- The item of a key is the one it is bound to, or a new one. -/
theorem Represents.keyItem (formatFloat : BitVec 64 → Bytes)
    (represents : heap.Represents bindings) (inUse : heap.hashes handle = some hash)
    (supplies : heap.Supplies (bindings handle) memory s (key.stringValue formatFloat)) :
    ∃ bound copy after, heap.keyItem formatFloat memory s handle key = .ok (bound, after) ∧
      after.Represents (Function.update bindings handle copy) ∧
      (∃ changed, after.hashes handle = some changed) ∧
      Rebinds (bindings handle) copy (key.stringValue formatFloat) (some bound) ∧
      ∀ old, (bindings handle).lookup (key.stringValue formatFloat) = some old → bound = old := by
  have state := represents.state inUse
  have named := HashScalars.keyString_eq_ok.mpr ⟨supplies.1, rfl⟩
  simp only [HashHeap.keyItem, onHash, inUse, named, Outcome.ok_bind]
  generalize key.stringValue formatFloat = text at supplies ⊢
  cases found : (bindings handle).lookup text with
  | some old =>
      rcases state.keyItem_bound memory s found with ⟨reached, looked, shown⟩
      have rebinds := rebinds_self found
      refine ⟨old, bindings handle, heap.put handle reached, ?_, ?_, ⟨_, hashes_put_self _⟩,
        rebinds, fun _ same => Option.some.inj same⟩
      · simp only [looked, Outcome.ok_bind]
      · refine represents.putKey inUse shown rebinds ?_ ?_
        · intro scalar _ apart
          have unchanged : scalar ≠ old := fun same => apart (same ▸ found)
          rw [shown.store]
          exact ScalarStore.scalars_change_of_ne unchanged
        · intro scalar same
          exact Or.inl (found.trans same)
  | none =>
      rcases supplies.2.resolve_left (fun bound => bound found) with ⟨storage, fresh⟩
      rcases state.keyItem storage supplies.1 fresh with ⟨reached, looked, shown⟩
      simp only [HashModel.keyItem, found] at looked shown
      have rebinds := rebinds_insert (bindings handle) text s
      refine ⟨s, (bindings handle).insert text s, heap.put handle reached, ?_, ?_,
        ⟨_, hashes_put_self _⟩, rebinds, fun _ same => by cases same⟩
      · simp only [looked, Outcome.ok_bind]
      · refine represents.putKey inUse shown rebinds ?_ ?_
        · intro scalar used _
          have unchanged : scalar ≠ s := fun same => used (same ▸ fresh.2)
          rw [shown.store]
          refine (ScalarStore.scalars_change_of_ne unchanged).trans ?_
          exact (@HashModel.scalars_allocate ⟨bindings handle, heap.store⟩ s fresh.1 scalar).trans
            (if_neg unchanged)
        · intro scalar same
          exact Or.inr (Option.some.inj same ▸ fresh.2)

/-- A key is bound no more after it was deleted. -/
theorem Represents.keyDelete (formatFloat : BitVec 64 → Bytes)
    (represents : heap.Represents bindings) (inUse : heap.hashes handle = some hash)
    (stores : memory.Stores (key.stringValue formatFloat)) :
    ∃ copy after, heap.keyDelete formatFloat memory handle key = .ok (0, after) ∧
      after.Represents (Function.update bindings handle copy) ∧
      Rebinds (bindings handle) copy (key.stringValue formatFloat) none := by
  have state := represents.state inUse
  have named := HashScalars.keyString_eq_ok.mpr ⟨stores, rfl⟩
  simp only [HashHeap.keyDelete, onHash, inUse, named, Outcome.ok_bind]
  generalize key.stringValue formatFloat = text
  rcases state.keyDelete text with ⟨reached, deleted, shown⟩
  have nothing : ∀ scalar ∈ (none : Option ℕ), (bindings handle).lookup text = some scalar ∨
      heap.store.scalars scalar = none := by
    intro scalar mem
    cases mem
  cases found : (bindings handle).lookup text with
  | some old =>
      simp only [HashModel.keyDelete, found] at shown
      have rebinds := rebinds_erase (bindings handle) text
      refine ⟨_, heap.put handle reached, by simp only [deleted, Outcome.ok_bind],
        represents.putKey inUse shown rebinds ?_ nothing, rebinds⟩
      intro scalar _ apart
      have unchanged : scalar ≠ old := fun same => apart (same ▸ found)
      rw [shown.store]
      exact ScalarStore.scalars_change_of_ne unchanged
  | none =>
      simp only [HashModel.keyDelete, found] at shown
      have rebinds := rebinds_self found
      refine ⟨_, heap.put handle reached, by simp only [deleted, Outcome.ok_bind],
        represents.putKey inUse shown rebinds ?_ nothing, rebinds⟩
      intro scalar _ _
      rw [shown.store]

/-- Whether a key is bound. -/
theorem Represents.keyExists_eq (formatFloat : BitVec 64 → Bytes)
    (represents : heap.Represents bindings) (inUse : heap.hashes handle = some hash)
    (stores : memory.Stores (key.stringValue formatFloat)) :
    heap.keyExists formatFloat memory handle key =
      .ok (if key.stringValue formatFloat ∈ bindings handle then 1 else 0, heap) := by
  have state := represents.state inUse
  have named := HashScalars.keyString_eq_ok.mpr ⟨stores, rfl⟩
  simp only [HashHeap.keyExists, onHash, inUse, named, Outcome.ok_bind, state.keyExists,
    put_self inUse]

end HashHeap

namespace HashVm

open ValueStack HashHeap

variable {vm first second : HashVm} {rest : List Value} {capacity : ℕ} {requests : ℕ → Memory}

/-- There is storage for a copy of the key when it is popped. -/
def PopsKey (requests : ℕ → Memory) (key : Value) : Prop := Stored (requests 3) key

/-- The reference and the key are popped. -/
theorem pops_of (shows : vm.stack.Shows (.reference .hash handle :: key :: rest) capacity)
    (pops : PopsKey requests key) :
    ∃ middle last, vm.stack.vmDsPop (requests 2) = .ok (.reference .hash handle, middle) ∧
      middle.vmDsPop (requests 3) = .ok (key, last) ∧ last.Shows rest capacity := by
  rcases shows.popReference (requests 2) with ⟨middle, popped, shown⟩
  rcases shown.pop pops with ⟨last, named, bare⟩
  exact ⟨middle, last, popped, named, bare⟩

/-- `inst_HRINDEX` leaves a reference to the item of the key. -/
theorem hrindex_of (represents : vm.heap.Represents bindings)
    (inUse : vm.heap.hashes handle = some hash)
    (shows : vm.stack.Shows (.reference .hash handle :: key :: rest) capacity)
    (pops : PopsKey requests key)
    (supplies : vm.heap.Supplies (bindings handle) (requests 0) s (key.stringValue formatFloat)) :
    ∃ bound copy after, vm.hrindex formatFloat requests s = .ok (1, after) ∧
      after.stack.Shows (.reference .scalar bound :: rest) capacity ∧
      after.heap.Represents (Function.update bindings handle copy) ∧
      Rebinds (bindings handle) copy (key.stringValue formatFloat) (some bound) ∧
      ∀ old, (bindings handle).lookup (key.stringValue formatFloat) = some old → bound = old := by
  rcases pops_of shows pops with ⟨middle, last, popped, named, bare⟩
  rcases represents.keyItem formatFloat inUse supplies with
    ⟨bound, copy, reached, looked, kept, ⟨changed, stays⟩, rebinds, same⟩
  have found : (Function.update bindings handle copy handle).lookup (key.stringValue formatFloat) =
      some bound := by
    rw [Function.update_self, rebinds, if_pos rfl]
  rcases kept.owned stays found with ⟨scalar, used, positive⟩
  have usedAgain := ScalarStore.scalars_referenced used
  have undone := ScalarStore.released_referenced used positive
  rcases bare.push_within (Nat.le_of_succ_le shows.length_le)
    (show Stored (requests 1) (.reference .scalar bound) from rfl) with ⟨final, pushed, left⟩
  refine ⟨bound, copy, ⟨final, reached⟩, ?_, left, kept, rebinds, same⟩
  simp only [hrindex, popped, named, Outcome.ok_bind, Value.derefHashReference,
    Value.derefReference_self, looked, ScalarStore.reference_eq_referenced used,
    ScalarStore.release_eq_released usedAgain, undone, pushed]

/-- `inst_HRKEYEX` leaves whether the key is bound. -/
theorem hrkeyex_of (represents : vm.heap.Represents bindings)
    (inUse : vm.heap.hashes handle = some hash)
    (shows : vm.stack.Shows (.reference .hash handle :: key :: rest) capacity)
    (pops : PopsKey requests key) (stores : (requests 0).Stores (key.stringValue formatFloat)) :
    ∃ after, vm.hrkeyex formatFloat requests = .ok (1, ⟨after, vm.heap⟩) ∧
      after.Shows (.int (if key.stringValue formatFloat ∈ bindings handle then 1 else 0) :: rest)
        capacity := by
  rcases pops_of shows pops with ⟨middle, last, popped, named, bare⟩
  have answer : BitVec.ofInt 64 (if key.stringValue formatFloat ∈ bindings handle then 1 else 0) =
      if key.stringValue formatFloat ∈ bindings handle then 1 else 0 := by
    split
    case isTrue => rfl
    case isFalse => rfl
  rcases bare.push_within (Nat.le_of_succ_le shows.length_le) (show Stored (requests 1)
    (.int (if key.stringValue formatFloat ∈ bindings handle then 1 else 0)) from rfl) with
    ⟨final, pushed, left⟩
  refine ⟨final, ?_, left⟩
  simp only [hrkeyex, popped, named, Outcome.ok_bind, Value.derefHashReference,
    Value.derefReference_self, represents.keyExists_eq formatFloat inUse stores, answer, pushed]

/-- After `inst_HRKEYDEL` the key is bound no more. -/
theorem hrkeydel_of (represents : vm.heap.Represents bindings)
    (inUse : vm.heap.hashes handle = some hash)
    (shows : vm.stack.Shows (.reference .hash handle :: key :: rest) capacity)
    (pops : PopsKey requests key) (stores : (requests 0).Stores (key.stringValue formatFloat)) :
    ∃ copy after, vm.hrkeydel formatFloat requests = .ok (1, after) ∧
      after.stack.Shows rest capacity ∧
      after.heap.Represents (Function.update bindings handle copy) ∧
      Rebinds (bindings handle) copy (key.stringValue formatFloat) none := by
  rcases pops_of shows pops with ⟨middle, last, popped, named, bare⟩
  rcases represents.keyDelete formatFloat inUse stores with ⟨copy, reached, deleted, kept, rebinds⟩
  refine ⟨copy, ⟨last, reached⟩, ?_, bare, kept, rebinds⟩
  simp only [hrkeydel, popped, named, Outcome.ok_bind, Value.derefHashReference,
    Value.derefReference_self, deleted]

/-- The three instructions do the same in two states of the machine. -/
structure Alike (formatFloat : BitVec 64 → Bytes) (requests : ℕ → Memory)
    (first second : HashVm) : Prop where
  hrindex : ∀ s, first.hrindex formatFloat requests s = second.hrindex formatFloat requests s
  hrkeyex : first.hrkeyex formatFloat requests = second.hrkeyex formatFloat requests
  hrkeydel : first.hrkeydel formatFloat requests = second.hrkeydel formatFloat requests

/-- Keys that have the same string value are treated alike. -/
theorem alike_of_stringValue {other : Value}
    (same : key.stringValue formatFloat = other.stringValue formatFloat)
    (heaps : first.heap = second.heap)
    (shows : first.stack.Shows (.reference .hash handle :: key :: rest) capacity)
    (showsOther : second.stack.Shows (.reference .hash handle :: other :: rest) capacity)
    (pops : PopsKey requests key) (popsOther : PopsKey requests other) :
    Alike formatFloat requests first second := by
  rcases pops_of shows pops with ⟨middle, last, popped, named, bare⟩
  rcases pops_of showsOther popsOther with ⟨otherMiddle, otherLast, otherPopped, otherNamed, otherBare⟩
  have alike := bare.unique otherBare
  subst alike
  have strings : ∀ memory, HashScalars.keyString formatFloat memory key =
      HashScalars.keyString formatFloat memory other := by
    intro memory
    simp only [HashScalars.keyString, Value.getStringValue, same]
  constructor
  case hrindex =>
    intro s
    simp only [HashVm.hrindex, popped, named, otherPopped, otherNamed, Outcome.ok_bind,
      HashHeap.keyItem, heaps, strings]
  case hrkeyex =>
    simp only [HashVm.hrkeyex, popped, named, otherPopped, otherNamed, Outcome.ok_bind,
      HashHeap.keyExists, heaps, strings]
  case hrkeydel =>
    simp only [HashVm.hrkeydel, popped, named, otherPopped, otherNamed, Outcome.ok_bind,
      HashHeap.keyDelete, heaps, strings]

/-- A scalar that is the integer, or the string that is printed for it. -/
def IsInteger (formatFloat : BitVec 64 → Bytes) (i : BitVec 64) (key : Value) : Prop :=
  key = .int i ∨ key = .string ((Value.int i).stringValue formatFloat)

theorem stringValue_of_isInteger {i : BitVec 64} (is : IsInteger formatFloat i key) :
    key.stringValue formatFloat = printed i := by
  rcases is with rfl | rfl
  · rfl
  · rfl

/-- What an integer is bound to as a key. -/
def boundTo (bindings : Bindings) (i : BitVec 64) : Option ℕ := bindings.lookup (printed i)

/-- A change of the key of an integer changes what that integer is bound to, and no other. -/
theorem boundTo_of_rebinds {before after : Bindings} {i : BitVec 64} {bound : Option ℕ}
    (rebinds : Rebinds before after (printed i) bound) (j : BitVec 64) :
    boundTo after j = if j = i then bound else boundTo before j := by
  unfold boundTo
  rw [rebinds]
  by_cases same : j = i
  · rw [if_pos same, same, if_pos rfl]
  · rw [if_neg same, if_neg fun equal => same (printed_injective equal)]

/-- `inst_HRINDEX` leaves a reference to what the integer is bound to from then on, which is what
it was bound to if it was, and binds no other integer. -/
def Indexes (formatFloat : BitVec 64 → Bytes) (requests : ℕ → Memory) (s : ℕ) (vm : HashVm)
    (bindings : ℕ → Bindings) (handle : ℕ) (i : BitVec 64) (rest : List Value) (capacity : ℕ) :
    Prop :=
  ∃ bound copy after, vm.hrindex formatFloat requests s = .ok (1, after) ∧
    after.stack.Shows (.reference .scalar bound :: rest) capacity ∧
    after.heap.Represents (Function.update bindings handle copy) ∧
    (∀ old, boundTo (bindings handle) i = some old → bound = old) ∧
    ∀ j, boundTo copy j = if j = i then some bound else boundTo (bindings handle) j

/-- `inst_HRKEYEX` leaves whether the integer is bound, and changes no hash. -/
def Tests (formatFloat : BitVec 64 → Bytes) (requests : ℕ → Memory) (vm : HashVm)
    (bindings : ℕ → Bindings) (handle : ℕ) (i : BitVec 64) (rest : List Value) (capacity : ℕ) :
    Prop :=
  ∃ after, vm.hrkeyex formatFloat requests = .ok (1, ⟨after, vm.heap⟩) ∧
    after.Shows (.int (if boundTo (bindings handle) i ≠ none then 1 else 0) :: rest) capacity

/-- After `inst_HRKEYDEL` the integer is bound no more, and every other as before. -/
def Deletes (formatFloat : BitVec 64 → Bytes) (requests : ℕ → Memory) (vm : HashVm)
    (bindings : ℕ → Bindings) (handle : ℕ) (i : BitVec 64) (rest : List Value) (capacity : ℕ) :
    Prop :=
  ∃ copy after, vm.hrkeydel formatFloat requests = .ok (1, after) ∧
    after.stack.Shows rest capacity ∧
    after.heap.Represents (Function.update bindings handle copy) ∧
    ∀ j, boundTo copy j = if j = i then none else boundTo (bindings handle) j

theorem indexes_of {i : BitVec 64} (is : IsInteger formatFloat i key)
    (represents : vm.heap.Represents bindings) (inUse : vm.heap.hashes handle = some hash)
    (shows : vm.stack.Shows (.reference .hash handle :: key :: rest) capacity)
    (pops : PopsKey requests key)
    (supplies : vm.heap.Supplies (bindings handle) (requests 0) s (printed i)) :
    vm.Indexes formatFloat requests s bindings handle i rest capacity := by
  have text := stringValue_of_isInteger is
  rw [← text] at supplies
  rcases hrindex_of represents inUse shows pops supplies with
    ⟨bound, copy, after, ran, left, kept, rebinds, same⟩
  rw [text] at rebinds same
  exact ⟨bound, copy, after, ran, left, kept, same, boundTo_of_rebinds rebinds⟩

theorem tests_of {i : BitVec 64} (is : IsInteger formatFloat i key)
    (represents : vm.heap.Represents bindings) (inUse : vm.heap.hashes handle = some hash)
    (shows : vm.stack.Shows (.reference .hash handle :: key :: rest) capacity)
    (pops : PopsKey requests key)
    (stores : (requests 0).Stores (printed i)) :
    vm.Tests formatFloat requests bindings handle i rest capacity := by
  have text := stringValue_of_isInteger is
  rw [← text] at stores
  rcases hrkeyex_of represents inUse shows pops stores with ⟨after, ran, left⟩
  have mem : key.stringValue formatFloat ∈ bindings handle ↔
      boundTo (bindings handle) i ≠ none := by
    rw [text, boundTo, ne_eq, Finmap.lookup_eq_none, not_not]
  simp only [mem] at left
  exact ⟨after, ran, left⟩

theorem deletes_of {i : BitVec 64} (is : IsInteger formatFloat i key)
    (represents : vm.heap.Represents bindings) (inUse : vm.heap.hashes handle = some hash)
    (shows : vm.stack.Shows (.reference .hash handle :: key :: rest) capacity)
    (pops : PopsKey requests key)
    (stores : (requests 0).Stores (printed i)) :
    vm.Deletes formatFloat requests bindings handle i rest capacity := by
  have text := stringValue_of_isInteger is
  rw [← text] at stores
  rcases hrkeydel_of represents inUse shows pops stores with
    ⟨copy, after, ran, left, kept, rebinds⟩
  rw [text] at rebinds
  exact ⟨copy, after, ran, left, kept, boundTo_of_rebinds rebinds⟩

end HashVm

open HashVm ValueStack in
/-- The string that is printed for an integer is read as the integer, so no two integers have the
same. The instructions on keys do the same with an integer and with its string, once this is
popped, and what they do with one integer they do not do with any other. -/
theorem integers_as_keys (formatFloat : BitVec 64 → Bytes) (truncate : BitVec 64 → BitVec 64) :
    (∀ i : BitVec 64, (Value.string ((Value.int i).stringValue formatFloat)).intValue
      (standardConversions truncate) = i) ∧
    (∀ i j : BitVec 64, (Value.int i).stringValue formatFloat =
      (Value.int j).stringValue formatFloat → i = j) ∧
    (∀ (i : BitVec 64) (first second : HashVm) (handle : ℕ) (rest : List Value) (capacity : ℕ)
      (requests : ℕ → Memory), first.heap = second.heap →
      first.stack.Shows (.reference .hash handle :: .int i :: rest) capacity →
      second.stack.Shows
        (.reference .hash handle :: .string ((Value.int i).stringValue formatFloat) :: rest)
        capacity →
      (requests 3).Stores (printed i) → Alike formatFloat requests first second) ∧
    ∀ (i : BitVec 64) (key : Value) (vm : HashVm) (bindings : ℕ → Bindings) (handle : ℕ)
      (hash : HashT) (rest : List Value) (capacity : ℕ) (requests : ℕ → Memory),
      IsInteger formatFloat i key → vm.heap.Represents bindings →
      vm.heap.hashes handle = some hash →
      vm.stack.Shows (.reference .hash handle :: key :: rest) capacity → PopsKey requests key →
        (∀ s, vm.heap.Supplies (bindings handle) (requests 0) s (printed i) →
          vm.Indexes formatFloat requests s bindings handle i rest capacity) ∧
        ((requests 0).Stores (printed i) →
          vm.Tests formatFloat requests bindings handle i rest capacity ∧
            vm.Deletes formatFloat requests bindings handle i rest capacity) := by
  refine ⟨strtol_printed, fun i j same => printed_injective same, ?_, ?_⟩
  · intro i first second handle rest capacity requests heaps shows showsOther stores
    apply alike_of_stringValue _ heaps shows showsOther (stored_int i) (stored_string.mpr stores)
    rfl
  · intro i key vm bindings handle hash rest capacity requests is represents inUse shows pops
    refine ⟨fun s => indexes_of is represents inUse shows pops, fun stores => ⟨?_, ?_⟩⟩
    · exact tests_of is represents inUse shows pops stores
    · exact deletes_of is represents inUse shows pops stores

/-- The string of the integer one is a key where the integer is, and is bound no more after it was
deleted. -/
theorem integers_as_keys_sample :
    (HashVm.mk (ValueStack.stacked [.reference .hash 2, .string [49]]) HashHeap.twins).Tests
        (fun _ => []) (fun _ => .ample) HashHeap.twinBindings 2 1 [] 16 ∧
      (HashVm.mk (ValueStack.stacked [.reference .hash 2, .string [49]]) HashHeap.twins).Deletes
        (fun _ => []) (fun _ => .ample) HashHeap.twinBindings 2 1 [] 16 := by
  have all := (integers_as_keys (fun _ => []) id).2.2.2 1 (.string [49])
    ⟨ValueStack.stacked [.reference .hash 2, .string [49]], HashHeap.twins⟩ HashHeap.twinBindings 2
    _ [] 16 (fun _ => .ample) (Or.inr (by decide)) HashHeap.represents_twins rfl
    (ValueStack.shows_stacked (by decide)) (show Stored _ _ by decide)
  exact all.2 (by decide)

end Keys

end Dang
