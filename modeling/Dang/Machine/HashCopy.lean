import Dang.Hash.Hashes
import Dang.Machine.ValueStack

/-!
# Copying a hash over the data stack

`inst_HRLISTP` leaves the keys and values of a hash and their number on the data stack, and
`inst_HRFILL` binds as many keys to values as it is told. If the list cannot be allocated the
number is undefined, which empties the other hash.
-/

namespace Dang

/-- `anon_scalar_deref_hash_reference` -/
def Value.derefHashReference : Value → Outcome ℕ := derefReference .hash

/-- The data stack of a context, and the hashes. -/
structure HashVm where
  stack : ValueStack
  heap : HashHeap

namespace HashVm

/-- `inst_HRLISTP`. It allocates the list of pairs with their strings, the slots for them with
copies of these, and the slot for the count. -/
def hrlistp (memory : ℕ → Memory) (vm : HashVm) : Outcome (ℤ × HashVm) := do
  let (hr, stack) ← vm.stack.vmDsPop (memory 3)
  let handle ← hr.derefHashReference
  let ((status, passed), heap) ← vm.heap.listPairs (memory 0) handle
  let pairs := passed.elim [] fun (pairs, n) => pairs.take n
  let (count, stack) ← stack.pushListed (memory 1) status pairs
  let (_, stack) ← stack.vmDsPush (memory 2) count
  .ok (1, ⟨stack, heap⟩)

/-- `inst_HRFILL`. It allocates the list of the pairs to pop, and returns zero if it cannot, and
then the items. The values that are popped, and each key and value that is bound, are copies. -/
def hrfill (formatFloat : BitVec 64 → Bytes) (conversions : Conversions) (memory : ℕ → Memory)
    (s : ℕ → ℕ) (vm : HashVm) : Outcome (ℤ × HashVm) := do
  let (hr, stack) ← vm.stack.vmDsPop (memory 2)
  let handle ← hr.derefHashReference
  let (count, stack) ← stack.vmDsPop (memory 3)
  let n := (count.intValue conversions).toNat
  if 0 < n then
    let n := n - n % 2
    if (memory 0).calloc n sizeofScalar then do
      let (pairs, stack) ← stack.vmDsNpop (memory 4) n
      let (_, heap) ← vm.heap.fill formatFloat (memory 1) s handle pairs
      .ok (1, ⟨stack, heap⟩)
    else .ok (0, { vm with stack := stack })
  else do
    let (_, heap) ← vm.heap.fill formatFloat (memory 1) s handle []
    .ok (1, ⟨stack, heap⟩)

/-- A hash that the stack has a reference to is listed, a reference to another hash pushed and
this hash filled. Both instructions return one. The second hash binds the keys of the first, to
the same values in new scalars, and the scalars it bound before were each released once. The
first hash and all others are as they were, with their scalars, and so is the rest of the stack. -/
def RoundTrips (formatFloat : BitVec 64 → Bytes) (conversions : Conversions)
    (memory : ℕ → Memory) (s : ℕ → ℕ) (vm : HashVm) (bindings : ℕ → Bindings)
    (source target : ℕ) (first second : HashT) (rest : List Value) : Prop :=
  ∃ listed pushed filled copy released,
    vm.hrlistp memory = .ok (1, listed) ∧
      listed.stack.vmDsPush (memory 4) (.reference .hash target) = .ok (0, pushed) ∧
      hrfill formatFloat conversions (fun request => memory (request + 5)) s
        ⟨pushed, listed.heap⟩ = .ok (1, filled) ∧
      Stack.contents filled.stack = rest ∧
      filled.heap.Represents (Function.update bindings target copy) ∧
      (∀ key, HashModel.value ⟨copy, filled.heap.store⟩ key =
        HashModel.value ⟨bindings source, vm.heap.store⟩ key) ∧
      (∀ other ≠ target, filled.heap.hashes other = vm.heap.hashes other) ∧
      (∀ handle ∈ first.values, filled.heap.store.scalars handle = vm.heap.store.scalars handle) ∧
      vm.heap.store.releaseAll second.values = .ok released ∧
      (∀ key bound, copy.lookup key = some bound → ∃ j < first.size, bound = s j) ∧
      ∀ other, (∀ j < first.size, other ≠ s j) →
        filled.heap.store.scalars other = released.scalars other

/-- Every allocation on the way finds its storage: the list of the pairs, the slots for them, for
the count and for the reference, the list of the pairs to pop and the items, as far as there
are any, and the copies of the keys and values in the list, on the stack, when they are popped and
in the other hash. -/
structure Supplied (memory : ℕ → Memory) (vm : HashVm) (model : HashModel) (size left : ℕ) :
    Prop where
  listing : 0 < size → (memory 0).calloc (2 * size) sizeofScalar = true
  listed : model.Copies (memory 0)
  pairs : ValueStack.Room (memory 1) vm.stack.items.length (left + 2 * size)
  pushed : model.Copies (memory 1)
  count : ValueStack.Room (memory 2)
    (ValueStack.grown vm.stack.items.length (left + 2 * size)) (left + 2 * size + 1)
  reference : ValueStack.Room (memory 4)
    (ValueStack.grown (ValueStack.grown vm.stack.items.length (left + 2 * size))
      (left + 2 * size + 1)) (left + 2 * size + 2)
  popping : 0 < size → (memory 5).calloc (2 * size) sizeofScalar = true
  popped : model.Copies (memory 9)
  items : 0 < size → (memory 6).calloc 1 sizeofHashItem = true
  filled : model.Copies (memory 6)

end HashVm

namespace HashHeap

/-- The key of the one item of each of two hashes. -/
def twinKey (handle : ℕ) : Bytes := if handle = 1 then [] else [49]

/-- Two hashes with one item each, whose scalar has the number of the hash. -/
def twins : HashHeap where
  hashes handle :=
    if handle = 1 ∨ handle = 2 then
      some (HashT.init.setBucket (twinKey handle) ⟨1, [(twinKey handle, handle)]⟩)
    else none
  store := ⟨fun s => if s = 1 ∨ s = 2 then some ⟨1, .int (BitVec.ofNat 64 (s + 6))⟩ else none⟩

/-- What the two hashes bind. -/
def twinBindings (handle : ℕ) : Bindings := (∅ : Bindings).insert (twinKey handle) handle

theorem represents_twins : twins.Represents twinBindings where
  holds {handle hash} found := by
    simp only [twins] at found
    split at found
    case isTrue =>
      cases found
      exact HashT.init_holds.insert (Finmap.lookup_empty _) rfl
    case isFalse => cases found
  owned {handle hash key s} found bound := by
    rw [(HashScalars.lookup_single bound).2]
    simp only [twins] at found ⊢
    split at found
    case isTrue either =>
      rw [if_pos either]
      exact ⟨_, rfl, Nat.one_pos⟩
    case isFalse => cases found
  distinct {handle hash key other second otherKey s} _ _ bound otherBound := by
    rcases HashScalars.lookup_single bound with ⟨rfl, rfl⟩
    rcases HashScalars.lookup_single otherBound with ⟨rfl, rfl⟩
    exact ⟨rfl, rfl⟩

end HashHeap

namespace HashVm

open ValueStack HashHeap

variable {vm : HashVm} {memory : ℕ → Memory} {formatFloat : BitVec 64 → Bytes}
  {conversions : Conversions} {bindings : ℕ → Bindings} {source target : ℕ}
  {first second : HashT} {rest pairs : List Value} {capacity : ℕ}

theorem length_pairs (holds : first.Holds (bindings source)) (store : ScalarStore Value) :
    (HashScalars.pairsOf store (HashScalars.chains first).flatten).length = 2 * first.size := by
  rw [HashScalars.length_pairsOf, HashScalars.length_chains holds]

/-- `inst_HRLISTP` leaves the pairs and a count that stands for their number. Where there are none
the count may be undefined. -/
theorem hrlistp_of (conversions : Conversions) (represents : vm.heap.Represents bindings)
    (inUse : vm.heap.hashes source = some first)
    (shows : vm.stack.Shows (.reference .hash source :: rest) capacity)
    (listing : 0 < first.size → (memory 0).calloc (2 * first.size) sizeofScalar = true)
    (copies : HashModel.Copies (memory 0) ⟨bindings source, vm.heap.store⟩)
    (stored : AllStored (memory 1)
      (HashScalars.pairsOf vm.heap.store (HashScalars.chains first).flatten))
    (room : Room (memory 1) capacity (rest.length + 2 * first.size))
    (another : Room (memory 2) (grown capacity (rest.length + 2 * first.size))
      (rest.length + 2 * first.size + 1)) :
    ∃ listed count, vm.hrlistp memory = .ok (1, ⟨listed, vm.heap⟩) ∧
      (count.intValue conversions).toNat = 2 * first.size ∧
      (∀ memory, Stored memory count) ∧
      listed.Shows (count :: (HashScalars.pairsOf vm.heap.store
        (HashScalars.chains first).flatten ++ rest))
        (grown (grown capacity (rest.length + 2 * first.size))
          (rest.length + 2 * first.size + 1)) := by
  have lists := represents.listPairs_eq inUse copies
  have length := length_pairs (represents.holds inUse) vm.heap.store
  generalize HashScalars.pairsOf vm.heap.store (HashScalars.chains first).flatten = pairs
    at lists length stored ⊢
  generalize first.size = size at lists length listing room another ⊢
  rcases shows.popReference (memory 3) with ⟨popped, pops, shown⟩
  have pushing : ∃ status passed next count,
      vm.heap.listPairs (memory 0) source = .ok ((status, passed), vm.heap) ∧
      popped.pushListed (memory 1) status (passed.elim [] fun (pairs, n) => pairs.take n) =
        .ok (count, next) ∧
      (count.intValue conversions).toNat = 2 * size ∧ (∀ memory, Stored memory count) ∧
      next.Shows (pairs ++ rest) (grown capacity (rest.length + 2 * size)) := by
    rcases Nat.eq_zero_or_pos size with rfl | positive
    · have few : rest.length ≤ capacity := shown.length_le
      have same : grown capacity (rest.length + 2 * 0) = capacity := if_pos few
      rw [List.length_eq_zero_iff] at length
      subst length
      rw [same]
      split at lists
      case isTrue => exact ⟨_, _, popped, .int 0, lists, rfl, rfl, fun _ => stored_int 0, shown⟩
      case isFalse => exact ⟨_, _, popped, .undefined, lists, rfl, rfl, fun _ => stored_undefined,
          shown⟩
    · have storage := listing positive
      rw [if_pos storage] at lists
      have object := (memory 0).calloc_fits _ _ storage
      rw [← length] at object room lists ⊢
      rcases shown.pushListed (by omega) object room stored with ⟨next, pushes, shown⟩
      refine ⟨_, _, next, .int (BitVec.ofNat 64 pairs.length), lists, ?_,
        intValue_length conversions object, fun _ => stored_int _, shown⟩
      simp only [Option.elim, List.take_length]
      exact pushes
  rcases pushing with ⟨status, passed, next, count, lists, pushes, counts, plain, shown⟩
  have length' : (pairs ++ rest).length = rest.length + 2 * size := by
    rw [List.length_append, length, Nat.add_comm]
  have further : Room (memory 2) (grown capacity (rest.length + 2 * size))
      ((pairs ++ rest).length + 1) := by
    rw [length']
    exact another
  rcases shown.push count further (plain _) with ⟨last, counted, shown⟩
  rw [length'] at shown
  refine ⟨last, count, ?_, counts, plain, shown⟩
  simp only [hrlistp, pops, Outcome.ok_bind, Value.derefHashReference,
    Value.derefReference_self, lists, pushes, counted]

/-- What `inst_HRLISTP` leaves, if it returns: the pairs or none of them, and the count or not. -/
theorem hrlistp_eq_ok {after : HashVm} {status : ℤ} (represents : vm.heap.Represents bindings)
    (inUse : vm.heap.hashes source = some first)
    (shows : vm.stack.Shows (.reference .hash source :: rest) capacity)
    (success : vm.hrlistp memory = .ok (status, after)) :
    after.heap = vm.heap ∧ ∃ pushed counted reached last,
      after.stack.Shows (counted ++ (pushed ++ rest)) last ∧
      (pushed = [] ∧ reached = capacity ∨ 0 < first.size ∧
        (memory 0).calloc (2 * first.size) sizeofScalar = true ∧
        HashModel.Copies (memory 0) ⟨bindings source, vm.heap.store⟩ ∧
        pushed = HashScalars.pairsOf vm.heap.store (HashScalars.chains first).flatten ∧
        Room (memory 1) capacity (rest.length + 2 * first.size) ∧
        AllStored (memory 1) pushed ∧
        reached = grown capacity (rest.length + 2 * first.size)) ∧
      (counted = [] ∨ ∃ count, counted = [count] ∧ (count = .undefined ∨ ∃ n, count = .int n) ∧
        Room (memory 2) reached ((pushed ++ rest).length + 1) ∧
        last = grown reached ((pushed ++ rest).length + 1)) := by
  have length := length_pairs (represents.holds inUse) vm.heap.store
  simp only [hrlistp, Outcome.bind_eq_ok, Prod.exists, Except.ok.injEq, Prod.mk.injEq] at success
  rcases success with ⟨hr, popped, pops, handle, read, answer, passed, heap, lists, count, listed,
    listing, _, pushed, pushes, _, rfl⟩
  rcases shows.pop_eq_ok pops with ⟨_, left, same, shown⟩
  rw [List.cons.injEq] at same
  rcases same with ⟨rfl, rfl⟩
  simp only [Value.derefHashReference, Value.derefReference_self, Except.ok.injEq] at read
  subst read
  rcases represents.listPairs_eq_ok inUse lists with ⟨rfl, answered⟩
  refine ⟨rfl, ?_⟩
  generalize HashScalars.pairsOf vm.heap.store (HashScalars.chains first).flatten = pairs
    at answered length ⊢
  generalize first.size = size at answered length ⊢
  rcases answered with failed | ⟨storage, copies, listed⟩
  · cases failed
    rcases shown.pushCounted_eq_ok (Nat.zero_le _) listing pushes with
      ⟨some, counted, reached, last, shown, nothing | ⟨failed, _⟩, numbered⟩
    · refine ⟨some, counted, reached, last, shown, Or.inl nothing, ?_⟩
      rcases numbered with nothing | ⟨one, number, room, grew⟩
      · exact Or.inl nothing
      · exact Or.inr ⟨count, one, number, room, grew⟩
    · cases failed
  · cases listed
    have object := (memory 0).calloc_fits _ _ storage
    rw [← length] at object
    simp only [Option.elim, ← length, List.take_length] at listing
    rcases shown.pushCounted_eq_ok object listing pushes with
      ⟨some, counted, reached, last, shown, complete, numbered⟩
    refine ⟨some, counted, reached, last, shown, ?_, ?_⟩
    · rcases complete with nothing | ⟨_, positive, rfl, room, stored, grew⟩
      · exact Or.inl nothing
      · rw [length] at room grew
        exact Or.inr ⟨by omega, storage, copies, rfl, room, stored, grew⟩
    · rcases numbered with nothing | ⟨one, number, room, grew⟩
      · exact Or.inl nothing
      · exact Or.inr ⟨count, one, number, room, grew⟩

/-- What `inst_HRFILL` did, if it did not return zero. -/
theorem hrfill_eq_ok {s : ℕ → ℕ} {after : HashVm} {contents : List Value} {incr : ℤ}
    (goesOn : incr ≠ 0)
    (success : hrfill formatFloat conversions memory s vm = .ok (incr, after))
    (shows : vm.stack.Shows contents capacity) :
    ∃ target count pairs left answer,
      contents = .reference .hash target :: count :: (pairs ++ left) ∧
      after.stack.Shows left capacity ∧
      (0 < pairs.length → (memory 0).calloc pairs.length sizeofScalar = true) ∧
      AllStored (memory 4) pairs ∧
      vm.heap.fill formatFloat (memory 1) s target pairs = .ok (answer, after.heap) := by
  simp only [hrfill, Outcome.bind_eq_ok, Prod.exists] at success
  rcases success with ⟨hr, first, pops, target, read, count, second, counts, filling⟩
  rcases shows.popReference_eq_ok pops read counts with ⟨_, beneath, rfl, bare⟩
  generalize (count.intValue conversions).toNat = n at filling
  split at filling
  case isTrue =>
    split at filling
    case isTrue storage =>
      simp only [Outcome.bind_eq_ok, Prod.exists, Except.ok.injEq, Prod.mk.injEq] at filling
      rcases filling with ⟨pairs, popped, pops, answer, heap, fills, _, rfl⟩
      have positive : 0 < n - n % 2 := by
        by_contra zero
        rw [Nat.eq_zero_of_not_pos zero, npop_zero] at pops
        cases pops
      rcases bare.npop_split positive pops with ⟨length, stored, left, rfl, emptied⟩
      refine ⟨target, count, pairs, left, answer, rfl, emptied, ?_, stored, fills⟩
      intro _
      rw [length]
      exact storage
    case isFalse =>
      rw [Except.ok.injEq, Prod.mk.injEq] at filling
      exact absurd filling.1.symm goesOn
  case isFalse =>
    simp only [Outcome.bind_eq_ok, Prod.exists, Except.ok.injEq, Prod.mk.injEq] at filling
    rcases filling with ⟨answer, heap, fills, _, rfl⟩
    refine ⟨target, count, [], beneath, answer, rfl, bare, ?_, ?_, fills⟩
    · intro positive
      cases positive
    · intro value mem
      cases mem

/-- `inst_HRFILL` with as many pairs on the stack as the count says. It takes one less than an odd
count, for which there must be others. -/
theorem hrfill_of (vm : HashVm) (memory : ℕ → Memory) {s : ℕ → ℕ} {count : Value}
    {heap : HashHeap} {answer : ℤ} {n : ℕ}
    (shows : vm.stack.Shows (.reference .hash target :: count :: (pairs ++ rest)) capacity)
    (counts : (count.intValue conversions).toNat = n) (paired : n - n % 2 = pairs.length)
    (others : 0 < n → 0 < pairs.length)
    (counted : Stored (memory 3) count)
    (storage : 0 < pairs.length → (memory 0).calloc pairs.length sizeofScalar = true)
    (stored : AllStored (memory 4) pairs)
    (fills : vm.heap.fill formatFloat (memory 1) s target pairs = .ok (answer, heap)) :
    ∃ next, hrfill formatFloat conversions memory s vm = .ok (1, ⟨next, heap⟩) ∧
      next.Shows rest capacity := by
  rcases shows.popReference (memory 2) with ⟨first, pops, shown⟩
  rcases shown.pop counted with ⟨second, counting, bare⟩
  rcases Nat.eq_zero_or_pos n with empty | positive
  · subst empty
    have nothing := List.length_eq_zero_iff.mp paired.symm
    subst nothing
    refine ⟨second, ?_, bare⟩
    simp only [hrfill, pops, Outcome.ok_bind, Value.derefHashReference,
      Value.derefReference_self, counting, counts, Nat.lt_irrefl, if_false, fills]
  · rcases bare.npop_front (others positive) stored with ⟨next, popping, emptied⟩
    refine ⟨next, ?_, emptied⟩
    simp only [hrfill, pops, Outcome.ok_bind, Value.derefHashReference,
      Value.derefReference_self, counting, counts, positive, if_true, paired,
      storage (others positive), popping, fills]

/-- If every allocation finds its storage, the hash is copied. -/
theorem Supplied.roundTrips {s : ℕ → ℕ} (represents : vm.heap.Represents bindings)
    (sourceInUse : vm.heap.hashes source = some first)
    (targetInUse : vm.heap.hashes target = some second) (apart : source ≠ target)
    (shows : vm.stack.Shows (.reference .hash source :: rest) capacity)
    (fresh : ∀ store, vm.heap.store.releaseAll second.values = .ok store →
      HashModel.FreshRounds store s 0 first.size)
    (supplied : vm.Supplied memory ⟨bindings source, vm.heap.store⟩ first.size rest.length) :
    vm.RoundTrips formatFloat conversions memory s bindings source target first second rest := by
  rcases supplied with ⟨listing, copies, room, onStack, another, further, popping, offStack, items,
    inItems⟩
  rw [shows.capacity] at room another further
  have state := represents.state sourceInUse
  have filled : HashScalars.PairsStored formatFloat (memory 6)
      (HashScalars.pairsOf vm.heap.store (HashScalars.chains first).flatten) :=
    HashScalars.pairsStored_iff.mpr (state.copies_iff.mp inItems)
  rw [state.copies_iff] at onStack offStack
  rcases hrlistp_of conversions represents sourceInUse shows listing copies onStack room another
    with ⟨listed, count, lists, counts, plain, shown⟩
  have length := length_pairs (represents.holds sourceInUse) vm.heap.store
  have values := (represents.state sourceInUse).lastValue_pairs formatFloat
  simp only at values
  generalize HashScalars.pairsOf vm.heap.store (HashScalars.chains first).flatten = pairs
    at shown length values onStack offStack filled
  have height : (count :: (pairs ++ rest)).length + 1 = rest.length + 2 * first.size + 2 := by
    rw [List.length_cons, List.length_append, length]
    omega
  rw [← height] at further
  rcases shown.push (.reference .hash target) further (stored_reference _ _) with
    ⟨pushed, pushes, shown⟩
  rcases represents.fill formatFloat targetInUse length items filled fresh with
    ⟨after, copy, released, fills, copied, others, same, releasing, origin, frame⟩
  have even : pairs.length % 2 = 0 := by omega
  have storage : 0 < pairs.length → (memory 5).calloc pairs.length sizeofScalar = true := by
    intro positive
    rw [length]
    exact popping (by omega)
  rcases hrfill_of ⟨pushed, vm.heap⟩ (fun request => memory (request + 5)) shown
    (counts.trans length.symm) (by rw [even, Nat.sub_zero]) id (plain _) storage offStack fills with
    ⟨next, filling, emptied⟩
  refine ⟨⟨listed, vm.heap⟩, pushed, ⟨next, after⟩, copy, released, lists, pushes, filling,
    emptied.contents, copied, fun key => (same key).trans (values key), others, ?_, releasing,
    origin, frame⟩
  intro handle mem
  rcases (represents.holds sourceInUse).mem_values.mp mem with ⟨key, _, bound⟩
  rcases represents.owned sourceInUse bound with ⟨scalar, used, _⟩
  have elsewhere : handle ∉ second.values := by
    intro own
    rcases (represents.holds targetInUse).mem_values.mp own with ⟨other, _, otherBound⟩
    exact apart (represents.distinct sourceInUse targetInUse bound otherBound).1
  have kept := ScalarStore.releaseAll_frame releasing elsewhere
  refine (frame handle ?_).trans kept
  rintro j below rfl
  have absent := ((fresh released releasing).1 j (Nat.zero_le j) (by omega)).2
  rw [kept, used] at absent
  cases absent

/-- A reference can only be popped if one was pushed: below are a count, or a key. -/
theorem reference_pushed {referring number passed popped left : List Value} {handle : ℕ}
    {count : Value}
    (split : referring ++ (number ++ (passed ++ left)) =
      .reference .hash handle :: count :: (popped ++ left))
    (numbers : ∀ value ∈ number, value = .undefined ∨ ∃ n, value = .int n)
    (keys : passed = [] ∨ ∃ key others, passed = .string key :: others) : referring ≠ [] := by
  rintro rfl
  cases number with
  | nil =>
      rcases keys with rfl | ⟨key, others, rfl⟩
      · have lengths := congrArg List.length split
        simp only [List.length_append, List.length_cons, List.length_nil] at lengths
        omega
      · simp at split
  | cons top others =>
      rw [List.nil_append, List.cons_append, List.cons.injEq] at split
      rcases numbers top List.mem_cons_self with rfl | ⟨_, rfl⟩
      · cases split.1
      · cases split.1

/-- Nothing of an empty hash is listed or popped, and its pairs need no slots. -/
theorem supplied_empty {model : HashModel} {top : Value}
    (shows : vm.stack.Shows (top :: rest) capacity) (nothing : ∀ memory, model.Copies memory)
    (count : Room (memory 2) capacity (rest.length + 1))
    (reference : Room (memory 4) (grown capacity (rest.length + 1)) (rest.length + 2)) :
    vm.Supplied memory model 0 rest.length := by
  have low := shows.length_le
  rw [List.length_cons] at low
  have still : grown vm.stack.items.length (rest.length + 2 * 0) = vm.stack.items.length := by
    apply if_pos
    rw [shows.capacity]
    omega
  constructor
  case listing => exact fun positive => absurd positive (Nat.lt_irrefl 0)
  case listed => exact nothing _
  case pairs =>
    intro short
    rw [shows.capacity] at short
    omega
  case pushed => exact nothing _
  case count =>
    rw [still, shows.capacity]
    exact count
  case reference =>
    rw [still, shows.capacity]
    exact reference
  case popping => exact fun positive => absurd positive (Nat.lt_irrefl 0)
  case popped => exact nothing _
  case items => exact fun positive => absurd positive (Nat.lt_irrefl 0)
  case filled => exact nothing _

/-- If the hash is copied, every allocation found its storage. -/
theorem RoundTrips.supplied {s : ℕ → ℕ} (represents : vm.heap.Represents bindings)
    (absent : vm.heap.store.scalars 0 = none)
    (sourceInUse : vm.heap.hashes source = some first)
    (shows : vm.stack.Shows (.reference .hash source :: rest) capacity)
    (roundTrips : vm.RoundTrips formatFloat conversions memory s bindings source target first
      second rest) :
    vm.Supplied memory ⟨bindings source, vm.heap.store⟩ first.size rest.length := by
  rcases roundTrips with ⟨listed, pushed, filled, copy, _, lists, pushes, fills, emptied, copied,
    same, _⟩
  rcases hrlistp_eq_ok represents sourceInUse shows lists with
    ⟨sameHeap, passed, number, reached, last, shown, complete, numbered⟩
  rcases shown.push_eq_ok pushes with ⟨referring, final, shown, refers⟩
  rcases hrfill_eq_ok (by decide) fills shown with
    ⟨handle, count, popped, left, answer, split, bare, storage, offStack, filling⟩
  rw [bare.contents] at emptied
  subst emptied
  simp only [sameHeap] at filling
  rcases HashHeap.onHash_eq_ok filling with ⟨hash, state, inUse, done, after⟩
  -- As many values are popped as were pushed, and enough for all keys, so all were pushed.
  have lengths := congrArg List.length split
  simp only [List.length_append, List.length_cons] at lengths
  have height := length_pairs (represents.holds sourceInUse) vm.heap.store
  have numbers : ∀ value ∈ number, value = .undefined ∨ ∃ n, value = .int n := by
    rcases numbered with rfl | ⟨n, rfl, isNumber, _⟩
    · simp
    · simpa using isNumber
  have keys : passed = [] ∨ ∃ key others, passed = .string key :: others := by
    rcases complete with ⟨rfl, _⟩ | ⟨positive, _, _, same, _⟩
    · exact Or.inl rfl
    · rw [← same] at height
      cases passed with
      | nil =>
          rw [List.length_nil] at height
          omega
      | cons top others =>
          rcases HashScalars.pairsOf_eq_cons same.symm with ⟨key, rfl⟩
          exact Or.inr ⟨key, others, rfl⟩
  rcases refers with ⟨rfl, _⟩ | ⟨rfl, further, _⟩
  · exact absurd rfl (reference_pushed split numbers keys)
  rw [List.cons_append, List.cons.injEq] at split
  cases split.1
  have found : filled.heap.hashes target = some state.hash := by
    rw [after]
    exact HashHeap.hashes_put_self state
  have size : state.hash.size = first.size := by
    apply represents.size_eq sourceInUse copied found
    rw [Function.update_self]
    exact same
  have few := HashScalars.size_fill done
  rw [size] at few
  have bound := HashScalars.stored_of_fill done
  have item : popped ≠ [] → (memory 6).calloc 1 sizeofHashItem = true := by
    intro nonempty
    apply HashScalars.storage_of_fill absent _ nonempty done
    intro mem
    rcases (represents.holds inUse).mem_values.mp mem with ⟨key, _, bound⟩
    rcases represents.owned inUse bound with ⟨scalar, used, _⟩
    rw [absent] at used
    cases used
  have state : ∀ memory, HashModel.Copies memory ⟨bindings source, vm.heap.store⟩ ↔
      ∀ value ∈ HashScalars.pairsOf vm.heap.store (HashScalars.chains first).flatten,
        Stored memory value := fun _ => (represents.state sourceInUse).copies_iff
  have filledUp : HashScalars.PairsStored formatFloat (memory 6)
      (HashScalars.pairsOf vm.heap.store (HashScalars.chains first).flatten) ↔
        HashModel.Copies (memory 6) ⟨bindings source, vm.heap.store⟩ :=
    HashScalars.pairsStored_iff.trans (state _).symm
  generalize HashScalars.pairsOf vm.heap.store (HashScalars.chains first).flatten = pairs
    at complete height state filledUp
  generalize first.size = size at few complete height ⊢
  rcases numbered with rfl | ⟨n, rfl, _, another, rfl⟩
  · exfalso
    rcases complete with ⟨rfl, _⟩ | ⟨_, _, _, rfl, _⟩
    · simp only [List.length_cons, List.length_nil] at lengths
      omega
    · simp only [height, List.length_cons, List.length_nil] at lengths
      omega
  · rcases complete with ⟨rfl, rfl⟩ | ⟨positive, listing, copies, rfl, room, onStack, rfl⟩
    · simp only [List.length_cons, List.length_nil] at lengths
      have nothing : size = 0 := by omega
      subst nothing
      have none : pairs = [] := List.length_eq_zero_iff.mp height
      refine supplied_empty shows ?_ another further
      intro memory
      rw [state, none]
      exact fun value mem => absurd mem List.not_mem_nil
    · simp only [height, List.length_cons, List.length_nil] at lengths
      have whole : popped.length = 2 * size := by omega
      have taller : (passed ++ left).length = left.length + 2 * size := by
        rw [List.length_append, height, Nat.add_comm]
      simp only [List.length_cons, List.cons_append, List.nil_append, taller] at another further
      have same : popped = passed := by
        have rest := (List.cons.inj split.2).2
        exact (List.append_cancel_right rest).symm
      subst same
      constructor
      case listing => exact fun _ => listing
      case listed => exact copies
      case pairs =>
        rw [shows.capacity]
        exact room
      case pushed => exact (state _).mpr onStack
      case count =>
        rw [shows.capacity]
        exact another
      case reference =>
        rw [shows.capacity]
        exact further
      case popping =>
        intro _
        rw [← whole]
        exact storage (by omega)
      case popped => exact (state _).mpr offStack
      case items =>
        intro _
        apply item
        apply List.ne_nil_of_length_pos
        omega
      case filled => exact filledUp.mp bound

end HashVm

end Dang
