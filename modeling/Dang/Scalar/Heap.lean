import Dang.Scalar.Value
import Mathlib.Algebra.GroupWithZero.Nat
import Mathlib.Data.Finmap
import Mathlib.Order.Lattice.Nat

/-!
# Scalars in storage

What scalars outside of the pools own: the strings on the heap, and for each pooled
object the references counted for them. Copying a scalar adds what the copy owns and
destroying one gives back what it owns; `Moves` keeps the account. Where `calloc` puts
a string is up to an allocator, and whether there is storage for it depends on the time.
Without storage the copy of a string is a null pointer, which nothing checks.
-/

namespace Dang

/-- The choices of `calloc`, for each allocation among the addresses that are not in use. -/
structure Allocator where
  place : ℕ → Finset ℕ → ℕ
  nonzero : ∀ time live, place time live ≠ 0
  fresh : ∀ time live, place time live ∉ live

/-- Storage grows upwards. -/
def Allocator.upwards : Allocator where
  place _ live := live.sup id + 1
  nonzero _ _ := Nat.succ_ne_zero _
  fresh _ live mem := by
    have below : live.sup id + 1 ≤ live.sup id := Finset.le_sup (f := id) mem
    omega

/-- The strings in storage, by their addresses, and the references counted for scalars outside
of the pools. -/
structure ScalarHeap where
  strings : Finmap fun _ : ℕ => Bytes
  references : ReferenceKind → ℕ → ℕ
  allocator : Allocator
  /-- What `calloc` answers to `string_dup`, each time it is called. -/
  memory : ℕ → Memory
  /-- How often `string_dup` was called. -/
  time : ℕ

namespace ScalarHeap

/-- Where the next string goes. -/
def next (heap : ScalarHeap) : ℕ := heap.allocator.place heap.time heap.strings.keys

/-- The heap with another string, at a place that is not in use. -/
def addString (heap : ScalarHeap) (bytes : Bytes) : ScalarHeap :=
  { heap with strings := heap.strings.insert heap.next bytes, time := heap.time + 1 }

/-- `string_dup`: the address of the copy, or a null pointer. -/
def stringDup (heap : ScalarHeap) (orig : ℕ) : Outcome (ℕ × ScalarHeap) :=
  match heap.strings.lookup orig with
  | none => .error .invalidAccess
  | some bytes => do
      match ← StringT.alloc (heap.memory heap.time) bytes.length (some bytes) with
      | none => .ok (0, { heap with time := heap.time + 1 })
      | some copy => .ok (heap.next, heap.addString copy.contents)

/-- The heap with another number of references to an object. -/
def setReferences (heap : ScalarHeap) (kind : ReferenceKind) (handle count : ℕ) : ScalarHeap :=
  { heap with
    references := Function.update heap.references kind
      (Function.update (heap.references kind) handle count) }

/-- What is given back: a string to `string_free`, a reference to `POOL_RELEASE`. -/
def giveBack (heap : ScalarHeap) : Owned → Outcome ScalarHeap
  | .string address =>
      if (heap.strings.lookup address).isSome then
        .ok { heap with strings := heap.strings.erase address }
      else .error .invalidAccess
  | .reference kind handle => do
      Outcome.assertThat (0 < heap.references kind handle)
      .ok (heap.setReferences kind handle (heap.references kind handle - 1))

/-- `anon_scalar_destroy` -/
def destroy (self : Scalar) (heap : ScalarHeap) : Outcome (Scalar × ScalarHeap) := do
  let destroyed ← self.destroy
  let heap ← destroyed.foldlM giveBack heap
  .ok (.undefined, heap)

/-- The part of `anon_scalar_clone` that sets the copy up. The object of a reference has no
mutex, so a reference to it is always counted. -/
def copy (heap : ScalarHeap) : Scalar → Outcome (Scalar × ScalarHeap)
  | .string address => do
      let (address, heap) ← heap.stringDup address
      .ok (.string address, heap)
  | .reference kind handle => do
      Outcome.assertThat (0 < heap.references kind handle)
      .ok (.reference kind handle,
        heap.setReferences kind handle (heap.references kind handle + 1))
  | other => .ok (other, heap)

/-- `anon_scalar_clone` -/
def clone (self other : Scalar) (heap : ScalarHeap) : Outcome (Scalar × ScalarHeap) := do
  let (_, heap) ← destroy self heap
  heap.copy other

/-- The value of a scalar whose string or object is in use. -/
def value (heap : ScalarHeap) : Scalar → Outcome Value
  | .undefined => .ok .undefined
  | .int value => .ok (.int value)
  | .float bits => .ok (.float bits)
  | .function handle => .ok (.function handle)
  | .string address => do
      Outcome.assertThat (address ≠ 0)
      match heap.strings.lookup address with
      | none => .error .invalidAccess
      | some bytes => .ok (.string bytes)
  | .reference kind handle => do
      Outcome.assertThat (handle ≠ 0 ∧ 0 < heap.references kind handle)
      .ok (.reference kind handle)

/-- How much there is of what scalars can own. -/
def supply (heap : ScalarHeap) : Owned → ℕ
  | .string address => if (heap.strings.lookup address).isSome then 1 else 0
  | .reference kind handle => heap.references kind handle

/-- There is storage for a copy of the value now. -/
def CanCopy (heap : ScalarHeap) (denoted : Value) : Prop := Stored (heap.memory heap.time) denoted

/-- From now on there is storage for a copy of each of the values. -/
def Affords (heap : ScalarHeap) (values : List Value) : Prop :=
  ∀ denoted ∈ values, ∀ time, heap.time ≤ time → Stored (heap.memory time) denoted

/-- One heap comes before another. -/
structure Precedes (source target : ScalarHeap) : Prop where
  memory : target.memory = source.memory
  time : source.time ≤ target.time

/-- From one heap to another, what was freed and what was made; other strings stay. -/
structure Moves (source target : ScalarHeap) (freed made : Owned → ℕ) : Prop
    extends Precedes source target where
  supply : ∀ unit, target.supply unit + freed unit = source.supply unit + made unit
  kept : ∀ address bytes, source.strings.lookup address = some bytes →
    freed (.string address) = 0 → target.strings.lookup address = some bytes

variable {source middle target heap : ScalarHeap} {self other scalar : Scalar} {denoted : Value}
  {freed made : Owned → ℕ}

theorem Precedes.refl (heap : ScalarHeap) : Precedes heap heap := ⟨rfl, le_rfl⟩

theorem Precedes.trans (first : Precedes source middle) (second : Precedes middle target) :
    Precedes source target :=
  ⟨second.memory.trans first.memory, first.time.trans second.time⟩

theorem Precedes.affords {values : List Value} (precedes : Precedes source target)
    (affords : source.Affords values) : target.Affords values := by
  intro denoted mem time later
  rw [precedes.memory]
  exact affords denoted mem time (precedes.time.trans later)

theorem Affords.mono {values others : List Value} (affords : heap.Affords values)
    (among : others ⊆ values) : heap.Affords others :=
  fun denoted mem => affords denoted (among mem)

theorem Affords.canCopy {values : List Value} (affords : heap.Affords values)
    (mem : denoted ∈ values) : heap.CanCopy denoted :=
  affords denoted mem heap.time le_rfl

theorem affords_append {first second : List Value} :
    heap.Affords (first ++ second) ↔ heap.Affords first ∧ heap.Affords second :=
  List.forall_mem_append

theorem affords_cons {values : List Value} :
    heap.Affords (denoted :: values) ↔ heap.Affords [denoted] ∧ heap.Affords values := by
  apply @affords_append heap [denoted] values

/-- Nothing but a string needs storage to be copied. -/
theorem affords_of_unstored {values : List Value}
    (unstored : ∀ denoted ∈ values, ∀ bytes, denoted ≠ .string bytes) : heap.Affords values := by
  intro denoted mem time _
  cases denoted with
  | string bytes => exact absurd rfl (unstored _ mem bytes)
  | undefined => rfl
  | int number => rfl
  | float bits => rfl
  | reference kind handle => rfl
  | function handle => rfl

theorem affords_int (number : BitVec 64) : heap.Affords [.int number] := by
  apply affords_of_unstored
  simp

theorem supply_string_le (heap : ScalarHeap) (address : ℕ) : heap.supply (.string address) ≤ 1 := by
  simp only [ScalarHeap.supply]
  split
  case isTrue => exact Nat.le_refl 1
  case isFalse => exact Nat.zero_le 1

theorem supply_string_of {address : ℕ} {bytes : Bytes}
    (found : heap.strings.lookup address = some bytes) : heap.supply (.string address) = 1 := by
  simp [ScalarHeap.supply, found]

theorem Moves.refl (heap : ScalarHeap) : Moves heap heap 0 0 where
  toPrecedes := Precedes.refl heap
  supply _ := rfl
  kept _ _ found _ := found

/-- One step after the other. What the first one makes and the second one frees is left out. -/
theorem Moves.trans {freed' made' : Owned → ℕ} (temporary : Owned → ℕ)
    (first : Moves source middle freed (made + temporary))
    (second : Moves middle target (freed' + temporary) made') :
    Moves source target (freed + freed') (made + made') where
  toPrecedes := first.toPrecedes.trans second.toPrecedes
  supply unit := by
    have before := first.supply unit
    have after := second.supply unit
    simp only [Pi.add_apply] at before after ⊢
    omega
  kept address bytes found unfreed := by
    simp only [Pi.add_apply, Nat.add_eq_zero_iff] at unfreed
    have stays := first.kept address bytes found unfreed.1
    have account := first.supply (.string address)
    simp only [supply_string_of found, supply_string_of stays, Pi.add_apply, unfreed.1] at account
    apply second.kept address bytes stays
    simp only [Pi.add_apply]
    omega

theorem Moves.congr {freed' made' : Owned → ℕ} (moves : Moves source target freed made)
    (sameFreed : ∀ unit, freed unit = freed' unit) (sameMade : ∀ unit, made unit = made' unit) :
    Moves source target freed' made' :=
  funext sameFreed ▸ funext sameMade ▸ moves

theorem Moves.append {freed' made' : Owned → ℕ} (first : Moves source middle freed made)
    (second : Moves middle target freed' made') :
    Moves source target (freed + freed') (made + made') := by
  have firstMoves : Moves source middle freed (made + 0) :=
    first.congr (fun _ => rfl) fun _ => rfl
  have secondMoves : Moves middle target (freed' + 0) made' :=
    second.congr (fun _ => rfl) fun _ => rfl
  exact firstMoves.trans 0 secondMoves

/-- How much of each unit the scalars own. -/
def units (scalars : List Scalar) (unit : Owned) : ℕ := (scalars.flatMap Scalar.owned).count unit

@[simp]
theorem units_nil (unit : Owned) : units [] unit = 0 := rfl

theorem units_cons (scalar : Scalar) (scalars : List Scalar) (unit : Owned) :
    units (scalar :: scalars) unit = units [scalar] unit + units scalars unit := by
  simp [units, List.count_append]

@[simp]
theorem units_append (first second : List Scalar) (unit : Owned) :
    units (first ++ second) unit = units first unit + units second unit := by
  simp [units, List.count_append]

theorem units_string {address : ℕ} (nonzero : address ≠ 0) (unit : Owned) :
    units [.string address] unit = if unit = .string address then 1 else 0 := by
  simp only [units, List.flatMap_singleton, Scalar.owned, nonzero, if_false,
    List.count_singleton, beq_iff_eq]
  exact if_congr eq_comm rfl rfl

theorem units_reference {kind : ReferenceKind} {handle : ℕ} (nonzero : handle ≠ 0)
    (unit : Owned) :
    units [.reference kind handle] unit = if unit = .reference kind handle then 1 else 0 := by
  simp only [units, List.flatMap_singleton, Scalar.owned, nonzero, if_false,
    List.count_singleton, beq_iff_eq]
  exact if_congr eq_comm rfl rfl

theorem units_le_of_mem {scalars : List Scalar} (mem : scalar ∈ scalars) (unit : Owned) :
    units [scalar] unit ≤ units scalars unit := by
  rcases List.append_of_mem mem with ⟨front, back, rfl⟩
  rw [units_append, units_cons scalar back]
  omega

/-- A scalar owns at most one thing, once. -/
theorem units_le_of_owned {held : Owned → ℕ} (holds : ∀ unit ∈ scalar.owned, 0 < held unit)
    (unit : Owned) : units [scalar] unit ≤ held unit := by
  have single : scalar.owned.length ≤ 1 := by
    cases scalar with
    | string address =>
        simp only [Scalar.owned]
        split <;> simp
    | reference kind handle =>
        simp only [Scalar.owned]
        split <;> simp
    | undefined => simp [Scalar.owned]
    | int number => simp [Scalar.owned]
    | float bits => simp [Scalar.owned]
    | function handle => simp [Scalar.owned]
  simp only [units, List.flatMap_singleton]
  by_cases mem : unit ∈ scalar.owned
  · exact (List.count_le_length.trans single).trans (holds unit mem)
  · rw [List.count_eq_zero_of_not_mem mem]
    exact Nat.zero_le _

/-- What `value` reads off a string. -/
theorem value_string {address : ℕ} (known : heap.value (.string address) = .ok denoted) :
    address ≠ 0 ∧ ∃ bytes, heap.strings.lookup address = some bytes ∧ denoted = .string bytes := by
  simp only [ScalarHeap.value, Outcome.bind_eq_ok, Outcome.assertThat_eq_ok] at known
  rcases known with ⟨_, nonzero, known⟩
  refine ⟨nonzero, ?_⟩
  cases found : heap.strings.lookup address with
  | none => simp [found] at known
  | some bytes =>
      simp only [found, Except.ok.injEq] at known
      exact ⟨bytes, rfl, known.symm⟩

theorem value_reference {kind : ReferenceKind} {handle : ℕ}
    (known : heap.value (.reference kind handle) = .ok denoted) :
    handle ≠ 0 ∧ 0 < heap.references kind handle ∧ denoted = .reference kind handle := by
  simp only [ScalarHeap.value, Outcome.bind_eq_ok, Outcome.assertThat_eq_ok,
    Except.ok.injEq] at known
  rcases known with ⟨_, ⟨nonzero, counted⟩, rfl⟩
  exact ⟨nonzero, counted, rfl⟩

/-- A scalar with a value owns what there is. -/
theorem units_le_supply (known : heap.value scalar = .ok denoted) (unit : Owned) :
    units [scalar] unit ≤ heap.supply unit := by
  cases scalar with
  | string address =>
      rcases value_string known with ⟨nonzero, bytes, found, _⟩
      rw [units_string nonzero]
      split
      case isTrue same => rw [same, supply_string_of found]
      case isFalse => exact Nat.zero_le _
  | reference kind handle =>
      rcases value_reference known with ⟨nonzero, counted, _⟩
      rw [units_reference nonzero]
      split
      case isTrue same =>
          rw [same]
          exact counted
      case isFalse => exact Nat.zero_le _
  | undefined => exact Nat.zero_le _
  | int number => exact Nat.zero_le _
  | float bits => exact Nat.zero_le _
  | function handle => exact Nat.zero_le _

/-- A scalar keeps its value while what it owns is not freed. -/
theorem Moves.value (moves : Moves source target freed made)
    (known : source.value scalar = .ok denoted)
    (apart : ∀ unit, freed unit + units [scalar] unit ≤ source.supply unit) :
    target.value scalar = .ok denoted := by
  cases scalar with
  | string address =>
      rcases value_string known with ⟨nonzero, bytes, found, rfl⟩
      have account := apart (.string address)
      rw [units_string nonzero, if_pos rfl, supply_string_of found] at account
      have stays := moves.kept address bytes found (by omega)
      simp [ScalarHeap.value, Outcome.assertThat_of nonzero, stays]
  | reference kind handle =>
      rcases value_reference known with ⟨nonzero, counted, rfl⟩
      have account := apart (.reference kind handle)
      have after := moves.supply (.reference kind handle)
      rw [units_reference nonzero, if_pos rfl] at account
      simp only [ScalarHeap.supply] at account after
      have still : handle ≠ 0 ∧ 0 < target.references kind handle := ⟨nonzero, by omega⟩
      simp [ScalarHeap.value, Outcome.assertThat_of still]
  | undefined => exact known
  | int number => exact known
  | float bits => exact known
  | function handle => exact known

theorem supply_setReferences (heap : ScalarHeap) (kind : ReferenceKind) (handle count : ℕ)
    (unit : Owned) : (heap.setReferences kind handle count).supply unit =
      if unit = .reference kind handle then count else heap.supply unit := by
  cases unit with
  | string address => rfl
  | reference otherKind otherHandle =>
      simp only [ScalarHeap.supply, setReferences, Owned.reference.injEq]
      by_cases sameKind : otherKind = kind
      · subst sameKind
        simp [Function.update_apply]
      · simp [sameKind]

theorem supply_erase (heap : ScalarHeap) (address : ℕ) (unit : Owned) :
    { heap with strings := heap.strings.erase address }.supply unit =
      if unit = .string address then 0 else heap.supply unit := by
  cases unit with
  | reference kind handle => rfl
  | string other =>
      by_cases same : other = address
      · subst same
        simp [ScalarHeap.supply]
      · simp [ScalarHeap.supply, same]

theorem lookup_next (heap : ScalarHeap) : heap.strings.lookup heap.next = none := by
  rw [Finmap.lookup_eq_none, ← Finmap.mem_keys]
  exact heap.allocator.fresh heap.time heap.strings.keys

/-- Destroying a scalar gives back what it owns, and copies nothing. -/
theorem destroy_of (known : heap.value self = .ok denoted) :
    ∃ after, destroy self heap = .ok (.undefined, after) ∧ Moves heap after (units [self]) 0 ∧
      after.time = heap.time := by
  cases self with
  | string address =>
      rcases value_string known with ⟨nonzero, bytes, found, _⟩
      refine ⟨{ heap with strings := heap.strings.erase address }, ?_, ⟨⟨rfl, le_rfl⟩, ?_, ?_⟩, rfl⟩
      · simp [destroy, Scalar.destroy, Outcome.assertThat_of nonzero, giveBack, found]
      · intro unit
        rw [supply_erase, units_string nonzero]
        by_cases same : unit = .string address
        · subst same
          simp [supply_string_of found]
        · simp [same]
      · intro other otherBytes otherFound unfreed
        rw [units_string nonzero] at unfreed
        have apart : other ≠ address := by
          rintro rfl
          simp at unfreed
        rw [Finmap.lookup_erase_ne apart]
        exact otherFound
  | reference kind handle =>
      rcases value_reference known with ⟨nonzero, counted, _⟩
      refine ⟨heap.setReferences kind handle (heap.references kind handle - 1), ?_,
        ⟨⟨rfl, le_rfl⟩, ?_, ?_⟩, rfl⟩
      · have positive : 0 < handle := Nat.pos_of_ne_zero nonzero
        simp [destroy, Scalar.destroy, Outcome.assertThat_of positive, giveBack,
          Outcome.assertThat_of counted]
      · intro unit
        rw [supply_setReferences, units_reference nonzero]
        by_cases same : unit = .reference kind handle
        · subst same
          simp only [if_true, ScalarHeap.supply, Pi.zero_apply]
          omega
        · simp [same]
      · intro other bytes found _
        exact found
  | undefined => exact ⟨heap, rfl, Moves.refl heap, rfl⟩
  | int number => exact ⟨heap, rfl, Moves.refl heap, rfl⟩
  | float bits => exact ⟨heap, rfl, Moves.refl heap, rfl⟩
  | function handle => exact ⟨heap, rfl, Moves.refl heap, rfl⟩

theorem supply_addString (heap : ScalarHeap) (bytes : Bytes) (unit : Owned) :
    (heap.addString bytes).supply unit = heap.supply unit + units [.string heap.next] unit := by
  have nonzero : heap.next ≠ 0 := heap.allocator.nonzero _ _
  rw [units_string nonzero]
  cases unit with
  | reference kind handle => rfl
  | string place =>
      by_cases same : place = heap.next
      · subst same
        simp [addString, ScalarHeap.supply, lookup_next]
      · simp [addString, ScalarHeap.supply, same]

/-- With storage for it, a string is copied to a place that is not in use. -/
theorem stringDup_of {address : ℕ} {bytes : Bytes}
    (found : heap.strings.lookup address = some bytes)
    (stores : (heap.memory heap.time).Stores bytes) :
    heap.stringDup address = .ok (heap.next, heap.addString bytes) := by
  have allocated := StringT.alloc_some.mpr ⟨stores.2, stores.1, rfl⟩
  simp only [stringDup, found, allocated, Outcome.ok_bind, StringT.contents_append]

/-- Without storage for it there is no address. -/
theorem stores_of_stringDup {address copied : ℕ} {bytes : Bytes} {after : ScalarHeap}
    (found : heap.strings.lookup address = some bytes)
    (success : heap.stringDup address = .ok (copied, after)) (nonzero : copied ≠ 0) :
    (heap.memory heap.time).Stores bytes := by
  simp only [stringDup, found] at success
  rcases Outcome.bind_eq_ok.mp success with ⟨made, allocated, result⟩
  cases made with
  | none =>
      cases result
      exact absurd rfl nonzero
  | some string =>
      rcases StringT.alloc_some.mp allocated with ⟨granted, small, _⟩
      exact ⟨small, granted⟩

/-- The copy of a scalar has its value, and owns what was made for it. -/
theorem copy_of (known : heap.value other = .ok denoted) (stored : heap.CanCopy denoted) :
    ∃ new after, heap.copy other = .ok (new, after) ∧ Moves heap after 0 (units [new]) ∧
      after.value new = .ok denoted := by
  cases other with
  | string address =>
      rcases value_string known with ⟨_, bytes, found, rfl⟩
      have nonzero : heap.next ≠ 0 := heap.allocator.nonzero _ _
      refine ⟨.string heap.next, heap.addString bytes, ?_, ⟨⟨rfl, Nat.le_succ _⟩, ?_, ?_⟩, ?_⟩
      · simp only [ScalarHeap.copy, stringDup_of found (stored_string.mp stored), Outcome.ok_bind]
      · intro unit
        exact supply_addString heap bytes unit
      · intro place placeBytes placeFound _
        have apart : place ≠ heap.next := by
          rintro rfl
          simp [lookup_next] at placeFound
        simp only [addString, Finmap.lookup_insert_of_ne _ apart]
        exact placeFound
      · simp [addString, ScalarHeap.value, Outcome.assertThat_of nonzero]
  | reference kind handle =>
      rcases value_reference known with ⟨nonzero, counted, rfl⟩
      refine ⟨.reference kind handle,
        heap.setReferences kind handle (heap.references kind handle + 1), ?_,
        ⟨⟨rfl, le_rfl⟩, ?_, ?_⟩, ?_⟩
      · simp [ScalarHeap.copy, Outcome.assertThat_of counted]
      · intro unit
        rw [supply_setReferences, units_reference nonzero]
        by_cases same : unit = .reference kind handle
        · subst same
          simp [ScalarHeap.supply]
        · simp [same]
      · intro address bytes found _
        exact found
      · have still : handle ≠ 0 ∧ 0 < (heap.setReferences kind handle
            (heap.references kind handle + 1)).references kind handle := by
          refine ⟨nonzero, ?_⟩
          simp [setReferences]
        simp [ScalarHeap.value, Outcome.assertThat_of still]
  | undefined => exact ⟨_, heap, rfl, Moves.refl heap, known⟩
  | int number => exact ⟨_, heap, rfl, Moves.refl heap, known⟩
  | float bits => exact ⟨_, heap, rfl, Moves.refl heap, known⟩
  | function handle => exact ⟨_, heap, rfl, Moves.refl heap, known⟩

/-- A copy that has a value found its storage. -/
theorem canCopy_of_copy {copied : Scalar} {after : ScalarHeap} {made : Value}
    (known : heap.value other = .ok denoted) (success : heap.copy other = .ok (copied, after))
    (copyKnown : after.value copied = .ok made) : heap.CanCopy denoted := by
  cases other with
  | string address =>
      rcases value_string known with ⟨_, bytes, found, rfl⟩
      rcases Outcome.bind_eq_ok.mp success with ⟨⟨place, next⟩, duplicated, result⟩
      cases result
      apply stored_string.mpr
      exact stores_of_stringDup found duplicated (value_string copyKnown).1
  | reference kind handle =>
      rcases value_reference known with ⟨_, _, rfl⟩
      rfl
  | undefined => exact Except.ok.inj known ▸ rfl
  | int number => exact Except.ok.inj known ▸ rfl
  | float bits => exact Except.ok.inj known ▸ rfl
  | function handle => exact Except.ok.inj known ▸ rfl

/-- Cloning into a scalar that owns something else than the original does. -/
theorem clone_of {old : Value} (selfKnown : heap.value self = .ok old)
    (known : heap.value other = .ok denoted)
    (apart : ∀ unit, units [self] unit + units [other] unit ≤ heap.supply unit)
    (stored : heap.CanCopy denoted) :
    ∃ new after, clone self other heap = .ok (new, after) ∧
      Moves heap after (units [self]) (units [new]) ∧ after.value new = .ok denoted := by
  rcases destroy_of selfKnown with ⟨middle, destroyed, frees, time⟩
  have still : middle.CanCopy denoted := by
    rw [CanCopy, frees.memory, time]
    exact stored
  rcases copy_of (frees.value known apart) still with ⟨new, after, copied, makes, newKnown⟩
  refine ⟨new, after, ?_, ?_, newKnown⟩
  · simp [clone, destroyed, copied]
  · apply (frees.append makes).congr
    · intro unit
      simp
    · intro unit
      simp

end ScalarHeap

end Dang
