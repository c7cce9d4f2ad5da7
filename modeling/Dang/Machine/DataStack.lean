import Dang.Foundations.Refinement
import Dang.Scalar.Heap
import Dang.Stack

/-!
# The data stack

The data stack of a context with the strings and references its items own. Pushing
clones each value into a vacated slot; popping clones each item into a result and
destroys it. As a list of values, with the top first, the stack does what the names of
the functions say, and what anybody else owns is left alone.
-/

namespace Dang

open ScalarHeap

/-- `STACK_DEFINITIONS(scalar_t, anon_scalar_init, anon_scalar_destroy, anon_scalar_clone)` -/
def scalarFunctions : ItemFunctions Scalar ScalarHeap where
  zero := .undefined
  copy := clone
  dest := destroy
  size := sizeofScalar

@[simp]
theorem scalarFunctions_zero : scalarFunctions.zero = .undefined := rfl

@[simp]
theorem scalarFunctions_copy : scalarFunctions.copy = clone := rfl

@[simp]
theorem scalarFunctions_dest : scalarFunctions.dest = destroy := rfl

@[simp]
theorem scalarFunctions_size : scalarFunctions.size = 16 := rfl

/-- The scalars have these values. -/
def Denotes (heap : ScalarHeap) (scalars : List Scalar) (values : List Value) : Prop :=
  List.Forall₂ (fun scalar value => heap.value scalar = .ok value) scalars values

section Items

variable {source target heap : ScalarHeap} {scalars slots results : List Scalar}
  {values olds : List Value} {freed made : Owned → ℕ}

theorem clears_scalarFunctions : Stack.Clears scalarFunctions := by
  intro item heap slot after destroyed
  simp only [scalarFunctions_dest, destroy, Outcome.bind_eq_ok, Except.ok.injEq,
    Prod.mk.injEq] at destroyed
  rcases destroyed with ⟨_, _, _, _, rfl, _⟩
  rfl

theorem Denotes.uncons {scalar : Scalar} (denotes : Denotes heap (scalar :: scalars) values) :
    ∃ value others, values = value :: others ∧ heap.value scalar = .ok value ∧
      Denotes heap scalars others := by
  cases denotes with
  | cons known others => exact ⟨_, _, rfl, known, others⟩

/-- Scalars keep their values while what each of them owns is not freed. -/
theorem Denotes.moves (denotes : Denotes source scalars values)
    (moves : Moves source target freed made)
    (apart : ∀ scalar ∈ scalars, ∀ unit, freed unit + units [scalar] unit ≤ source.supply unit) :
    Denotes target scalars values := by
  induction denotes with
  | nil => exact List.Forall₂.nil
  | cons known _ ih =>
      refine List.Forall₂.cons (moves.value known (apart _ List.mem_cons_self)) ?_
      apply ih
      intro scalar mem
      exact apart scalar (List.mem_cons_of_mem _ mem)

theorem units_le_of_mem {scalar : Scalar} (mem : scalar ∈ scalars) (unit : Owned) :
    units [scalar] unit ≤ units scalars unit := by
  rcases List.append_of_mem mem with ⟨front, back, rfl⟩
  rw [units_append, units_cons scalar back]
  omega

/-- Scalars keep their values while what they own together is not freed. -/
theorem Denotes.moves_all (denotes : Denotes source scalars values)
    (moves : Moves source target freed made)
    (apart : ∀ unit, freed unit + units scalars unit ≤ source.supply unit) :
    Denotes target scalars values := by
  apply denotes.moves moves
  intro scalar mem unit
  have part := units_le_of_mem mem unit
  have account := apart unit
  omega

/-- Scalars keep their values while nothing is freed. -/
theorem Denotes.grows (denotes : Denotes source scalars values)
    (moves : Moves source target freed made) (nothing : ∀ unit, freed unit = 0) :
    Denotes target scalars values := by
  apply denotes.moves moves
  intro scalar mem unit
  rcases List.mem_iff_getElem.mp mem with ⟨index, inside, rfl⟩
  have known := List.Forall₂.get denotes inside (denotes.length_eq ▸ inside)
  rw [nothing unit, Nat.zero_add]
  exact units_le_supply known unit

/-- The copies that `STACK_PUSH` makes. -/
theorem copyItems_of (denotes : Denotes heap scalars values) (affords : heap.Affords values) :
    ∃ copies after, Stack.copyItems scalarFunctions scalars heap = .ok (copies, after) ∧
      Moves heap after 0 (units copies) ∧ Denotes after copies values := by
  induction scalars generalizing heap values with
  | nil =>
      cases denotes
      exact ⟨[], heap, rfl, Moves.refl heap, List.Forall₂.nil⟩
  | cons scalar scalars ih =>
      rcases denotes.uncons with ⟨value, values, rfl, known, others⟩
      have undefined : heap.value .undefined = .ok .undefined := rfl
      have apart : ∀ unit, units [.undefined] unit + units [scalar] unit ≤ heap.supply unit := by
        intro unit
        have part := units_le_supply known unit
        have nothing : units [.undefined] unit = 0 := rfl
        omega
      rcases affords_cons.mp affords with ⟨one, more⟩
      rcases clone_of undefined known apart (one.canCopy List.mem_cons_self) with
        ⟨item, middle, cloned, first, itemKnown⟩
      rcases ih (others.grows first fun _ => rfl) (first.affords more) with
        ⟨items, after, copied, rest, denoted⟩
      refine ⟨item :: items, after, ?_, ?_, List.Forall₂.cons ?_ denoted⟩
      · simp [Stack.copyItems, cloned, copied]
      · apply (first.append rest).congr
        · intro unit
          rfl
        · intro unit
          rw [units_cons item]
          rfl
      · apply rest.value itemKnown
        intro unit
        have part := units_le_supply itemKnown unit
        simpa using part

/-- One copy asks for storage once. -/
theorem copyItem_of {scalar : Scalar} {denoted : Value} (known : heap.value scalar = .ok denoted)
    (stored : heap.CanCopy denoted) :
    ∃ copies after, Stack.copyItems scalarFunctions [scalar] heap = .ok (copies, after) ∧
      Moves heap after 0 (units copies) ∧ Denotes after copies [denoted] := by
  rcases copy_of known stored with ⟨copy, after, copied, moves, copyKnown⟩
  refine ⟨[copy], after, ?_, moves, List.Forall₂.cons copyKnown List.Forall₂.nil⟩
  have cloned : clone .undefined scalar heap = .ok (copy, after) := copied
  simp only [Stack.copyItems, scalarFunctions_copy, scalarFunctions_zero, cloned, Outcome.ok_bind]

/-- What `STACK_POP` does to the results and the slots. -/
theorem moveItems_of (resultsDenote : Denotes heap results olds)
    (slotsDenote : Denotes heap slots values) (affords : heap.Affords values)
    (counts : results.length = slots.length)
    (apart : ∀ unit, units results unit + units slots unit ≤ heap.supply unit) :
    ∃ popped after, Stack.moveItems scalarFunctions (results.zip slots) heap = .ok (popped, after) ∧
      Moves heap after (units results + units slots) (units popped) ∧
      Denotes after popped values := by
  induction results generalizing heap slots values olds with
  | nil =>
      rw [List.length_nil, eq_comm, List.length_eq_zero_iff] at counts
      subst counts
      cases slotsDenote
      exact ⟨[], heap, rfl, Moves.refl heap, List.Forall₂.nil⟩
  | cons result results ih =>
      cases slots with
      | nil => simp at counts
      | cons slot slots =>
          rcases resultsDenote.uncons with ⟨old, olds, rfl, resultKnown, resultsKnown⟩
          rcases slotsDenote.uncons with ⟨denoted, values, rfl, slotKnown, slotsKnown⟩
          have account : ∀ unit, units [result] unit + units results unit +
              (units [slot] unit + units slots unit) ≤ heap.supply unit := by
            intro unit
            rw [← units_cons, ← units_cons]
            exact apart unit
          rcases affords_cons.mp affords with ⟨one, more⟩
          rcases clone_of resultKnown slotKnown (fun unit => by have := account unit; omega)
              (one.canCopy List.mem_cons_self)
            with ⟨value, middle, cloned, first, valueKnown⟩
          have slotStays := first.value slotKnown fun unit => by have := account unit; omega
          rcases destroy_of slotStays with ⟨low, destroyed, second, _⟩
          have both : Moves heap low (units [result] + units [slot]) (units [value]) := by
            apply (first.append second).congr
            · intro unit
              rfl
            · intro unit
              rfl
          have lower : ∀ unit, units results unit + units slots unit + units [value] unit ≤
              low.supply unit := by
            intro unit
            have before := account unit
            have after := both.supply unit
            simp only [Pi.add_apply] at after
            omega
          have valueStays := second.value valueKnown fun unit => by
            have before := account unit
            have after := first.supply unit
            omega
          have resultsStay := resultsKnown.moves_all both fun unit => by
            have before := account unit
            simp only [Pi.add_apply]
            omega
          have slotsStay := slotsKnown.moves_all both fun unit => by
            have before := account unit
            simp only [Pi.add_apply]
            omega
          rcases ih resultsStay slotsStay (both.affords more) (by simpa using counts)
              (fun unit => by have := lower unit; omega)
            with ⟨popped, after, moved, rest, poppedKnown⟩
          refine ⟨value :: popped, after, ?_, ?_, List.Forall₂.cons ?_ poppedKnown⟩
          · simp [Stack.moveItems, cloned, destroyed, moved]
          · apply (both.append rest).congr
            · intro unit
              simp only [Pi.add_apply]
              rw [units_cons result results, units_cons slot slots]
              omega
            · intro unit
              rw [units_cons value]
              rfl
          · apply rest.value valueStays
            intro unit
            have below := lower unit
            simp only [Pi.add_apply]
            omega

/-- Destroying items that own what they own by themselves. -/
theorem dropAll_of (denotes : Denotes heap slots values)
    (apart : ∀ unit, units slots unit ≤ heap.supply unit) :
    ∃ after, Stack.dropAll scalarFunctions slots heap = .ok after ∧
      Moves heap after (units slots) 0 := by
  induction slots generalizing heap values with
  | nil => exact ⟨heap, rfl, Moves.refl heap⟩
  | cons slot slots ih =>
      rcases denotes.uncons with ⟨value, values, rfl, known, others⟩
      have account : ∀ unit, units [slot] unit + units slots unit ≤ heap.supply unit := by
        intro unit
        rw [← units_cons]
        exact apart unit
      rcases destroy_of known with ⟨middle, destroyed, first, _⟩
      have left : ∀ unit, units slots unit ≤ middle.supply unit := by
        intro unit
        have before := account unit
        have after := first.supply unit
        simp only [Pi.zero_apply] at after
        omega
      rcases ih (others.moves_all first account) left with ⟨after, dropped, rest⟩
      refine ⟨after, ?_, ?_⟩
      · simp [Stack.dropAll, destroyed, dropped]
      · apply (first.append rest).congr
        · intro unit
          rw [units_cons slot]
          rfl
        · intro unit
          rfl

theorem Denotes.append {first second : List Scalar}
    {firstValues secondValues : List Value} (front : Denotes heap first firstValues)
    (back : Denotes heap second secondValues) :
    Denotes heap (first ++ second) (firstValues ++ secondValues) :=
  List.rel_append front back

theorem Denotes.reverse (denotes : Denotes heap scalars values) :
    Denotes heap scalars.reverse values.reverse :=
  List.rel_reverse denotes

@[simp]
theorem units_reverse (scalars : List Scalar) (unit : Owned) :
    units scalars.reverse unit = units scalars unit := by
  induction scalars with
  | nil => rfl
  | cons scalar scalars ih =>
      rw [List.reverse_cons, units_append, ih, units_cons scalar scalars, Nat.add_comm]

theorem units_undefined (count : ℕ) (unit : Owned) :
    units (List.replicate count .undefined) unit = 0 := by
  induction count with
  | zero => rfl
  | succ count ih =>
      rw [List.replicate_succ, units_cons Scalar.undefined, ih]
      rfl

theorem denotes_replicate {scalar : Scalar} {value : Value}
    (known : heap.value scalar = .ok value) (count : ℕ) :
    Denotes heap (List.replicate count scalar) (List.replicate count value) := by
  induction count with
  | zero => exact List.Forall₂.nil
  | succ count ih => exact List.Forall₂.cons known ih

theorem denotes_undefined (heap : ScalarHeap) (count : ℕ) :
    Denotes heap (List.replicate count .undefined) (List.replicate count .undefined) := by
  apply denotes_replicate
  rfl

end Items

/-- The data stack of a context, and the heap. -/
structure DataStack where
  stack : Stack Scalar
  heap : ScalarHeap

/-- What the C library makes of a float and of a string: the conversion to `intptr_t`, and
`strtol` with base 0. -/
structure Conversions where
  truncate : BitVec 64 → BitVec 64
  strtol : Bytes → BitVec 64

/-- `anon_scalar_get_int_value` -/
def ScalarHeap.getIntValue (conversions : Conversions) (heap : ScalarHeap) :
    Scalar → Outcome (BitVec 64)
  | .int value => .ok value
  | .float bits => .ok (conversions.truncate bits)
  | .string address => do
      Outcome.assertThat (address ≠ 0)
      match heap.strings.lookup address with
      | none => .error .invalidAccess
      | some bytes => .ok (conversions.strtol bytes)
  | _ => .ok 0

/-- The integer value of what a scalar stands for. -/
def Value.intValue (conversions : Conversions) : Value → BitVec 64
  | .int value => value
  | .float bits => conversions.truncate bits
  | .string bytes => conversions.strtol bytes
  | _ => 0

/-- The scalar's type is `SCALAR_FUNCREF`. -/
def Scalar.isFunction : Scalar → Bool
  | .function _ => true
  | _ => false

namespace DataStack

/-- `vm_ds_npush` -/
def vmDsNpush (memory : Memory) (values : List Scalar) (context : DataStack) :
    Outcome (ℤ × DataStack) := do
  let (status, stack, heap) ← context.stack.push scalarFunctions memory values context.heap
  .ok (status, ⟨stack, heap⟩)

/-- `vm_ds_push` -/
def vmDsPush (memory : Memory) (value : Scalar) (context : DataStack) :
    Outcome (ℤ × DataStack) :=
  context.vmDsNpush memory [value]

/-- `vm_ds_npop` into the given results -/
def vmDsNpop (results : List Scalar) (context : DataStack) :
    Outcome (List Scalar × DataStack) := do
  let (results, stack, heap) ← context.stack.pop scalarFunctions results context.heap
  .ok (results, ⟨stack, heap⟩)

/-- `vm_ds_pop` into the given result -/
def vmDsPop (result : Scalar) (context : DataStack) : Outcome (Scalar × DataStack) := do
  let (results, context) ← context.vmDsNpop [result]
  .ok (results.headD .undefined, context)

/-- `vm_ds_npop` with a null pointer in place of the results -/
def vmDsNdrop (count : ℕ) (context : DataStack) : Outcome DataStack := do
  let (stack, heap) ← context.stack.drop scalarFunctions count context.heap
  .ok ⟨stack, heap⟩

/-- `vm_ds_top` -/
def vmDsTop (result : Scalar) (context : DataStack) : Outcome (Scalar × DataStack) := do
  let (result, heap) ← context.stack.top scalarFunctions result context.heap
  .ok (result, { context with heap := heap })

/-- `vm_ds_swap` -/
def vmDsSwap (context : DataStack) : Outcome DataStack := do
  let stack ← context.stack.swap
  .ok { context with stack := stack }

/-- `vm_ds_npop` of the parameters of `inst_CORO`, if there are any. Without storage for them they
stay where they are. -/
def npopParams (memory : Memory) (numParams : BitVec 64) (context : DataStack) :
    Outcome (List Scalar × DataStack) :=
  if 0 < numParams.toInt ∧ memory.calloc numParams.toNat sizeofScalar then
    context.vmDsNpop (List.replicate numParams.toNat .undefined)
  else .ok ([], context)

/-- How `inst_CORO` and `inst_FRCORO` pop the number of parameters and the parameters. -/
def popParams (conversions : Conversions) (memory : Memory) (context : DataStack) :
    Outcome (List Scalar × DataStack) := do
  let (n, context) ← context.vmDsPop .undefined
  let numParams ← context.heap.getIntValue conversions n
  let (params, context) ← context.npopParams memory numParams
  let (_, heap) ← destroy n context.heap
  .ok (params, { context with heap := heap })

/-- The child's data stack after `vm_context_init`, where there is storage, and `vm_ds_npush` of
the parameters, which are then destroyed. -/
def pushParams (memory : Memory) (params : List Scalar) (heap : ScalarHeap) :
    Outcome (Stack Scalar × ScalarHeap) :=
  if params = [] then .ok (.init scalarFunctions, heap)
  else do
    let (_, child) ← vmDsNpush memory params ⟨.init scalarFunctions, heap⟩
    let heap ← Stack.dropAll scalarFunctions params child.heap
    .ok (child.stack, heap)

/-- The data stacks of parent and child in `inst_CORO`, when there is storage for the child. -/
def instCORO (conversions : Conversions) (memory : Memory) (context : DataStack) :
    Outcome (ℤ × Stack Scalar × DataStack) := do
  let (params, context) ← context.popParams conversions memory
  let (child, heap) ← pushParams memory params context.heap
  .ok (1 + 8, child, { context with heap := heap })

/-- The data stacks of parent and child in `inst_FRCORO`, when there is storage for the child. -/
def instFRCORO (conversions : Conversions) (memory : Memory) (context : DataStack) :
    Outcome (ℤ × Stack Scalar × DataStack) := do
  let (fr, context) ← context.vmDsPop .undefined
  Outcome.assertThat (fr.isFunction = true)
  let (_, heap) ← destroy fr context.heap
  let (params, context) ← { context with heap := heap }.popParams conversions memory
  let (child, heap) ← pushParams memory params context.heap
  .ok (1, child, { context with heap := heap })

/-- The data stack is this list of values, the top first. The items own what they own by
themselves, and the vacated slots are undefined. -/
structure Represents (context : DataStack) (values : List Value) : Prop where
  valid : context.stack.Valid scalarFunctions
  denotes : Denotes context.heap context.stack.contents values
  backed : ∀ unit, units context.stack.contents unit ≤ context.heap.supply unit

/-- The callers give some scalars and take others. Whoever owns the rest of the heap owns the
same afterwards, with the same strings. -/
def Exchanges (source target : DataStack) (given taken : List Scalar) : Prop :=
  ∀ others : Owned → ℕ,
    (∀ unit, units source.stack.contents unit + units given unit + others unit =
      source.heap.supply unit) →
    (∀ unit, units target.stack.contents unit + units taken unit + others unit =
      target.heap.supply unit) ∧
    ∀ address, others (.string address) ≠ 0 →
      target.heap.strings.lookup address = source.heap.strings.lookup address

variable {source target context : DataStack} {values olds denoted : List Value}
  {freed made : Owned → ℕ} {scalars results given taken : List Scalar} {memory : Memory}

theorem exchanges_of (moves : Moves source.heap target.heap freed made)
    (within : ∀ unit, freed unit ≤ units source.stack.contents unit + units given unit)
    (balance : ∀ unit, units target.stack.contents unit + units taken unit + freed unit =
      units source.stack.contents unit + units given unit + made unit) :
    Exchanges source target given taken := by
  intro others account
  constructor
  · intro unit
    have before := account unit
    have moved := moves.supply unit
    have balanced := balance unit
    omega
  · intro address owned
    have before := account (.string address)
    have single := source.heap.supply_string_le address
    have part := within (.string address)
    cases found : source.heap.strings.lookup address with
    | none =>
        have nothing : source.heap.supply (.string address) = 0 := by simp [supply, found]
        omega
    | some bytes => exact moves.kept address bytes found (by omega)

/-- What leaves the stack goes to those who take it, or is destroyed with what they give. -/
theorem exchanges_of_removed {removed : List Scalar}
    (split : source.stack.contents = removed ++ target.stack.contents)
    (moves : Moves source.heap target.heap freed made)
    (frees : ∀ unit, freed unit = units given unit + units removed unit)
    (makes : ∀ unit, made unit = units taken unit) : Exchanges source target given taken := by
  refine exchanges_of moves ?_ ?_
  · intro unit
    rw [frees, split, units_append]
    omega
  · intro unit
    rw [frees, makes, split, units_append]
    omega

/-- Copies are put on the stack, and nobody gives or takes anything. -/
theorem exchanges_of_added {copies : List Scalar}
    (shown : target.stack.contents = copies ++ source.stack.contents)
    (moves : Moves source.heap target.heap 0 (units copies)) : Exchanges source target [] [] := by
  refine exchanges_of moves (fun unit => Nat.zero_le _) ?_
  intro unit
  rw [shown, units_append, Pi.zero_apply]
  omega

theorem Represents.moves {heap : ScalarHeap} (represents : context.Represents values)
    (moves : Moves context.heap heap freed made)
    (apart : ∀ unit, freed unit + units context.stack.contents unit ≤ context.heap.supply unit) :
    Represents ⟨context.stack, heap⟩ values where
  valid := represents.valid
  denotes := represents.denotes.moves_all moves apart
  backed := by
    intro unit
    have account := apart unit
    have moved := moves.supply unit
    simp only
    omega

/-- The copies of the values are on the stack, and nothing else changes. -/
def Puts (context : DataStack) (values denoted : List Value) (outcome : Outcome (ℤ × DataStack)) :
    Prop :=
  ∃ after copies, outcome = .ok (0, after) ∧
    after.stack.contents = copies ++ context.stack.contents ∧
    Denotes after.heap copies denoted ∧ after.Represents (denoted ++ values) ∧
    Moves context.heap after.heap 0 (units copies)

theorem Represents.npush_of_copyItems {heap : ScalarHeap} {copies : List Scalar}
    (represents : context.Represents values) (nonempty : 0 < scalars.length)
    (object : scalars.length * sizeofScalar ≤ sizeMax)
    (room : context.stack.HasRoomFor scalarFunctions memory scalars.length)
    (copied : Stack.copyItems scalarFunctions scalars.reverse context.heap = .ok (copies, heap))
    (moves : Moves context.heap heap 0 (units copies))
    (known : Denotes heap copies denoted.reverse) :
    context.Puts values denoted (context.vmDsNpush memory scalars) := by
  rcases Stack.push_of represents.valid (by decide) nonempty object room copied
    with ⟨stack, pushed, shown, valid⟩
  have copiesKnown : Denotes heap copies.reverse denoted := by
    simpa using Denotes.reverse known
  refine ⟨⟨stack, heap⟩, copies.reverse, ?_, shown, copiesKnown, ⟨valid, ?_, ?_⟩, ?_⟩
  · simp [vmDsNpush, pushed]
  · simp only [shown]
    exact copiesKnown.append (represents.denotes.grows moves fun _ => rfl)
  · intro unit
    have owned := represents.backed unit
    have moved := moves.supply unit
    simp only [Pi.zero_apply, Nat.add_zero] at moved
    simp only [shown, units_append, units_reverse]
    omega
  · apply moves.congr
    · intro unit
      rfl
    · intro unit
      rw [units_reverse]

/-- `vm_ds_npush` puts copies of the values on the stack, the first of them on top. -/
theorem Represents.npush (represents : context.Represents values)
    (denotes : Denotes context.heap scalars denoted) (affords : context.heap.Affords denoted)
    (nonempty : 0 < scalars.length) (object : scalars.length * sizeofScalar ≤ sizeMax)
    (room : context.stack.HasRoomFor scalarFunctions memory scalars.length) :
    context.Puts values denoted (context.vmDsNpush memory scalars) := by
  have turned := affords.mono (List.reverse_subset.mpr (List.Subset.refl denoted))
  rcases copyItems_of denotes.reverse turned with ⟨copies, heap, copied, moves, known⟩
  exact represents.npush_of_copyItems nonempty object room copied moves known

/-- `vm_ds_push` needs storage for its own copy only. -/
theorem Represents.push {scalar : Scalar} {value : Value} (represents : context.Represents values)
    (known : context.heap.value scalar = .ok value) (stored : context.heap.CanCopy value)
    (room : context.stack.HasRoomFor scalarFunctions memory 1) :
    context.Puts values [value] (context.vmDsPush memory scalar) := by
  rcases copyItem_of known stored with ⟨copies, heap, copied, moves, copiesKnown⟩
  have one : 0 < [scalar].length := Nat.one_pos
  have object : [scalar].length * sizeofScalar ≤ sizeMax := by simp [sizeofScalar, sizeMax]
  exact represents.npush_of_copyItems one object room copied moves copiesKnown

/-- `vm_ds_npop` moves the topmost items to the results, the top to the first. -/
theorem Represents.npop (represents : context.Represents values)
    (known : Denotes context.heap results olds)
    (affords : context.heap.Affords (values.take results.length)) (nonempty : 0 < results.length)
    (depth : results.length ≤ values.length)
    (apart : ∀ unit, units results unit + units context.stack.contents unit ≤
      context.heap.supply unit) :
    ∃ popped after slots, context.vmDsNpop results = .ok (popped, after) ∧
      context.stack.contents = slots ++ after.stack.contents ∧
      Denotes context.heap slots (values.take results.length) ∧
      Denotes after.heap popped (values.take results.length) ∧
      after.Represents (values.drop results.length) ∧
      Moves context.heap after.heap (units results + units slots) (units popped) := by
  have split := List.take_append_drop results.length context.stack.contents
  have counts : results.length = (context.stack.contents.take results.length).length := by
    have long := represents.denotes.length_eq
    rw [List.length_take]
    omega
  generalize slotsEq : context.stack.contents.take results.length = slots at split counts
  generalize restEq : context.stack.contents.drop results.length = rest at split
  have slotsKnown : Denotes context.heap slots (values.take results.length) := by
    rw [← slotsEq]
    exact List.forall₂_take _ represents.denotes
  have restKnown : Denotes context.heap rest (values.drop results.length) := by
    rw [← restEq]
    exact List.forall₂_drop _ represents.denotes
  have account : ∀ unit, units results unit + units slots unit + units rest unit ≤
      context.heap.supply unit := by
    intro unit
    have whole := apart unit
    rw [← split, units_append] at whole
    omega
  rcases moveItems_of known slotsKnown affords counts (fun unit => by have := account unit; omega)
    with ⟨popped, heap, moved, moves, poppedKnown⟩
  rcases Stack.pop_of clears_scalarFunctions represents.valid split.symm nonempty counts moved
    with ⟨stack, done, shown, valid⟩
  refine ⟨popped, ⟨stack, heap⟩, slots, ?_, ?_, slotsKnown, poppedKnown, ⟨valid, ?_, ?_⟩, moves⟩
  · simp [vmDsNpop, done]
  · simp only [shown]
    exact split.symm
  · simp only [shown]
    apply restKnown.moves_all moves
    intro unit
    simp only [Pi.add_apply]
    exact account unit
  · intro unit
    have before := account unit
    have after := moves.supply unit
    simp only [Pi.add_apply] at after
    simp only [shown]
    omega

/-- Without results `vm_ds_npop` destroys the topmost items. -/
theorem Represents.ndrop {count : ℕ} (represents : context.Represents values)
    (nonempty : 0 < count) (depth : count ≤ values.length) :
    ∃ after slots, context.vmDsNdrop count = .ok after ∧
      context.stack.contents = slots ++ after.stack.contents ∧
      after.Represents (values.drop count) ∧ Moves context.heap after.heap (units slots) 0 := by
  have split := List.take_append_drop count context.stack.contents
  have counts : (context.stack.contents.take count).length = count := by
    have long := represents.denotes.length_eq
    rw [List.length_take]
    omega
  generalize slotsEq : context.stack.contents.take count = slots at split counts
  generalize restEq : context.stack.contents.drop count = rest at split
  have slotsKnown : Denotes context.heap slots (values.take count) := by
    rw [← slotsEq]
    exact List.forall₂_take _ represents.denotes
  have restKnown : Denotes context.heap rest (values.drop count) := by
    rw [← restEq]
    exact List.forall₂_drop _ represents.denotes
  have account : ∀ unit, units slots unit + units rest unit ≤ context.heap.supply unit := by
    intro unit
    have whole := represents.backed unit
    rw [← split, units_append] at whole
    exact whole
  rcases dropAll_of slotsKnown (fun unit => by have := account unit; omega)
    with ⟨heap, dropped, moves⟩
  rcases Stack.drop_of clears_scalarFunctions represents.valid split.symm (counts ▸ nonempty)
    dropped with ⟨stack, done, shown, valid⟩
  rw [counts] at done
  refine ⟨⟨stack, heap⟩, slots, ?_, ?_, ⟨valid, ?_, ?_⟩, moves⟩
  · simp [vmDsNdrop, done]
  · simp only [shown]
    exact split.symm
  · simp only [shown]
    exact restKnown.moves_all moves account
  · intro unit
    have before := account unit
    have after := moves.supply unit
    simp only [Pi.zero_apply, Nat.add_zero] at after
    simp only [shown]
    omega

/-- `vm_ds_top` copies the top to the result. -/
theorem Represents.top {result : Scalar} {old value : Value}
    (represents : context.Represents (value :: values))
    (known : context.heap.value result = .ok old) (stored : context.heap.CanCopy value)
    (apart : ∀ unit, units [result] unit + units context.stack.contents unit ≤
      context.heap.supply unit) :
    ∃ copy heap, context.vmDsTop result = .ok (copy, ⟨context.stack, heap⟩) ∧
      heap.value copy = .ok value ∧ Represents ⟨context.stack, heap⟩ (value :: values) ∧
      Moves context.heap heap (units [result]) (units [copy]) := by
  cases shown : context.stack.contents with
  | nil =>
      have denotes := represents.denotes
      rw [shown] at denotes
      cases denotes
  | cons slot rest =>
      have denotes := represents.denotes
      rw [shown] at denotes
      cases denotes with
      | cons slotKnown _ =>
          have account : ∀ unit, units [result] unit + units [slot] unit ≤
              context.heap.supply unit := by
            intro unit
            have whole := apart unit
            rw [shown, units_cons slot rest] at whole
            omega
          rcases clone_of known slotKnown account stored with
            ⟨copy, heap, cloned, moves, copyKnown⟩
          refine ⟨copy, heap, ?_, copyKnown, represents.moves moves apart, moves⟩
          simp [vmDsTop, Stack.top_of represents.valid shown, cloned]

/-- `vm_ds_swap` exchanges the two topmost items. -/
theorem Represents.swap {first second : Value}
    (represents : context.Represents (first :: second :: values)) :
    ∃ stack, context.vmDsSwap = .ok ⟨stack, context.heap⟩ ∧
      Represents ⟨stack, context.heap⟩ (second :: first :: values) ∧
      ∀ unit, units stack.contents unit = units context.stack.contents unit := by
  have denotes := represents.denotes
  cases shown : context.stack.contents with
  | nil =>
      rw [shown] at denotes
      cases denotes
  | cons top rest =>
      rw [shown] at denotes
      rcases Denotes.uncons denotes with ⟨_, _, same, topKnown, restKnown⟩
      simp only [List.cons.injEq] at same
      rcases same with ⟨rfl, rfl⟩
      cases rest with
      | nil => cases restKnown
      | cons below rest =>
          rcases Denotes.uncons restKnown with ⟨_, _, same, belowKnown, restKnown⟩
          simp only [List.cons.injEq] at same
          rcases same with ⟨rfl, rfl⟩
          rcases Stack.swap_of represents.valid shown with ⟨stack, swapped, after, valid⟩
          have same : ∀ unit, units stack.contents unit = units context.stack.contents unit := by
            intro unit
            rw [after, shown, units_cons below (top :: rest), units_cons top rest,
              units_cons top (below :: rest), units_cons below rest]
            omega
          refine ⟨stack, ?_, ⟨valid, ?_, ?_⟩, ?_⟩
          · simp [vmDsSwap, swapped]
          · simp only [after]
            exact List.Forall₂.cons belowKnown (List.Forall₂.cons topKnown restKnown)
          · intro unit
            simp only [same unit]
            exact represents.backed unit
          · rw [← shown]
            exact same

/-- `vm_ds_pop` moves the top to the result. -/
theorem Represents.pop {result : Scalar} {old value : Value}
    (represents : context.Represents (value :: values))
    (known : context.heap.value result = .ok old) (affords : context.heap.Affords [value])
    (apart : ∀ unit, units [result] unit + units context.stack.contents unit ≤
      context.heap.supply unit) :
    ∃ popped after slot, context.vmDsPop result = .ok (popped, after) ∧
      context.stack.contents = slot :: after.stack.contents ∧
      context.heap.value slot = .ok value ∧ after.heap.value popped = .ok value ∧
      after.Represents values ∧
      Moves context.heap after.heap (units [result] + units [slot]) (units [popped]) := by
  have single : Denotes context.heap [result] [old] := List.Forall₂.cons known List.Forall₂.nil
  have depth : [result].length ≤ (value :: values).length := by simp
  rcases represents.npop single affords Nat.one_pos depth apart
    with ⟨popped, after, slots, done, split, slotsKnown, poppedKnown, rest, moves⟩
  cases slotsKnown with
  | cons slotKnown none =>
      cases none
      cases poppedKnown with
      | cons poppedKnown none =>
          cases none
          refine ⟨_, after, _, ?_, split, slotKnown, poppedKnown, rest, moves⟩
          simp [vmDsPop, done]

theorem getIntValue_of (conversions : Conversions) {heap : ScalarHeap} {scalar : Scalar}
    {value : Value} (known : heap.value scalar = .ok value) :
    heap.getIntValue conversions scalar = .ok (value.intValue conversions) := by
  cases scalar with
  | string address =>
      rcases value_string known with ⟨nonzero, bytes, found, rfl⟩
      simp [getIntValue, Outcome.assertThat_of nonzero, found, Value.intValue]
  | reference kind handle =>
      rcases value_reference known with ⟨_, _, rfl⟩
      rfl
  | undefined => exact Except.ok.inj known ▸ rfl
  | int number => exact Except.ok.inj known ▸ rfl
  | float bits => exact Except.ok.inj known ▸ rfl
  | function handle => exact Except.ok.inj known ▸ rfl

/-- How many parameters a number stands for: none if it is not positive. -/
def paramCount (numParams : BitVec 64) : ℕ := if 0 < numParams.toInt then numParams.toNat else 0

/-- The parameters are popped if there are any. -/
theorem Represents.npopParams (represents : context.Represents values) {numParams : BitVec 64}
    (storage : 0 < numParams.toInt → memory.calloc numParams.toNat sizeofScalar = true)
    (affords : context.heap.Affords (values.take (paramCount numParams)))
    (depth : paramCount numParams ≤ values.length) :
    ∃ params after slots, context.npopParams memory numParams = .ok (params, after) ∧
      context.stack.contents = slots ++ after.stack.contents ∧
      Denotes after.heap params (values.take (paramCount numParams)) ∧
      after.Represents (values.drop (paramCount numParams)) ∧
      Moves context.heap after.heap (units slots) (units params) := by
  unfold paramCount at depth affords ⊢
  unfold DataStack.npopParams
  by_cases positive : 0 < numParams.toInt
  · have both := And.intro positive (storage positive)
    rw [if_pos positive] at depth affords ⊢
    rw [if_pos both]
    have some : 0 < numParams.toNat := by
      rcases Nat.eq_zero_or_pos numParams.toNat with zero | some
      · have none : numParams.toInt = 0 := by simp [BitVec.toInt, zero]
        omega
      · exact some
    have undefined := units_undefined numParams.toNat
    rcases represents.npop (denotes_undefined context.heap numParams.toNat)
        (by rwa [List.length_replicate]) (by rwa [List.length_replicate])
        (by rwa [List.length_replicate])
        (fun unit => by rw [undefined, Nat.zero_add]; exact represents.backed unit)
      with ⟨params, after, slots, done, split, _, known, rest, moves⟩
    rw [List.length_replicate] at known rest
    refine ⟨params, after, slots, done, split, known, rest, moves.congr ?_ fun _ => rfl⟩
    intro unit
    simp only [Pi.add_apply, undefined, Nat.zero_add]
  · rw [if_neg positive] at ⊢
    rw [if_neg fun both => positive both.1]
    exact ⟨[], context, [], rfl, rfl, List.Forall₂.nil, represents, Moves.refl _⟩

/-- The number and the parameters are taken off the stack, in the order they were in. -/
theorem Represents.popParams {conversions : Conversions} {n : Value}
    (represents : context.Represents (n :: values))
    (storage : 0 < (n.intValue conversions).toInt →
      memory.calloc (n.intValue conversions).toNat sizeofScalar = true)
    (affords : context.heap.Affords (n :: values.take (paramCount (n.intValue conversions))))
    (depth : paramCount (n.intValue conversions) ≤ values.length) :
    ∃ params after removed, context.popParams conversions memory = .ok (params, after) ∧
      context.stack.contents = removed ++ after.stack.contents ∧
      Denotes after.heap params (values.take (paramCount (n.intValue conversions))) ∧
      after.Represents (values.drop (paramCount (n.intValue conversions))) ∧
      Moves context.heap after.heap (units removed) (units params) := by
  have nothing : ∀ unit, units [.undefined] unit = 0 := fun _ => rfl
  rcases affords_cons.mp affords with ⟨numberAffords, paramsAfford⟩
  rcases represents.pop rfl numberAffords
      (fun unit => by rw [nothing, Nat.zero_add]; exact represents.backed unit)
    with ⟨number, middle, slot, popped, split, _, numberKnown, rest, first⟩
  rcases rest.npopParams storage (first.affords paramsAfford) depth with
    ⟨params, low, slots, done, splitLow, known, left, second⟩
  have backed : ∀ unit, units [slot] unit + (units slots unit + units low.stack.contents unit) ≤
      context.heap.supply unit := by
    intro unit
    have whole := represents.backed unit
    rw [split, splitLow, units_cons slot, units_append] at whole
    exact whole
  have middleSupply : ∀ unit, units slots unit + units low.stack.contents unit +
      units [number] unit ≤ middle.heap.supply unit := by
    intro unit
    have before := backed unit
    have moved := first.supply unit
    simp only [Pi.add_apply, nothing] at moved
    omega
  have lowSupply : ∀ unit, units [number] unit + (units params unit +
      units low.stack.contents unit) ≤ low.heap.supply unit := by
    intro unit
    have before := middleSupply unit
    have moved := second.supply unit
    omega
  have numberStays := second.value numberKnown fun unit => by
    have := middleSupply unit
    omega
  rcases destroy_of numberStays with ⟨heap, destroyed, third, _⟩
  refine ⟨params, ⟨low.stack, heap⟩, slot :: slots, ?_, ?_, ?_, ?_, ?_⟩
  · simp only [DataStack.popParams, popped, Outcome.ok_bind, getIntValue_of conversions numberKnown,
      done, destroyed]
  · rw [split, splitLow]
    rfl
  · apply known.moves_all third
    intro unit
    have := lowSupply unit
    omega
  · apply left.moves third
    intro unit
    have := lowSupply unit
    omega
  · have taken : Moves context.heap low.heap (units [slot] + units slots)
        (units params + units [number]) := by
      apply (first.append second).congr
      · intro unit
        simp only [Pi.add_apply, nothing]
        omega
      · intro unit
        simp only [Pi.add_apply]
        omega
    have given : Moves low.heap heap (0 + units [number]) 0 := third.congr
      (fun unit => by simp only [Pi.add_apply, Pi.zero_apply]; omega) fun _ => rfl
    apply (taken.trans _ given).congr
    · intro unit
      simp only [Pi.add_apply, Pi.zero_apply, Nat.add_zero]
      rw [units_cons slot slots]
    · intro unit
      rfl

/-- The child gets copies of the parameters in the same order, and the parameters themselves
are destroyed. -/
theorem pushParams_of {heap : ScalarHeap} (known : Denotes heap scalars values)
    (affords : heap.Affords values)
    (owned : ∀ unit, units scalars unit ≤ heap.supply unit)
    (object : scalars.length * sizeofScalar ≤ sizeMax)
    (room : (Stack.init scalarFunctions).HasRoomFor scalarFunctions memory scalars.length) :
    ∃ child after, pushParams memory scalars heap = .ok (child, after) ∧
      child.Valid scalarFunctions ∧ Denotes after child.contents values ∧
      Moves heap after (units scalars) (units child.contents) := by
  have fresh : Represents ⟨.init scalarFunctions, heap⟩ [] := by
    refine ⟨Stack.valid_init (by decide), List.Forall₂.nil, ?_⟩
    intro unit
    exact Nat.zero_le _
  by_cases empty : scalars = []
  · subst empty
    cases known
    exact ⟨.init scalarFunctions, heap, rfl, fresh.valid, List.Forall₂.nil, Moves.refl heap⟩
  · rcases fresh.npush known affords (List.length_pos_of_ne_nil empty) object room
      with ⟨child, copies, pushed, shown, copiesKnown, represents, first⟩
    have shown : child.stack.contents = copies := by
      rw [shown]
      exact List.append_nil copies
    have account : ∀ unit, units scalars unit + units copies unit ≤ child.heap.supply unit := by
      intro unit
      have before := owned unit
      have moved := first.supply unit
      simp only [Pi.zero_apply, Nat.add_zero] at moved
      omega
    rcases dropAll_of (known.grows first fun _ => rfl) (fun unit => by
        have := account unit
        omega)
      with ⟨after, dropped, second⟩
    refine ⟨child.stack, after, ?_, represents.valid, ?_, ?_⟩
    · rw [pushParams, if_neg empty, pushed]
      simp [dropped]
    · rw [shown]
      exact copiesKnown.moves_all second account
    · rw [shown]
      apply (first.append second).congr
      · intro unit
        simp only [Pi.add_apply, Pi.zero_apply, Nat.zero_add]
      · intro unit
        rfl

/-- There is storage for the parameters, and for the child's stack. -/
structure CoroSupplied (memory : Memory) (numParams : BitVec 64) : Prop where
  params : 0 < numParams.toInt → memory.calloc numParams.toNat sizeofScalar = true
  room : (Stack.init scalarFunctions).HasRoomFor scalarFunctions memory (paramCount numParams)

theorem CoroSupplied.object {numParams : BitVec 64} (supplied : CoroSupplied memory numParams) :
    paramCount numParams * sizeofScalar ≤ sizeMax := by
  unfold paramCount
  split
  case isTrue positive => exact memory.calloc_fits _ _ (supplied.params positive)
  case isFalse => omega

/-- The child's stack holds the parameters in the same order, and the parent loses them and
their number. -/
theorem Represents.coro {conversions : Conversions} {n : Value}
    (represents : context.Represents (n :: values))
    (supplied : CoroSupplied memory (n.intValue conversions))
    (affords : context.heap.Affords (n :: values.take (paramCount (n.intValue conversions))))
    (depth : paramCount (n.intValue conversions) ≤ values.length) :
    ∃ child after removed, context.instCORO conversions memory = .ok (1 + 8, child, after) ∧
      context.stack.contents = removed ++ after.stack.contents ∧
      Denotes after.heap child.contents (values.take (paramCount (n.intValue conversions))) ∧
      after.Represents (values.drop (paramCount (n.intValue conversions))) ∧
      Moves context.heap after.heap (units removed) (units child.contents) := by
  rcases represents.popParams supplied.params affords depth
    with ⟨params, middle, removed, popped, split, known, rest, first⟩
  have counts : params.length = paramCount (n.intValue conversions) := by
    rw [known.length_eq, List.length_take]
    omega
  have account : ∀ unit, units params unit + units middle.stack.contents unit ≤
      middle.heap.supply unit := by
    intro unit
    have before := represents.backed unit
    have moved := first.supply unit
    rw [split, units_append] at before
    omega
  rcases pushParams_of known (first.affords (affords_cons.mp affords).2)
      (fun unit => by have := account unit; omega)
      (counts ▸ supplied.object) (counts ▸ supplied.room)
    with ⟨child, heap, pushed, _, childKnown, second⟩
  refine ⟨child, ⟨middle.stack, heap⟩, removed, ?_, split, childKnown, rest.moves second account, ?_⟩
  · simp [instCORO, popped, pushed]
  · have taken : Moves context.heap middle.heap (units removed) (0 + units params) :=
      first.congr (fun _ => rfl) fun unit => by simp only [Pi.add_apply, Pi.zero_apply, Nat.zero_add]
    have given : Moves middle.heap heap (0 + units params) (units child.contents) :=
      second.congr (fun unit => by simp only [Pi.add_apply, Pi.zero_apply, Nat.zero_add])
        fun _ => rfl
    apply (taken.trans _ given).congr
    · intro unit
      rfl
    · intro unit
      simp only [Pi.add_apply, Pi.zero_apply, Nat.zero_add]

/-- `FRCORO` takes the function reference off the parent's stack as well. -/
theorem Represents.frcoro {conversions : Conversions} {n : Value} {handle : ℕ}
    (represents : context.Represents (.function handle :: n :: values))
    (supplied : CoroSupplied memory (n.intValue conversions))
    (affords : context.heap.Affords (n :: values.take (paramCount (n.intValue conversions))))
    (depth : paramCount (n.intValue conversions) ≤ values.length) :
    ∃ child after removed, context.instFRCORO conversions memory = .ok (1, child, after) ∧
      context.stack.contents = removed ++ after.stack.contents ∧
      Denotes after.heap child.contents (values.take (paramCount (n.intValue conversions))) ∧
      after.Represents (values.drop (paramCount (n.intValue conversions))) ∧
      Moves context.heap after.heap (units removed) (units child.contents) := by
  have nothing : ∀ unit, units [.undefined] unit = 0 := fun _ => rfl
  have function : context.heap.Affords [.function handle] := affords_of_unstored (by simp)
  rcases represents.pop rfl function
      (fun unit => by rw [nothing, Nat.zero_add]; exact represents.backed unit)
    with ⟨fr, middle, slot, popped, split, slotKnown, frKnown, rest, first⟩
  have functionOf : ∀ {heap : ScalarHeap} {scalar : Scalar},
      heap.value scalar = .ok (.function handle) → scalar = .function handle := by
    intro heap scalar known
    cases scalar with
    | string address => simpa using value_string known
    | reference kind other => simpa using value_reference known
    | undefined => cases known
    | int number => cases known
    | float bits => cases known
    | function other =>
        cases known
        rfl
  obtain rfl := functionOf frKnown
  obtain rfl := functionOf slotKnown
  rcases rest.coro supplied (first.affords affords) depth
    with ⟨child, after, removed, done, splitRest, known, left, second⟩
  simp only [instCORO, Outcome.bind_eq_ok, Prod.exists, Except.ok.injEq, Prod.mk.injEq] at done
  rcases done with ⟨params, low, poppedParams, stack, heap, pushed, _, rfl, rfl⟩
  refine ⟨stack, ⟨low.stack, heap⟩, .function handle :: removed, ?_, ?_, known, left, ?_⟩
  · have isFunction : (Scalar.function handle).isFunction = true := rfl
    have destroyed : destroy (.function handle) middle.heap = .ok (.undefined, middle.heap) := rfl
    simp only [instFRCORO, popped, Outcome.ok_bind, Outcome.assertThat_of isFunction, destroyed,
      poppedParams, pushed]
  · rw [split, splitRest]
    rfl
  · apply (first.append second).congr
    · intro unit
      rw [units_cons (.function handle) removed]
      simp only [Pi.add_apply, nothing, Nat.zero_add]
    · intro unit
      exact Nat.zero_add _

end DataStack

end Dang
