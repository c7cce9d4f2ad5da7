import Dang.Machine.Locals
import Mathlib.Data.List.Rotate

/-!
# ROT, TOR and REV

What they do to the items below the count, and how they undo each other. Each takes the items off
the stack into an array, and gives up if there is no storage for it. Every item is copied on its
way off the stack and back, for which a string needs storage.
-/

namespace Dang

open ScalarHeap

namespace DataStack

section Instructions

variable (conversions : Conversions) (memory : Memory) (context : DataStack)

/-- `inst_ROT`, past the number of items -/
def rotItems (n : ℕ) : Outcome DataStack :=
  if 1 < n then
    if memory.calloc (n - 1) sizeofScalar then do
      let (top, context) ← context.vmDsPop .undefined
      let (items, context) ← context.vmDsNpop (List.replicate (n - 1) .undefined)
      let (_, context) ← context.vmDsPush memory top
      let (_, context) ← context.vmDsNpush memory items
      let (_, heap) ← destroy top context.heap
      let heap ← Stack.dropAll scalarFunctions items heap
      .ok { context with heap := heap }
    else .ok context
  else .ok context

/-- `inst_TOR`, past the number of items -/
def torItems (n : ℕ) : Outcome DataStack :=
  if 1 < n then
    if memory.calloc (n - 1) sizeofScalar then do
      let (items, context) ← context.vmDsNpop (List.replicate (n - 1) .undefined)
      let (bottom, context) ← context.vmDsPop .undefined
      let (_, context) ← context.vmDsNpush memory items
      let (_, context) ← context.vmDsPush memory bottom
      let (_, heap) ← destroy bottom context.heap
      let heap ← Stack.dropAll scalarFunctions items heap
      .ok { context with heap := heap }
    else .ok context
  else .ok context

/-- How `inst_ROT` and `inst_TOR` take the number of items and put it away again. -/
def withCount (items : ℕ → DataStack → Outcome DataStack) : Outcome (ℤ × DataStack) := do
  let (count, context) ← context.vmDsPop .undefined
  let n ← context.heap.getIntValue conversions count
  let context ← items n.toNat context
  let (_, heap) ← destroy count context.heap
  .ok (1, { context with heap := heap })

/-- `inst_ROT` -/
def instROT : Outcome (ℤ × DataStack) :=
  context.withCount conversions fun n context => context.rotItems memory n

/-- `inst_TOR` -/
def instTOR : Outcome (ℤ × DataStack) :=
  context.withCount conversions fun n context => context.torItems memory n

/-- The loop of `inst_REV`, which pushes and destroys the items in turn. -/
def pushEach (context : DataStack) : List Scalar → Outcome DataStack
  | [] => .ok context
  | item :: items => do
      let (_, context) ← context.vmDsPush memory item
      let (_, heap) ← destroy item context.heap
      pushEach { context with heap := heap } items

/-- What `inst_REV` does with the items, and the number that it pushes. -/
def revItems (count : Scalar) (n : ℕ) : Outcome (Scalar × DataStack) :=
  if 0 < n then
    if memory.calloc n sizeofScalar then do
      let (items, context) ← context.vmDsNpop (List.replicate n .undefined)
      let context ← context.pushEach memory items
      .ok (count, context)
    else do
      let (_, heap) ← destroy count context.heap
      .ok (.int 0, { context with heap := heap })
  else .ok (count, context)

/-- `inst_REV` -/
def instREV : Outcome (ℤ × DataStack) := do
  let (count, context) ← context.vmDsPop .undefined
  let n ← context.heap.getIntValue conversions count
  let (count, context) ← context.revItems memory count n.toNat
  let (_, context) ← context.vmDsPush memory count
  let (_, heap) ← destroy count context.heap
  .ok (1, { context with heap := heap })

end Instructions

variable {conversions : Conversions} {memory : Memory} {context : DataStack}
  {values known items rest : List Value} {locals scalars : List Scalar} {n : ℕ} {count value : Value}
  {work : ℕ → DataStack → Outcome DataStack}

/-- There is storage for as many scalars, or fewer. -/
def Grants (memory : Memory) (n : ℕ) : Prop :=
  ∀ k, 0 < k → k ≤ n → memory.calloc k sizeofScalar = true

/-- The stack has these values and so have the local variables, with as many slots as before. -/
def Becomes (context : DataStack) (locals : List Scalar) (known : List Value)
    (values : List Value) (after : DataStack) : Prop :=
  after.WithLocals values locals known ∧ context.Continues after

/-- The top goes below the others. -/
theorem WithLocals.rotItems (within : context.WithLocals (items ++ rest) locals known)
    (granted : Grants memory items.length) (affords : context.heap.Affords items) :
    ∃ after, context.rotItems memory items.length = .ok after ∧
      context.Becomes locals known (items.rotate 1 ++ rest) after := by
  unfold DataStack.rotItems
  by_cases several : 1 < items.length
  · rw [if_pos several, if_pos (granted _ (by omega) (Nat.sub_le _ 1))]
    cases items with
    | nil => simp at several
    | cons value items =>
        rw [List.length_cons] at several ⊢
        rw [Nat.add_sub_cancel, List.rotate_cons_succ, List.rotate_zero, List.append_assoc]
        have long := within.length_le
        rw [List.length_append, List.length_cons] at long
        have whole : context.WithLocals (value :: (items ++ rest)) locals known := within
        rcases affords_cons.mp affords with ⟨valueAffords, itemsAfford⟩
        rcases whole.pop valueAffords with ⟨top, first, popped, one, toFirst⟩
        have positive : 0 < items.length := by omega
        rcases one.npop positive (by simp) (by rw [List.take_left]; exact toFirst.affords itemsAfford)
          with ⟨scalars, second, npopped, all, firstToSecond, counts⟩
        rw [List.drop_left, List.take_left] at all
        have toSecond := toFirst.trans firstToSecond
        have slots := toSecond.capacity
        have topFirst : second.WithLocals rest (top :: (locals ++ scalars))
            (value :: (known ++ items)) := all.swap counts
        rcases topFirst.push (by omega) (toSecond.affords valueAffords) memory with
          ⟨third, pushed, topPushed, secondToThird⟩
        have toThird := toSecond.trans secondToThird
        have slotsThen := toThird.capacity
        have itemsFirst : third.WithLocals (value :: rest) (scalars ++ (top :: locals))
            (items ++ (value :: known)) := WithLocals.swapBack topPushed counts
        rcases itemsFirst.npush counts (by omega) (by rw [List.length_cons]; omega)
          (toThird.affords itemsAfford) memory with ⟨fourth, npushed, itemsPushed, thirdToFourth⟩
        have topAgain : fourth.WithLocals (items ++ value :: rest) (top :: (locals ++ scalars))
            (value :: (known ++ items)) := itemsPushed.swap counts
        rcases topAgain.destroy with ⟨heap, destroyed, left, toHeap⟩
        rcases (left.swapBack counts).dropAll counts with ⟨last, dropped, done, toLast⟩
        refine ⟨⟨fourth.stack, last⟩, ?_, done, ?_⟩
        · simp only [popped, npopped, pushed, npushed, destroyed, dropped, Outcome.ok_bind]
        · exact (toThird.trans thirdToFourth).trans (toHeap.trans toLast)
  · rw [if_neg several]
    refine ⟨context, rfl, ?_, Continues.refl context⟩
    cases items with
    | nil => exact within
    | cons value items =>
        cases items with
        | nil =>
            rw [List.rotate_singleton]
            exact within
        | cons next items => simp at several

/-- The bottom comes to the top. -/
theorem WithLocals.torItems (within : context.WithLocals (items ++ rest) locals known)
    (granted : Grants memory items.length) (affords : context.heap.Affords items) :
    ∃ after, context.torItems memory items.length = .ok after ∧
      context.Becomes locals known (items.rotate (items.length - 1) ++ rest) after := by
  unfold DataStack.torItems
  by_cases several : 1 < items.length
  · rw [if_pos several, if_pos (granted _ (by omega) (Nat.sub_le _ 1))]
    rcases List.eq_nil_or_concat items with rfl | ⟨items, value, rfl⟩
    · simp at several
    · rw [List.concat_eq_append] at within several affords ⊢
      rw [List.length_append, List.length_singleton] at several
      rw [List.length_append, List.length_singleton, Nat.add_sub_cancel,
        List.rotate_append_length_eq]
      have long := within.length_le
      rw [List.length_append, List.length_append, List.length_singleton] at long
      rw [List.append_assoc] at within
      have positive : 0 < items.length := by omega
      rcases affords_append.mp affords with ⟨itemsAfford, valueAffords⟩
      rcases within.npop positive (by simp) (by rw [List.take_left]; exact itemsAfford) with
        ⟨scalars, first, npopped, some, toFirst, counts⟩
      rw [List.drop_left, List.take_left] at some
      rcases some.pop (toFirst.affords valueAffords) with
        ⟨bottom, second, popped, all, firstToSecond⟩
      have toSecond := toFirst.trans firstToSecond
      have slots := toSecond.capacity
      have itemsFirst : second.WithLocals rest (scalars ++ (locals ++ [bottom]))
          (items ++ (known ++ [value])) := by
        have single : second.WithLocals rest ([bottom] ++ (scalars ++ locals))
            ([value] ++ (items ++ known)) := all
        have turned := single.swap rfl
        rw [List.append_assoc, List.append_assoc] at turned
        exact turned
      rcases itemsFirst.npush counts (by omega) (by omega) (toSecond.affords itemsAfford) memory with
        ⟨third, npushed, itemsPushed, secondToThird⟩
      have toThird := toSecond.trans secondToThird
      have slotsThen := toThird.capacity
      have bottomLast : third.WithLocals (items ++ rest) (scalars ++ locals ++ [bottom])
          (items ++ known ++ [value]) := by
        rw [List.append_assoc, List.append_assoc]
        exact itemsPushed
      have bottomFirst : third.WithLocals (items ++ rest) (bottom :: (scalars ++ locals))
          (value :: (items ++ known)) := bottomLast.swapBack rfl
      rcases bottomFirst.push (by rw [List.length_append]; omega) (toThird.affords valueAffords)
        memory with ⟨fourth, pushed, bottomPushed, thirdToFourth⟩
      rcases bottomPushed.destroy with ⟨heap, destroyed, left, toHeap⟩
      rcases left.dropAll counts with ⟨last, dropped, done, toLast⟩
      refine ⟨⟨fourth.stack, last⟩, ?_, done, ?_⟩
      · simp only [popped, npopped, pushed, npushed, destroyed, dropped, Outcome.ok_bind]
      · exact (toThird.trans thirdToFourth).trans (toHeap.trans toLast)
  · rw [if_neg several]
    have still : items.length - 1 = 0 := by omega
    rw [still, List.rotate_zero]
    exact ⟨context, rfl, within, Continues.refl context⟩

/-- The count is popped and destroyed, and in between something is done to the items. -/
theorem WithLocals.withCount (within : context.WithLocals (count :: values) locals known)
    (affords : context.heap.Affords [count])
    (works : ∀ {middle : DataStack} {slots held}, middle.WithLocals values slots held →
      context.Continues middle →
      ∃ after, work (count.intValue conversions).toNat middle = .ok after ∧
        middle.Becomes slots held items after) :
    ∃ after, context.withCount conversions work = .ok (1, after) ∧
      context.Becomes locals known items after := by
  rcases within.pop affords with ⟨popped, first, done, middle, toFirst⟩
  have number := getIntValue_of conversions middle.value_first
  rcases works middle toFirst with ⟨second, worked, left, firstToSecond⟩
  rcases left.destroy with ⟨heap, destroyed, rest, toHeap⟩
  refine ⟨⟨second.stack, heap⟩, ?_, rest, ?_⟩
  · simp only [DataStack.withCount, done, number, worked, destroyed, Outcome.ok_bind]
  · exact (toFirst.trans firstToSecond).trans toHeap

theorem WithLocals.instROT (within : context.WithLocals (count :: (items ++ rest)) locals known)
    (counts : (count.intValue conversions).toNat = items.length)
    (granted : Grants memory items.length) (affords : context.heap.Affords (count :: items)) :
    ∃ after, context.instROT conversions memory = .ok (1, after) ∧
      context.Becomes locals known (items.rotate 1 ++ rest) after := by
  rcases affords_cons.mp affords with ⟨countAffords, itemsAfford⟩
  apply within.withCount countAffords
  intro middle slots held left toMiddle
  rw [counts]
  exact left.rotItems granted (toMiddle.affords itemsAfford)

theorem WithLocals.instTOR (within : context.WithLocals (count :: (items ++ rest)) locals known)
    (counts : (count.intValue conversions).toNat = items.length)
    (granted : Grants memory items.length) (affords : context.heap.Affords (count :: items)) :
    ∃ after, context.instTOR conversions memory = .ok (1, after) ∧
      context.Becomes locals known (items.rotate (items.length - 1) ++ rest) after := by
  rcases affords_cons.mp affords with ⟨countAffords, itemsAfford⟩
  apply within.withCount countAffords
  intro middle slots held left toMiddle
  rw [counts]
  exact left.torItems granted (toMiddle.affords itemsAfford)

/-- Pushed one after the other, the items come out in reverse. -/
theorem WithLocals.pushEach
    (within : context.WithLocals values (scalars ++ locals) (items ++ known))
    (counts : scalars.length = items.length)
    (room : values.length + scalars.length ≤ context.capacity)
    (affords : context.heap.Affords items) (memory : Memory) :
    ∃ after, context.pushEach memory scalars = .ok after ∧
      context.Becomes locals known (items.reverse ++ values) after := by
  induction scalars generalizing context items values with
  | nil =>
      rw [List.length_nil, eq_comm, List.length_eq_zero_iff] at counts
      subst counts
      exact ⟨context, rfl, within, Continues.refl context⟩
  | cons scalar scalars ih =>
      cases items with
      | nil => simp at counts
      | cons value items =>
          rw [List.length_cons] at room
          have first : context.WithLocals values (scalar :: (scalars ++ locals))
              (value :: (items ++ known)) := within
          rcases affords_cons.mp affords with ⟨valueAffords, itemsAfford⟩
          rcases first.push (by omega) valueAffords memory with ⟨second, pushed, both, toSecond⟩
          rcases both.destroy with ⟨heap, destroyed, left, toHeap⟩
          have toMiddle := toSecond.trans toHeap
          have slots := toMiddle.capacity
          rcases ih left (by simpa using counts) (by rw [List.length_cons]; omega)
              (toMiddle.affords itemsAfford)
            with ⟨after, done, represents, toAfter⟩
          refine ⟨after, ?_, ?_, toMiddle.trans toAfter⟩
          · simp only [DataStack.pushEach, pushed, destroyed, done, Outcome.ok_bind]
          · rw [List.reverse_cons, List.append_assoc]
            exact represents

theorem WithLocals.instREV (within : context.WithLocals (count :: (items ++ rest)) locals known)
    (counts : (count.intValue conversions).toNat = items.length)
    (granted : Grants memory items.length) (affords : context.heap.Affords (count :: items)) :
    ∃ after, context.instREV conversions memory = .ok (1, after) ∧
      context.Becomes locals known (count :: (items.reverse ++ rest)) after := by
  have long := within.length_le
  rw [List.length_cons, List.length_append] at long
  rcases affords_cons.mp affords with ⟨countAffords, itemsAfford⟩
  rcases within.pop countAffords with ⟨popped, first, done, one, toFirst⟩
  have slots := toFirst.capacity
  have number := getIntValue_of conversions one.value_first
  have reversed : ∃ second, first.revItems memory popped items.length = .ok (popped, second) ∧
      first.Becomes (popped :: locals) (count :: known) (items.reverse ++ rest) second := by
    unfold revItems
    by_cases some : 0 < items.length
    · rw [if_pos some, if_pos (granted _ some le_rfl)]
      have firstAffords := toFirst.affords itemsAfford
      rcases one.npop some (by simp) (by rw [List.take_left]; exact firstAffords) with
        ⟨scalars, second, npopped, all, firstToSecond, popCounts⟩
      rw [List.drop_left, List.take_left] at all
      have slotsThen := firstToSecond.capacity
      rcases all.pushEach popCounts (by omega) (firstToSecond.affords firstAffords) memory with
        ⟨third, pushed, left, secondToThird⟩
      refine ⟨third, ?_, left, firstToSecond.trans secondToThird⟩
      simp only [npopped, pushed, Outcome.ok_bind]
    · rw [if_neg some]
      have none : items = [] := List.length_eq_zero_iff.mp (by omega)
      subst none
      exact ⟨first, rfl, one, Continues.refl first⟩
  rcases reversed with ⟨second, work, left, firstToSecond⟩
  have toSecond := toFirst.trans firstToSecond
  have slotsThen := toSecond.capacity
  rcases left.push (by rw [List.length_append, List.length_reverse]; omega)
    (toSecond.affords countAffords) memory with ⟨third, pushed, both, secondToThird⟩
  rcases both.destroy with ⟨heap, destroyed, last, toHeap⟩
  refine ⟨⟨third.stack, heap⟩, ?_, last, ?_⟩
  · simp only [DataStack.instREV, done, number, counts, work, pushed, destroyed, Outcome.ok_bind]
  · exact (toSecond.trans secondToThird).trans toHeap

section Laws

variable (conversions : Conversions)

/-- An instruction on a number of items that is pushed just before. -/
def counted (inst : DataStack → Outcome (ℤ × DataStack)) (memory : Memory) (n : ℕ)
    (context : DataStack) : Outcome DataStack := do
  let (_, context) ← context.vmDsPush memory (.int (BitVec.ofNat 64 n))
  let (_, context) ← inst context
  .ok context

/-- `ROT` on as many items, over and over, with storage that may differ from time to time. -/
def rotAgain (n : ℕ) : List Memory → DataStack → Outcome DataStack
  | [], context => .ok context
  | memory :: memories, context => do
      let context ← context.counted (instROT conversions memory) memory n
      rotAgain n memories context

variable {conversions} {inst : DataStack → Outcome (ℤ × DataStack)} {memories : List Memory}

theorem WithLocals.counted (within : context.WithLocals values [] [])
    (room : values.length < context.capacity)
    (runs : ∀ {middle}, DataStack.WithLocals middle (.int (BitVec.ofNat 64 n) :: values) [] [] →
      context.Continues middle → ∃ after, inst middle = .ok (1, after) ∧
        middle.Becomes [] [] items after) :
    ∃ after, context.counted inst memory n = .ok after ∧ context.Becomes [] [] items after := by
  rcases (within.literal (BitVec.ofNat 64 n)).push room (affords_int _) memory with
    ⟨first, pushed, both, toFirst⟩
  rcases runs both.forget toFirst with ⟨after, done, left, firstToAfter⟩
  refine ⟨after, ?_, left, toFirst.trans firstToAfter⟩
  simp only [DataStack.counted, pushed, done, Outcome.ok_bind]

theorem toNat_intValue_ofNat (fits : n < 2 ^ 64) :
    ((Value.int (BitVec.ofNat 64 n)).intValue conversions).toNat = n := by
  rw [Value.intValue, BitVec.toNat_ofNat]
  exact Nat.mod_eq_of_lt fits

variable (conversions) in
theorem WithLocals.countedROT (within : context.WithLocals (items ++ rest) [] [])
    (counts : n = items.length) (fits : n < 2 ^ 64) (room : n + rest.length < context.capacity)
    (granted : Grants memory n) (affords : context.heap.Affords items) :
    ∃ after, context.counted (DataStack.instROT conversions memory) memory n = .ok after ∧
      context.Becomes [] [] (items.rotate 1 ++ rest) after := by
  subst counts
  apply within.counted (by rwa [List.length_append])
  intro middle both toMiddle
  apply both.instROT (toNat_intValue_ofNat fits) granted
  exact affords_cons.mpr ⟨affords_int _, toMiddle.affords affords⟩

variable (conversions) in
theorem WithLocals.countedTOR (within : context.WithLocals (items ++ rest) [] [])
    (counts : n = items.length) (fits : n < 2 ^ 64) (room : n + rest.length < context.capacity)
    (granted : Grants memory n) (affords : context.heap.Affords items) :
    ∃ after, context.counted (DataStack.instTOR conversions memory) memory n = .ok after ∧
      context.Becomes [] [] (items.rotate (items.length - 1) ++ rest) after := by
  subst counts
  apply within.counted (by rwa [List.length_append])
  intro middle both toMiddle
  apply both.instTOR (toNat_intValue_ofNat fits) granted
  exact affords_cons.mpr ⟨affords_int _, toMiddle.affords affords⟩

theorem affords_rotate {heap : ScalarHeap} (affords : heap.Affords items) (k : ℕ) :
    heap.Affords (items.rotate k) := by
  intro value mem
  exact affords value (List.mem_rotate.mp mem)

theorem rotate_all (items : List Value) : items.rotate (1 + (items.length - 1)) = items := by
  cases items with
  | nil => rfl
  | cons value items =>
      rw [List.length_cons, Nat.add_sub_cancel, Nat.add_comm]
      exact List.rotate_length _

theorem WithLocals.rotAgain (within : context.WithLocals (items ++ rest) [] [])
    (counts : n = items.length) (fits : n < 2 ^ 64) (room : n + rest.length < context.capacity)
    (granted : ∀ memory ∈ memories, Grants memory n) (affords : context.heap.Affords items) :
    ∃ after, context.rotAgain conversions n memories = .ok after ∧
      context.Becomes [] [] (items.rotate memories.length ++ rest) after := by
  induction memories generalizing context items with
  | nil =>
      rw [List.length_nil, List.rotate_zero]
      exact ⟨context, rfl, within, Continues.refl context⟩
  | cons memory memories ih =>
      rcases within.countedROT conversions counts fits room (granted memory List.mem_cons_self)
        affords with ⟨first, rotated, turned, toFirst⟩
      rcases ih turned (by rwa [List.length_rotate]) (by rwa [toFirst.capacity])
          (fun memory mem => granted memory (List.mem_cons_of_mem _ mem))
          (affords_rotate (toFirst.affords affords) 1) with ⟨after, done, left, toAfter⟩
      refine ⟨after, ?_, ?_, toFirst.trans toAfter⟩
      · simp only [DataStack.rotAgain, rotated, done, Outcome.ok_bind]
      · rw [List.rotate_rotate, Nat.add_comm] at left
        rw [List.length_cons]
        exact left

/-- `ROT` moves the top below the other items, `TOR` moves the bottom to the top, and `REV`
reverses the items and keeps the count. `ROT` and `TOR` undo each other, `REV` undoes itself, and
after as many `ROT` as there are items all are where they were. Nothing below is touched. -/
theorem rotations_permute (represents : context.Represents (count :: (items ++ rest)))
    (counts : (count.intValue conversions).toNat = items.length)
    (granted : Grants memory items.length) (affords : context.heap.Affords (count :: items)) :
    (∃ after, context.instROT conversions memory = .ok (1, after) ∧
      after.Represents (items.rotate 1 ++ rest)) ∧
    (∃ after, context.instTOR conversions memory = .ok (1, after) ∧
      after.Represents (items.rotate (items.length - 1) ++ rest)) ∧
    (∃ after, context.instREV conversions memory = .ok (1, after) ∧
      after.Represents (count :: (items.reverse ++ rest))) ∧
    (∀ again, Grants again items.length →
      (∃ middle after, context.instROT conversions memory = .ok (1, middle) ∧
        middle.counted (instTOR conversions again) again items.length = .ok after ∧
        after.Represents (items ++ rest)) ∧
      (∃ middle after, context.instTOR conversions memory = .ok (1, middle) ∧
        middle.counted (instROT conversions again) again items.length = .ok after ∧
        after.Represents (items ++ rest)) ∧
      ∃ middle after, context.instREV conversions memory = .ok (1, middle) ∧
        middle.instREV conversions again = .ok (1, after) ∧
        after.Represents (count :: (items ++ rest))) ∧
    ∀ memories : List Memory, memories.length + 1 = items.length →
      (∀ again ∈ memories, Grants again items.length) →
      ∃ middle after, context.instROT conversions memory = .ok (1, middle) ∧
        middle.rotAgain conversions items.length memories = .ok after ∧
        after.Represents (items ++ rest) := by
  have within := represents.withLocals
  have room := within.length_le
  rw [List.length_cons, List.length_append] at room
  have fits : items.length < 2 ^ 64 := by
    rw [← counts]
    exact BitVec.isLt _
  have same := List.length_rotate items 1
  rcases within.instROT counts granted affords with ⟨rotated, rot, afterRot, toRotated⟩
  rcases within.instTOR counts granted affords with ⟨turned, tor, afterTor, toTurned⟩
  rcases within.instREV counts granted affords with ⟨reversed, rev, afterRev, toReversed⟩
  have slotsRotated := toRotated.capacity
  have slotsTurned := toTurned.capacity
  rcases affords_cons.mp affords with ⟨countAffords, itemsAfford⟩
  have rotatedAfford := affords_rotate (toRotated.affords itemsAfford) 1
  have turnedAfford := affords_rotate (toTurned.affords itemsAfford) (items.length - 1)
  refine ⟨⟨rotated, rot, afterRot.represents⟩, ⟨turned, tor, afterTor.represents⟩,
    ⟨reversed, rev, afterRev.represents⟩, ?_, ?_⟩
  · intro again grantedAgain
    refine ⟨?_, ?_, ?_⟩
    · rcases afterRot.countedTOR conversions same.symm fits (by omega) grantedAgain rotatedAfford
        with ⟨after, done, left, _⟩
      rw [same, List.rotate_rotate, rotate_all] at left
      exact ⟨rotated, after, rot, done, left.represents⟩
    · rcases afterTor.countedROT conversions (List.length_rotate _ _).symm fits (by omega)
        grantedAgain turnedAfford with ⟨after, done, left, _⟩
      rw [List.rotate_rotate, Nat.add_comm, rotate_all] at left
      exact ⟨turned, after, tor, done, left.represents⟩
    · have long : items.reverse.length = items.length := List.length_reverse
      have reversedAfford : reversed.heap.Affords (count :: items.reverse) := by
        apply toReversed.affords
        apply affords.mono
        exact List.cons_subset_cons count (List.reverse_subset.mpr (List.Subset.refl items))
      rcases afterRev.instREV (by rwa [long]) (by rwa [long]) reversedAfford with
        ⟨after, done, left, _⟩
      rw [List.reverse_reverse] at left
      exact ⟨reversed, after, rev, done, left.represents⟩
  · intro memories long grantedAgain
    rcases afterRot.rotAgain same.symm fits (by omega) grantedAgain rotatedAfford with
      ⟨after, done, left, _⟩
    rw [List.rotate_rotate, Nat.add_comm, long, List.rotate_length] at left
    exact ⟨rotated, after, rot, done, left.represents⟩

section Sample

/-- A stack of integers, the top last, on sixteen slots. -/
def pile (numbers : List (BitVec 64)) : DataStack where
  stack := ⟨numbers.map .int ++ List.replicate (16 - numbers.length) .undefined, numbers.length⟩
  heap := sampleHeap

theorem represents_pile {numbers : List (BitVec 64)} (within : numbers.length ≤ 16) :
    (pile numbers).Represents (numbers.reverse.map .int) := by
  have contents : (pile numbers).stack.contents = numbers.reverse.map .int := by
    simp [pile, Stack.contents]
  apply represents_integers sampleHeap ⟨?_, ?_, ?_⟩ contents
  · simp [pile]
  · intro item mem
    rw [pile, List.drop_left' (List.length_map _)] at mem
    exact List.eq_of_mem_replicate mem
  · simp [pile, within, sizeMax]

/-- A string among integers. -/
def mixed : DataStack where
  stack := ⟨[.int 5, .string 1, .int 9, .int 2] ++ List.replicate 12 .undefined, 4⟩
  heap := sampleHeap

theorem represents_mixed :
    mixed.Represents (.int 2 :: ([.int 9, .string (ascii "ab")] ++ [.int 5])) := by
  refine ⟨⟨by decide, ?_, by decide⟩, ?_, ?_⟩
  · intro item mem
    exact List.eq_of_mem_replicate mem
  · exact List.Forall₂.cons rfl (List.Forall₂.cons rfl (List.Forall₂.cons rfl
      (List.Forall₂.cons rfl List.Forall₂.nil)))
  · intro unit
    have known : sampleHeap.value (.string 1) = .ok (.string (ascii "ab")) := rfl
    have owned : units mixed.stack.contents unit = units [.string 1] unit := rfl
    exact owned ▸ units_le_supply known unit

theorem rotations_permute_sample :
    ∃ after, mixed.instROT sampleConversions .ample = .ok (1, after) ∧
      after.Represents [.string (ascii "ab"), .int 9, .int 5] := by
  have counts : ((Value.int 2).intValue sampleConversions).toNat =
      [Value.int 9, Value.string (ascii "ab")].length := rfl
  have granted : Grants .ample [Value.int 9, Value.string (ascii "ab")].length := by
    intro k _ few
    have small : k * 16 ≤ sizeMax := by
      rw [sizeMax]
      rw [List.length_cons, List.length_singleton] at few
      omega
    exact decide_eq_true small
  have affords : mixed.heap.Affords [.int 2, .int 9, .string (ascii "ab")] := by
    intro value mem time _
    have stores : Memory.ample.Stores (ascii "ab") := by decide
    simp only [List.mem_cons, List.not_mem_nil, or_false] at mem
    rcases mem with rfl | rfl | rfl
    · rfl
    · rfl
    · exact stored_string.mpr stores
  exact (rotations_permute represents_mixed counts granted affords).1

/-- Without storage for the list, the count is gone and the items are as they were. -/
theorem not_rotates_exhausted :
    (pile [5, 8, 9, 2]).Represents [.int 2, .int 9, .int 8, .int 5] ∧
      ∃ after, (pile [5, 8, 9, 2]).instROT sampleConversions .exhausted = .ok (1, after) ∧
        after.Represents [.int 9, .int 8, .int 5] ∧
        ¬ after.Represents [.int 8, .int 9, .int 5] := by
  have represents : (pile [5, 8, 9, 2]).Represents [.int 2, .int 9, .int 8, .int 5] :=
    represents_pile (by decide)
  have stays : ∃ after, (pile [5, 8, 9, 2]).instROT sampleConversions .exhausted = .ok (1, after) ∧
      (pile [5, 8, 9, 2]).Becomes [] [] [.int 9, .int 8, .int 5] after := by
    apply represents.withLocals.withCount (affords_int 2)
    intro middle slots held left _
    exact ⟨middle, rfl, left, Continues.refl middle⟩
  rcases stays with ⟨after, done, left, _⟩
  refine ⟨represents, after, done, left.represents, ?_⟩
  intro other
  cases Denotes.unique other.denotes left.represents.denotes

end Sample

end Laws

end DataStack

end Dang
