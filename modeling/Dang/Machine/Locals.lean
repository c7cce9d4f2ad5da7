import Dang.Machine.DataStackCalls

/-!
# Scalars in local variables

An instruction pops scalars into its local variables, pushes copies of them and destroys them
before it returns. While it runs, the items on the stack and the scalars in the variables each own
what they own by themselves.
-/

namespace Dang

open ScalarHeap

namespace DataStack

/-- The data stack is a list of values, and so are the local variables. -/
structure WithLocals (context : DataStack) (values : List Value) (locals : List Scalar)
    (known : List Value) : Prop where
  represents : context.Represents values
  denotes : Denotes context.heap locals known
  backed : ∀ unit, units context.stack.contents unit + units locals unit ≤
    context.heap.supply unit

/-- How many slots the stack has. -/
def capacity (context : DataStack) : ℕ := context.stack.items.length

/-- The stack still has as many slots, and the heap comes after the one before. -/
structure Continues (source target : DataStack) : Prop where
  capacity : target.capacity = source.capacity
  heap : source.heap.Precedes target.heap

variable {context : DataStack} {values known denoted : List Value}
  {locals scalars others : List Scalar} {memory : Memory} {value : Value} {scalar : Scalar}

theorem Continues.refl (context : DataStack) : context.Continues context :=
  ⟨rfl, Precedes.refl _⟩

theorem Continues.trans {source middle target : DataStack} (first : source.Continues middle)
    (second : middle.Continues target) : source.Continues target :=
  ⟨second.capacity.trans first.capacity, first.heap.trans second.heap⟩

theorem Continues.affords {source target : DataStack} (continues : source.Continues target)
    (affords : source.heap.Affords values) : target.heap.Affords values :=
  continues.heap.affords affords

theorem Represents.withLocals (represents : context.Represents values) :
    context.WithLocals values [] [] where
  represents := represents
  denotes := List.Forall₂.nil
  backed := represents.backed

/-- Nothing but the stack is left. -/
theorem WithLocals.length_le (within : context.WithLocals values locals known) :
    values.length ≤ context.capacity := by
  rw [← within.represents.length_eq, Stack.length_contents within.represents.valid]
  exact within.represents.valid.count_le

/-- The order of the variables does not matter. -/
theorem WithLocals.swap (within : context.WithLocals values (scalars ++ locals) (denoted ++ known))
    (counts : scalars.length = denoted.length) :
    context.WithLocals values (locals ++ scalars) (known ++ denoted) := by
  have front : Denotes context.heap scalars denoted := by
    have taken := List.forall₂_take scalars.length within.denotes
    rw [List.take_left, counts, List.take_left] at taken
    exact taken
  have back : Denotes context.heap locals known := by
    have dropped := List.forall₂_drop scalars.length within.denotes
    rw [List.drop_left, counts, List.drop_left] at dropped
    exact dropped
  refine ⟨within.represents, back.append front, ?_⟩
  intro unit
  have owned := within.backed unit
  rw [units_append] at owned ⊢
  omega

theorem WithLocals.swapBack
    (within : context.WithLocals values (locals ++ scalars) (known ++ denoted))
    (counts : scalars.length = denoted.length) :
    context.WithLocals values (scalars ++ locals) (denoted ++ known) := by
  apply within.swap
  have whole := within.denotes.length_eq
  rw [List.length_append, List.length_append] at whole
  omega

theorem WithLocals.front (within : context.WithLocals values (scalars ++ locals) (denoted ++ known))
    (counts : scalars.length = denoted.length) : Denotes context.heap scalars denoted := by
  have taken := List.forall₂_take scalars.length within.denotes
  rw [List.take_left, counts, List.take_left] at taken
  exact taken

theorem WithLocals.value_first
    (within : context.WithLocals values (scalar :: locals) (value :: known)) :
    context.heap.value scalar = .ok value := by
  cases within.denotes with
  | cons first _ => exact first

/-- An integer in a variable owns nothing. -/
theorem WithLocals.literal (within : context.WithLocals values locals known)
    (number : BitVec 64) :
    context.WithLocals values (.int number :: locals) (.int number :: known) where
  represents := within.represents
  denotes := List.Forall₂.cons rfl within.denotes
  backed := within.backed

/-- A variable that goes out of scope. -/
theorem WithLocals.forget
    (within : context.WithLocals values (scalar :: locals) (value :: known)) :
    context.WithLocals values locals known := by
  refine ⟨within.represents, ?_, ?_⟩
  · cases within.denotes with
    | cons _ rest => exact rest
  · intro unit
    have owned := within.backed unit
    rw [units_cons scalar] at owned
    omega

/-- `vm_ds_npop` into new variables. -/
theorem WithLocals.npop (within : context.WithLocals values locals known) {count : ℕ}
    (positive : 0 < count) (depth : count ≤ values.length)
    (affords : context.heap.Affords (values.take count)) :
    ∃ popped after, context.vmDsNpop (List.replicate count .undefined) = .ok (popped, after) ∧
      after.WithLocals (values.drop count) (popped ++ locals) (values.take count ++ known) ∧
      context.Continues after ∧ popped.length = count := by
  have nothing := units_undefined count
  rcases within.represents.npop (denotes_undefined context.heap count)
      (by rwa [List.length_replicate]) (by rwa [List.length_replicate])
      (by rwa [List.length_replicate])
      (fun unit => by rw [nothing, Nat.zero_add]; exact within.represents.backed unit)
    with ⟨popped, after, slots, done, split, _, poppedKnown, rest, moves⟩
  rw [List.length_replicate] at poppedKnown rest
  have owned : ∀ unit, units slots unit + units after.stack.contents unit + units locals unit ≤
      context.heap.supply unit := by
    intro unit
    have whole := within.backed unit
    rw [split, units_append] at whole
    exact whole
  refine ⟨popped, after, done, ⟨rest, ?_, ?_⟩, ⟨?_, moves.toPrecedes⟩, ?_⟩
  · refine poppedKnown.append (within.denotes.moves_all moves ?_)
    intro unit
    have before := owned unit
    simp only [Pi.add_apply, nothing]
    omega
  · intro unit
    have before := owned unit
    have moved := moves.supply unit
    simp only [Pi.add_apply, nothing] at moved
    rw [units_append]
    omega
  · rcases Outcome.bind_eq_ok.mp done with ⟨⟨results, stack, heap⟩, pops, result⟩
    cases result
    exact Stack.length_pop pops
  · rw [poppedKnown.length_eq, List.length_take, Nat.min_eq_left depth]

/-- `vm_ds_pop` into a new variable. -/
theorem WithLocals.pop (within : context.WithLocals (value :: values) locals known)
    (affords : context.heap.Affords [value]) :
    ∃ popped after, context.vmDsPop .undefined = .ok (popped, after) ∧
      after.WithLocals values (popped :: locals) (value :: known) ∧ context.Continues after := by
  rcases within.npop Nat.one_pos (Nat.le_add_left 1 _) affords with
    ⟨popped, after, done, kept, same, one⟩
  rcases List.length_eq_one_iff.mp one with ⟨single, rfl⟩
  refine ⟨single, after, ?_, kept, same⟩
  have pops : context.vmDsNpop [.undefined] = .ok ([single], after) := done
  simp only [vmDsPop, pops, Outcome.ok_bind, List.headD_cons]

/-- `vm_ds_npush` of the first variables, where the stack has slots for them. -/
theorem WithLocals.npush
    (within : context.WithLocals values (scalars ++ locals) (denoted ++ known))
    (counts : scalars.length = denoted.length) (nonempty : 0 < scalars.length)
    (room : values.length + scalars.length ≤ context.capacity)
    (affords : context.heap.Affords denoted) (memory : Memory) :
    ∃ after, context.vmDsNpush memory scalars = .ok (0, after) ∧
      after.WithLocals (denoted ++ values) (scalars ++ locals) (denoted ++ known) ∧
      context.Continues after := by
  have valid := within.represents.valid
  have long := within.represents.length_eq
  rw [Stack.length_contents valid] at long
  have enough : context.stack.count + scalars.length ≤ context.stack.items.length := by
    rw [long]
    exact room
  have stays : context.stack.reserve scalarFunctions memory
      (context.stack.count + scalars.length) = (0, context.stack) := if_pos enough
  have free : context.stack.HasRoomFor scalarFunctions memory scalars.length := by
    rw [Stack.HasRoomFor, stays]
  have object : scalars.length * sizeofScalar ≤ sizeMax := by
    have fits := valid.fits
    rw [scalarFunctions_size] at fits
    have part : scalars.length * 16 ≤ context.stack.items.length * 16 :=
      Nat.mul_le_mul_right 16 (by omega)
    exact Nat.le_trans part fits
  rcases within.represents.npush (within.front counts) affords nonempty object free with
    ⟨after, copies, done, shape, _, represents, moves⟩
  refine ⟨after, done, ⟨represents, within.denotes.grows moves fun _ => rfl, ?_⟩,
    ⟨?_, moves.toPrecedes⟩⟩
  · intro unit
    have owned := within.backed unit
    have moved := moves.supply unit
    simp only [Pi.zero_apply, Nat.add_zero] at moved
    rw [shape, units_append]
    omega
  · rcases Outcome.bind_eq_ok.mp done with ⟨⟨status, stack, heap⟩, pushes, result⟩
    cases result
    have length := Stack.length_push pushes
    rw [stays] at length
    exact length

/-- `vm_ds_push` of the first variable, where the stack has a slot for it. -/
theorem WithLocals.push (within : context.WithLocals values (scalar :: locals) (value :: known))
    (room : values.length < context.capacity) (affords : context.heap.Affords [value])
    (memory : Memory) :
    ∃ after, context.vmDsPush memory scalar = .ok (0, after) ∧
      after.WithLocals (value :: values) (scalar :: locals) (value :: known) ∧
      context.Continues after := by
  have single : context.WithLocals values ([scalar] ++ locals) ([value] ++ known) := within
  exact single.npush rfl Nat.one_pos room affords memory

/-- Destroying the first variables. -/
theorem WithLocals.dropAll
    (within : context.WithLocals values (scalars ++ locals) (denoted ++ known))
    (counts : scalars.length = denoted.length) :
    ∃ heap, Stack.dropAll scalarFunctions scalars context.heap = .ok heap ∧
      WithLocals ⟨context.stack, heap⟩ values locals known ∧
      context.Continues ⟨context.stack, heap⟩ := by
  have owned : ∀ unit, units context.stack.contents unit + units scalars unit +
      units locals unit ≤ context.heap.supply unit := by
    intro unit
    have whole := within.backed unit
    rw [units_append] at whole
    omega
  rcases dropAll_of (within.front counts) (fun unit => by have := owned unit; omega) with
    ⟨heap, done, moves⟩
  have back : Denotes context.heap locals known := by
    have dropped := List.forall₂_drop scalars.length within.denotes
    rw [List.drop_left, counts, List.drop_left] at dropped
    exact dropped
  refine ⟨heap, done, ⟨?_, ?_, ?_⟩, rfl, moves.toPrecedes⟩
  · apply within.represents.moves moves
    intro unit
    have before := owned unit
    omega
  · apply back.moves_all moves
    intro unit
    have before := owned unit
    omega
  · intro unit
    have before := owned unit
    have moved := moves.supply unit
    simp only [Pi.zero_apply, Nat.add_zero] at moved
    dsimp only
    omega

/-- `anon_scalar_destroy` of the first variable. -/
theorem WithLocals.destroy
    (within : context.WithLocals values (scalar :: locals) (value :: known)) :
    ∃ heap, ScalarHeap.destroy scalar context.heap = .ok (.undefined, heap) ∧
      WithLocals ⟨context.stack, heap⟩ values locals known ∧
      context.Continues ⟨context.stack, heap⟩ := by
  have single : context.WithLocals values ([scalar] ++ locals) ([value] ++ known) := within
  rcases single.dropAll rfl with ⟨heap, done, rest⟩
  rcases Outcome.bind_eq_ok.mp done with ⟨⟨left, middle⟩, destroyed, result⟩
  cases result
  refine ⟨_, ?_, rest⟩
  have clears := clears_scalarFunctions _ _ _ _ destroyed
  rw [clears] at destroyed
  exact destroyed

end DataStack

end Dang
