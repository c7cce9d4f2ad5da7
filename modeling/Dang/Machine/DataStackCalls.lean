import Dang.Machine.DataStack

/-!
# Sequences of calls on a data stack

The calls of `vm_ds_push` to `vm_ds_swap`, `CORO` and `FRCORO` on the data stack of one
context, in any order and with other work in between, answer as a list of values does.
-/

namespace Dang

open ScalarHeap

/-- A call that concerns the data stack of a context. Values to push come with what they are,
results with what they hold. -/
inductive DataStackCall
  | push (value : Scalar) (denoted : Value)
  | npush (values : List Scalar) (denoted : List Value)
  | pop (result : Scalar)
  | npop (results : List Scalar)
  /-- `vm_ds_npop`, or `vm_ds_pop`, with a null pointer for the results. -/
  | ndrop (count : ℕ)
  | top (result : Scalar)
  | swap
  | coro
  | frcoro
  /-- Whatever else happens to the heap. -/
  | others (heap : ScalarHeap)

/-- The results that a call is given to overwrite. -/
def DataStackCall.given : DataStackCall → List Scalar
  | .pop result => [result]
  | .npop results => results
  | .top result => [result]
  | _ => []

/-- The call is one of the context itself. -/
def DataStackCall.IsOwn (call : DataStackCall) : Prop := ∀ heap, call ≠ .others heap

/-- A call, with the answers of `calloc`. -/
structure DataStackRequest where
  call : DataStackCall
  memory : Memory

/-- What the calls do to a list of values, the top first, and what they return: a status and
the values in the results, or on the child's stack. -/
def listAnswer (conversions : Conversions) (values : List Value) (request : DataStackRequest) :
    (ℤ × List Value) × List Value :=
  match request.call, values with
  | .push _ denoted, values => ((0, []), denoted :: values)
  | .npush _ denoted, values => ((0, []), denoted ++ values)
  | .pop _, values => ((0, values.take 1), values.drop 1)
  | .npop results, values => ((0, values.take results.length), values.drop results.length)
  | .ndrop count, values => ((0, []), values.drop count)
  | .top _, values => ((0, values.take 1), values)
  | .swap, first :: second :: values => ((0, []), second :: first :: values)
  | .coro, n :: values =>
      let count := DataStack.paramCount (n.intValue conversions)
      ((1 + 8, values.take count), values.drop count)
  | .frcoro, _ :: n :: values =>
      let count := DataStack.paramCount (n.intValue conversions)
      ((1, values.take count), values.drop count)
  | _, values => ((0, []), values)

namespace DataStack

/-- A call on the data stack: a status, and the results or the child's stack. -/
def answer (conversions : Conversions) (context : DataStack) (request : DataStackRequest) :
    Outcome (ℤ × List Scalar × DataStack) :=
  match request.call with
  | .push value _ => do
      let (status, after) ← context.vmDsPush request.memory value
      .ok (status, [], after)
  | .npush values _ => do
      let (status, after) ← context.vmDsNpush request.memory values
      .ok (status, [], after)
  | .pop result => do
      let (result, after) ← context.vmDsPop result
      .ok (0, [result], after)
  | .npop results => do
      let (results, after) ← context.vmDsNpop results
      .ok (0, results, after)
  | .ndrop count => do
      let after ← context.vmDsNdrop count
      .ok (0, [], after)
  | .top result => do
      let (result, after) ← context.vmDsTop result
      .ok (0, [result], after)
  | .swap => do
      let after ← context.vmDsSwap
      .ok (0, [], after)
  | .coro => do
      let (incr, child, after) ← context.instCORO conversions request.memory
      .ok (incr, child.contents, after)
  | .frcoro => do
      let (incr, child, after) ← context.instFRCORO conversions request.memory
      .ok (incr, child.contents, after)
  | .others heap => .ok (0, [], { context with heap := heap })

/-- A call, with the values of what it returns. -/
def serve (conversions : Conversions) (context : DataStack) (request : DataStackRequest) :
    Outcome ((ℤ × List Value) × DataStack) := do
  let (status, taken, after) ← context.answer conversions request
  let values ← taken.mapM after.heap.value
  .ok ((status, values), after)

/-- Results may hold scalars of their own, which they lose. -/
def Overwrites (context : DataStack) (results : List Scalar) : Prop :=
  (∃ olds, Denotes context.heap results olds) ∧
    ∀ unit, units results unit + units context.stack.contents unit ≤ context.heap.supply unit

/-- From now on there is storage to copy the topmost items. -/
def AffordsTop (context : DataStack) (count : ℕ) : Prop :=
  ∀ values, Denotes context.heap context.stack.contents values →
    context.heap.Affords (values.take count)

/-- What a call needs: as many items as it pops, storage, also for what it copies, and arguments
that are one object of scalars in use. Other work on the heap leaves alone what the stack owns. -/
def Supplied (conversions : Conversions) (context : DataStack) (request : DataStackRequest) :
    Prop :=
  match request.call with
  | .push value denoted => Denotes context.heap [value] [denoted] ∧
      context.heap.CanCopy denoted ∧ context.stack.HasRoomFor scalarFunctions request.memory 1
  | .npush values denoted => Denotes context.heap values denoted ∧
      context.heap.Affords denoted ∧ 0 < values.length ∧
      values.length * sizeofScalar ≤ sizeMax ∧
      context.stack.HasRoomFor scalarFunctions request.memory values.length
  | .pop result => 0 < context.stack.contents.length ∧ context.AffordsTop 1 ∧
      context.Overwrites [result]
  | .npop results => 0 < results.length ∧ results.length ≤ context.stack.contents.length ∧
      context.AffordsTop results.length ∧ context.Overwrites results
  | .ndrop count => 0 < count ∧ count ≤ context.stack.contents.length
  | .top result => 0 < context.stack.contents.length ∧ context.AffordsTop 1 ∧
      context.Overwrites [result]
  | .swap => 1 < context.stack.contents.length
  | .coro => ∃ slot rest n, context.stack.contents = slot :: rest ∧
      context.heap.value slot = .ok n ∧ paramCount (n.intValue conversions) ≤ rest.length ∧
      context.AffordsTop (paramCount (n.intValue conversions) + 1) ∧
      CoroSupplied request.memory (n.intValue conversions)
  | .frcoro => ∃ handle slot rest n,
      context.stack.contents = .function handle :: slot :: rest ∧
      context.heap.value slot = .ok n ∧ paramCount (n.intValue conversions) ≤ rest.length ∧
      context.AffordsTop (paramCount (n.intValue conversions) + 2) ∧
      CoroSupplied request.memory (n.intValue conversions)
  | .others heap =>
      (∀ values, Denotes context.heap context.stack.contents values →
        Denotes heap context.stack.contents values) ∧
      ∀ unit, units context.stack.contents unit ≤ heap.supply unit

variable {conversions : Conversions} {context : DataStack} {values : List Value}
  {request : DataStackRequest}

theorem mapM_value {heap : ScalarHeap} {scalars : List Scalar}
    (denotes : Denotes heap scalars values) : scalars.mapM heap.value = .ok values := by
  induction denotes with
  | nil => rfl
  | cons known _ ih => simp [List.mapM_cons, known, ih, pure, Except.pure]

theorem Represents.length_eq (represents : context.Represents values) :
    context.stack.contents.length = values.length :=
  represents.denotes.length_eq

theorem Denotes.unique {heap : ScalarHeap} {scalars : List Scalar} {others : List Value}
    (first : Denotes heap scalars values) (second : Denotes heap scalars others) :
    values = others :=
  Except.ok.inj ((mapM_value first).symm.trans (mapM_value second))

/-- Every call answers as the list does, and exchanges what is given for what is taken. -/
theorem Represents.answer (represents : context.Represents values)
    (supplied : context.Supplied conversions request) :
    ∃ taken after, context.answer conversions request =
        .ok ((listAnswer conversions values request).1.1, taken, after) ∧
      Denotes after.heap taken (listAnswer conversions values request).1.2 ∧
      after.Represents (listAnswer conversions values request).2 ∧
      (request.call.IsOwn → Exchanges context after request.call.given taken ∧
        context.heap.Precedes after.heap) := by
  have long := represents.length_eq
  rcases request with ⟨call, memory⟩
  cases call with
  | push value denoted =>
      rcases supplied with ⟨known, stored, room⟩
      cases known with
      | cons scalarKnown _ =>
          rcases represents.push scalarKnown stored room
            with ⟨after, copies, pushed, shown, _, next, moves⟩
          refine ⟨[], after, ?_, List.Forall₂.nil, next,
            fun _ => ⟨exchanges_of_added shown moves, moves.toPrecedes⟩⟩
          simp [DataStack.answer, pushed, listAnswer]
  | npush scalars denoted =>
      rcases supplied with ⟨known, affords, nonempty, object, room⟩
      rcases represents.npush known affords nonempty object room
        with ⟨after, copies, pushed, shown, _, next, moves⟩
      refine ⟨[], after, ?_, List.Forall₂.nil, next,
        fun _ => ⟨exchanges_of_added shown moves, moves.toPrecedes⟩⟩
      simp [DataStack.answer, pushed, listAnswer]
  | pop result =>
      rcases supplied with ⟨nonempty, affords, ⟨olds, known⟩, apart⟩
      rcases Denotes.uncons known with ⟨old, _, rfl, known, _⟩
      cases values with
      | nil =>
          rw [long] at nonempty
          exact absurd nonempty (Nat.lt_irrefl 0)
      | cons value values =>
          rcases represents.pop known (affords _ represents.denotes) apart
            with ⟨popped, after, slot, done, split, _, poppedKnown, next, moves⟩
          have removed : context.stack.contents = [slot] ++ after.stack.contents := split
          refine ⟨[popped], after, ?_, List.Forall₂.cons poppedKnown List.Forall₂.nil, next,
            fun _ => ⟨exchanges_of_removed removed moves (fun _ => rfl) fun _ => rfl,
              moves.toPrecedes⟩⟩
          simp [DataStack.answer, done, listAnswer]
  | npop results =>
      rcases supplied with ⟨nonempty, depth, affords, ⟨olds, known⟩, apart⟩
      rcases represents.npop known (affords _ represents.denotes) nonempty (long ▸ depth) apart
        with ⟨popped, after, slots, done, split, _, poppedKnown, next, moves⟩
      refine ⟨popped, after, ?_, poppedKnown, next,
        fun _ => ⟨exchanges_of_removed split moves (fun _ => rfl) fun _ => rfl,
          moves.toPrecedes⟩⟩
      simp [DataStack.answer, done, listAnswer]
  | ndrop count =>
      rcases represents.ndrop supplied.1 (long ▸ supplied.2)
        with ⟨after, slots, done, split, next, moves⟩
      refine ⟨[], after, ?_, List.Forall₂.nil, next,
        fun _ => ⟨exchanges_of_removed split moves (fun _ => (Nat.zero_add _).symm) fun _ => rfl,
          moves.toPrecedes⟩⟩
      simp [DataStack.answer, done, listAnswer]
  | top result =>
      rcases supplied with ⟨nonempty, affords, ⟨olds, known⟩, apart⟩
      rcases Denotes.uncons known with ⟨old, _, rfl, known, _⟩
      cases values with
      | nil =>
          rw [long] at nonempty
          exact absurd nonempty (Nat.lt_irrefl 0)
      | cons value values =>
          have stored := (affords _ represents.denotes).canCopy List.mem_cons_self
          rcases represents.top known stored apart with ⟨copy, heap, done, copyKnown, next, moves⟩
          refine ⟨[copy], ⟨context.stack, heap⟩, ?_, List.Forall₂.cons copyKnown List.Forall₂.nil,
            next, fun _ => ⟨exchanges_of_removed (List.nil_append _).symm moves (fun _ => rfl)
              fun _ => rfl, moves.toPrecedes⟩⟩
          simp [DataStack.answer, done, listAnswer]
  | swap =>
      have deep : 1 < context.stack.contents.length := supplied
      rw [long] at deep
      rcases values with _ | ⟨first, _ | ⟨second, values⟩⟩
      · simp at deep
      · simp at deep
      · rcases represents.swap with ⟨stack, done, next, same⟩
        refine ⟨[], ⟨stack, context.heap⟩, ?_, List.Forall₂.nil, next,
          fun _ => ⟨exchanges_of (Moves.refl context.heap) ?_ ?_, Precedes.refl context.heap⟩⟩
        · simp [DataStack.answer, done, listAnswer]
        · intro unit
          exact Nat.zero_le _
        · intro unit
          simp only [same unit, units_nil, Pi.zero_apply, DataStackCall.given]
  | coro =>
      rcases supplied with ⟨slot, rest, n, shown, slotKnown, depth, affords, storage⟩
      have denotes := represents.denotes
      have copies := affords _ denotes
      rw [shown] at denotes
      rcases Denotes.uncons denotes with ⟨_, values, rfl, known, restKnown⟩
      obtain rfl := Except.ok.inj (slotKnown.symm.trans known)
      rcases represents.coro storage copies (restKnown.length_eq ▸ depth)
        with ⟨child, after, removed, done, split, childKnown, next, moves⟩
      refine ⟨child.contents, after, ?_, childKnown, next,
        fun _ => ⟨exchanges_of_removed split moves (fun _ => (Nat.zero_add _).symm) fun _ => rfl,
          moves.toPrecedes⟩⟩
      simp [DataStack.answer, done, listAnswer]
  | frcoro =>
      rcases supplied with ⟨handle, slot, rest, n, shown, slotKnown, depth, affords, storage⟩
      have denotes := represents.denotes
      have copies := affords _ denotes
      rw [shown] at denotes
      rcases Denotes.uncons denotes with ⟨_, _, rfl, frKnown, denotes⟩
      rcases Denotes.uncons denotes with ⟨_, values, rfl, known, restKnown⟩
      obtain rfl := Except.ok.inj (slotKnown.symm.trans known)
      obtain rfl := Except.ok.inj frKnown
      rcases represents.frcoro storage (affords_cons.mp copies).2 (restKnown.length_eq ▸ depth)
        with ⟨child, after, removed, done, split, childKnown, next, moves⟩
      refine ⟨child.contents, after, ?_, childKnown, next,
        fun _ => ⟨exchanges_of_removed split moves (fun _ => (Nat.zero_add _).symm) fun _ => rfl,
          moves.toPrecedes⟩⟩
      simp [DataStack.answer, done, listAnswer]
  | others heap =>
      rcases supplied with ⟨keeps, owned⟩
      refine ⟨[], { context with heap := heap }, rfl, List.Forall₂.nil, ?_, ?_⟩
      · exact ⟨represents.valid, keeps values represents.denotes, owned⟩
      · intro own
        exact absurd rfl (own heap)

theorem Represents.serve (represents : context.Represents values)
    (supplied : context.Supplied conversions request) :
    ∃ after, context.serve conversions request =
        .ok ((listAnswer conversions values request).1, after) ∧
      after.Represents (listAnswer conversions values request).2 ∧
      (request.call.IsOwn → context.heap.Precedes after.heap) := by
  rcases represents.answer supplied with ⟨taken, after, answered, known, next, own⟩
  refine ⟨after, ?_, next, fun isOwn => (own isOwn).2⟩
  simp [DataStack.serve, answered, mapM_value known]

/-- Before any call. -/
theorem represents_init (heap : ScalarHeap) : Represents ⟨.init scalarFunctions, heap⟩ [] where
  valid := Stack.valid_init (by decide)
  denotes := List.Forall₂.nil
  backed _ := Nat.zero_le _

/-- Integers on the stack own nothing. -/
theorem represents_integers {stack : Stack Scalar} {numbers : List (BitVec 64)} (heap : ScalarHeap)
    (valid : stack.Valid scalarFunctions) (contents : stack.contents = numbers.map .int) :
    Represents ⟨stack, heap⟩ (numbers.map .int) := by
  refine ⟨valid, ?_, ?_⟩
  · dsimp only
    rw [contents, Denotes, List.forall₂_iff_get]
    simp [ScalarHeap.value]
  · intro unit
    have nothing : (numbers.map Scalar.int).flatMap Scalar.owned = [] := by
      simp [List.flatMap_eq_nil_iff, Scalar.owned]
    dsimp only
    rw [contents, units, nothing]
    exact Nat.zero_le _

/-- What was popped and is pushed again is where it was. -/
theorem Represents.npush_npop {results popped : List Scalar} {middle after : DataStack}
    {memory : Memory} {status : ℤ} (represents : context.Represents values)
    (suppliedPop : context.Supplied conversions ⟨.npop results, memory⟩)
    (done : context.vmDsNpop results = .ok (popped, middle))
    (object : popped.length * sizeofScalar ≤ sizeMax)
    (room : middle.stack.HasRoomFor scalarFunctions memory popped.length)
    (pushed : middle.vmDsNpush memory popped = .ok (status, after)) :
    status = 0 ∧ after.Represents values := by
  rcases suppliedPop with ⟨nonempty, depth, affords, ⟨olds, known⟩, apart⟩
  have long := represents.length_eq
  have copies := affords _ represents.denotes
  rcases represents.npop known copies nonempty (long ▸ depth) apart
    with ⟨_, _, _, donePop, _, _, poppedKnown, next, moves⟩
  rw [done, Except.ok.injEq, Prod.mk.injEq] at donePop
  rcases donePop with ⟨rfl, rfl⟩
  have some : 0 < popped.length := by
    rw [poppedKnown.length_eq, List.length_take]
    omega
  rcases next.npush poppedKnown (moves.affords copies) some object room with
    ⟨_, _, donePush, _, _, restored, _⟩
  rw [pushed, Except.ok.injEq, Prod.mk.injEq] at donePush
  rcases donePush with ⟨rfl, rfl⟩
  rw [List.take_append_drop] at restored
  exact ⟨rfl, restored⟩

/-- Every sequence of calls on a new data stack answers as the list of values does, whatever
the heap. Each call leaves what others own alone, and popping and pushing again restores. -/
theorem dataStack_refines_list {heap : ScalarHeap} {requests : List DataStackRequest}
    (supplied : RequestsMeet (Supplied conversions) (serve conversions)
      ⟨.init scalarFunctions, heap⟩ requests) :
    (∃ steps, trace (serve conversions) ⟨.init scalarFunctions, heap⟩ requests = .ok steps ∧
      List.Forall₂ (fun reached expected =>
        reached.1 = expected.1 ∧ reached.2.Represents expected.2)
        steps (modelTrace (listAnswer conversions) [] requests)) ∧
    ∀ context values, Represents context values →
      (∀ request, context.Supplied conversions request → request.call.IsOwn →
        ∃ taken after, context.answer conversions request =
            .ok ((listAnswer conversions values request).1.1, taken, after) ∧
          Denotes after.heap taken (listAnswer conversions values request).1.2 ∧
          after.Represents (listAnswer conversions values request).2 ∧
          Exchanges context after request.call.given taken) ∧
      ∀ memory results popped middle status after,
        context.Supplied conversions ⟨.npop results, memory⟩ →
        context.vmDsNpop results = .ok (popped, middle) →
        popped.length * sizeofScalar ≤ sizeMax →
        middle.stack.HasRoomFor scalarFunctions memory popped.length →
        middle.vmDsNpush memory popped = .ok (status, after) →
        status = 0 ∧ after.Represents values := by
  constructor
  · apply trace_refines (Supplied conversions) Represents
    · intro state model request represents meets
      rcases represents.serve meets with ⟨after, served, next, _⟩
      exact ⟨after, served, next⟩
    · exact represents_init heap
    · exact supplied
  · intro context values represents
    constructor
    · intro request meets own
      rcases represents.answer meets with ⟨taken, after, answered, known, next, exchanges⟩
      exact ⟨taken, after, answered, known, next, (exchanges own).1⟩
    · intro memory results popped middle status after suppliedPop done object room pushed
      exact represents.npush_npop suppliedPop done object room pushed

section Sample

/-- A string, and no references. -/
def sampleHeap : ScalarHeap :=
  ⟨Finmap.singleton 1 (ascii "ab"), fun _ _ => 0, .upwards, fun _ => .ample, 0⟩

/-- Conversions that nobody asks for. -/
def sampleConversions : Conversions := ⟨id, fun _ => 0⟩

/-- The string on top of sixteen integers, which are as many items as a new stack has slots. -/
def sampleItems : List Scalar := .string 1 :: List.replicate 16 (.int 7)

def sampleValues : List Value := .string (ascii "ab") :: List.replicate 16 (.int 7)

theorem denotes_sampleItems : Denotes sampleHeap sampleItems sampleValues := by
  refine List.Forall₂.cons rfl ?_
  apply denotes_replicate
  rfl

theorem affords_sampleValues {heap : ScalarHeap} (precedes : sampleHeap.Precedes heap) :
    heap.Affords sampleValues := by
  apply precedes.affords
  intro denoted mem time _
  rcases List.mem_cons.mp mem with rfl | integer
  · have stores : Memory.ample.Stores (ascii "ab") := by decide
    exact stored_string.mpr stores
  · rw [List.eq_of_mem_replicate integer]
    rfl

theorem dataStack_refines_list_sample :
    ∃ steps, trace (serve sampleConversions) ⟨.init scalarFunctions, sampleHeap⟩
        [⟨.npush sampleItems sampleValues, .ample⟩, ⟨.pop .undefined, .ample⟩] = .ok steps ∧
      steps.map Prod.fst = [(0, []), (0, [.string (ascii "ab")])] := by
  have supplied : RequestsMeet (Supplied sampleConversions) (serve sampleConversions)
      ⟨.init scalarFunctions, sampleHeap⟩
      [⟨.npush sampleItems sampleValues, .ample⟩, ⟨.pop .undefined, .ample⟩] := by
    have first : (DataStack.mk (.init scalarFunctions) sampleHeap).Supplied sampleConversions
        ⟨.npush sampleItems sampleValues, .ample⟩ :=
      ⟨denotes_sampleItems, affords_sampleValues (Precedes.refl _), by decide, by decide,
        by decide⟩
    refine ⟨first, ?_⟩
    intro answered middle served
    rcases (represents_init sampleHeap).serve first with ⟨after, servedAfter, next, own⟩
    rw [served, Except.ok.injEq, Prod.mk.injEq] at servedAfter
    rcases servedAfter with ⟨_, rfl⟩
    have long := next.length_eq
    have precedes : sampleHeap.Precedes middle.heap := own (by simp [DataStackCall.IsOwn])
    refine ⟨⟨?_, ?_, ⟨[.undefined], List.Forall₂.cons rfl List.Forall₂.nil⟩, ?_⟩,
      fun _ _ _ => trivial⟩
    · rw [long]
      decide
    · intro values denotes
      rw [← Denotes.unique next.denotes denotes]
      exact (affords_sampleValues precedes).mono (List.take_subset _ _)
    · intro unit
      have nothing : units [.undefined] unit = 0 := rfl
      rw [nothing, Nat.zero_add]
      exact next.backed unit
  rcases (dataStack_refines_list supplied).1 with ⟨steps, followed, agree⟩
  refine ⟨steps, followed, ?_⟩
  cases agree with
  | cons first rest =>
      cases rest with
      | cons second rest =>
          cases rest
          simp [first.1, second.1, listAnswer, sampleValues]

end Sample

end DataStack

end Dang
