import Dang.Channel.Ownership
import Dang.Scalar.Heap

/-!
# What a channel delivers

Contexts that write to a channel and read from it, in any order: each takes the lock, does
one of the sections below and gives the lock back. A writer that finds the channel full
waits and starts over, and doubles the capacity first if it woke because its time was up.
A queued item is a copy in storage, whose string may be freed and whose place in storage
may be taken again, so the values are those that storage holds when an item is handed to
a reader.

What `channel_read` leaves in the slot is still the item that the reader got, and a later
write to the slot destroys it. By then its string's place in storage may belong to an item
that is queued. And where there is no storage for the copy of a string, a null pointer is
queued in its place. Where writes only go to slots that own nothing, and find storage for
their copies, the channel delivers what was written, in order.
-/

namespace Dang

/-- A channel among the contexts that use it. -/
structure SharedChannel where
  channel : Channel
  /-- The handle of the channel. -/
  handle : ℕ
  heap : ScalarHeap
  /-- What the contexts own of what is in storage. -/
  held : Owned → ℕ
  /-- The values written, the first one first. -/
  written : List Value
  /-- The values handed to readers, as storage held them then. -/
  handed : List (Outcome Value)

/-- What a context does while it holds the lock, or without it. -/
inductive ChannelSection
  /-- `channel_write` from locking the channel or from waking, to writing or waiting. -/
  | write (memory : Memory) (timedOut : Bool) (value : Scalar)
  | read (result : Scalar)
  | tryread (result : Scalar)
  /-- Anything that has no part in the channel: it frees only what contexts own. -/
  | other (freed made : Owned → ℕ)

namespace Channel

/-- The space reserved when a writer's time is up. -/
def wake (memory : Memory) (timedOut : Bool) (channel : Channel) : Outcome Channel :=
  if timedOut then do
    let (_, channel) ← channel.reserve memory (channel.allocatedCount * 2 % 2 ^ 64)
    .ok channel
  else .ok channel

/-- The slot for the next item. -/
def nextSlot (channel : Channel) : ℕ :=
  (channel.start + channel.count) % channel.allocatedCount

end Channel

namespace SharedChannel

/-- A scalar that a context passes: its own, with a value, and no reference to the channel that is
locked. -/
def argument (state : SharedChannel) (scalar : Scalar) : Outcome Value := do
  Outcome.assertThat (∀ unit ∈ scalar.owned, 0 < state.held unit)
  Outcome.assertThat (scalar ≠ .reference .channel state.handle)
  state.heap.value scalar

/-- `channel_write` from locking the channel or from waking: whether the value was written, or the
writer waits. -/
def write (memory : Memory) (timedOut : Bool) (state : SharedChannel) (value : Scalar) :
    Outcome (Bool × SharedChannel) := do
  let written ← state.argument value
  let channel ← state.channel.wake memory timedOut
  if channel.allocatedCount ≤ channel.count then
    .ok (false, { state with channel := channel })
  else do
    let old ← channel.item channel.nextSlot
    let (new, heap) ← ScalarHeap.clone old value state.heap
    .ok (true,
      { state with
        channel :=
          { channel with
            items := Function.update channel.items channel.nextSlot new
            count := channel.count + 1 }
        heap := heap
        written := state.written ++ [written] })

/-- What reading the channel leaves, with the old value of the result given back. -/
def afterRead (state : SharedChannel) (result : Scalar) (reading : ReadResult) :
    Outcome (ℤ × Scalar × SharedChannel) := do
  let heap ← reading.destroyed.foldlM ScalarHeap.giveBack state.heap
  if reading.status = 0 then
    .ok (0, reading.result,
      { state with
        channel := reading.channel
        heap := heap
        held := fun unit => state.held unit - ScalarHeap.units [result] unit +
          ScalarHeap.units [reading.result] unit
        handed := state.handed ++ [heap.value reading.result] })
  else
    .ok (reading.status, reading.result, { state with channel := reading.channel, heap := heap })

/-- `channel_read` of a channel with items: the status, and the result argument. -/
def read (state : SharedChannel) (result : Scalar) : Outcome (ℤ × Scalar × SharedChannel) := do
  let _ ← state.argument result
  let reading ← state.channel.read 0 result
  state.afterRead result reading

/-- `channel_tryread`: the status, and the result argument. -/
def tryread (state : SharedChannel) (result : Scalar) :
    Outcome (ℤ × Scalar × SharedChannel) := do
  let _ ← state.argument result
  let reading ← state.channel.tryread 0 result
  state.afterRead result reading

/-- A section of the channel's own functions. -/
def exec (state : SharedChannel) : ChannelSection → Outcome SharedChannel
  | .write memory timedOut value => do
      let (_, state) ← state.write memory timedOut value
      .ok state
  | .read result => do
      let (_, _, state) ← state.read result
      .ok state
  | .tryread result => do
      let (_, _, state) ← state.tryread result
      .ok state
  | .other _ _ => .error .outOfFuel

/-- One section, by any context. -/
def Step (source : SharedChannel) (label : ChannelSection) (target : SharedChannel) : Prop :=
  match label with
  | .other freed made => ∃ heap, ScalarHeap.Moves source.heap heap freed made ∧
      (∀ unit, freed unit ≤ source.held unit) ∧
      target = { source with
        heap := heap, held := fun unit => source.held unit - freed unit + made unit }
  | label => source.exec label = .ok target

/-- A new channel, among contexts that own what they hold. -/
structure Initial (state : SharedChannel) : Prop where
  channel : state.channel = Channel.init
  held : ∀ unit, state.held unit ≤ state.heap.supply unit
  written : state.written = []
  handed : state.handed = []

/-- What was written is what was handed out, which is so a prefix of it, and then what is queued. -/
def Fifo (state : SharedChannel) : Prop :=
  state.written.map Except.ok = state.handed ++ state.channel.contents.map state.heap.value

/-- A write goes to a slot that owns nothing: no string or reference of an item that was read.
There is storage for the copy. -/
def QueuesCopies (state : SharedChannel) (label : ChannelSection) : Prop :=
  match label with
  | .write memory timedOut value => ∀ channel, state.channel.wake memory timedOut = .ok channel →
      channel.count < channel.allocatedCount → (channel.items channel.nextSlot).owned = [] ∧
        ∀ denoted, state.heap.value value = .ok denoted → state.heap.CanCopy denoted
  | _ => True

/-- The first item and the count stay inside the ring. -/
structure Bounded (state : SharedChannel) : Prop where
  start_lt : state.channel.start < state.channel.allocatedCount
  count_le : state.channel.count ≤ state.channel.allocatedCount

/-- What every section preserves whose writes queue copies in slots that own nothing: the queued
items own what no context holds. -/
structure Sound (state : SharedChannel) : Prop where
  bounded : state.Bounded
  fifo : state.Fifo
  owned : ∀ unit, ScalarHeap.units state.channel.contents unit + state.held unit ≤
    state.heap.supply unit

variable {state source target : SharedChannel} {result : Scalar}

theorem argument_eq_ok {value : Value} (success : state.argument result = .ok value) :
    state.heap.value result = .ok value ∧
      ∀ unit, ScalarHeap.units [result] unit ≤ state.held unit := by
  simp only [argument, Outcome.bind_eq_ok, Outcome.assertThat_eq_ok] at success
  rcases success with ⟨_, holds, _, _, known⟩
  exact ⟨known, ScalarHeap.units_le_of_owned holds⟩

/-- Waking with more space or without leaves the queued items as they were. -/
theorem Bounded.wake {memory : Memory} {timedOut : Bool} {channel : Channel}
    (bounded : state.Bounded) (success : state.channel.wake memory timedOut = .ok channel) :
    channel.start < channel.allocatedCount ∧ channel.count ≤ channel.allocatedCount ∧
      channel.contents = state.channel.contents := by
  cases timedOut with
  | false =>
      simp only [Channel.wake, Bool.false_eq_true, if_false, Except.ok.injEq] at success
      subst success
      exact ⟨bounded.start_lt, bounded.count_le, rfl⟩
  | true =>
      simp only [Channel.wake, if_true, Outcome.bind_eq_ok, Except.ok.injEq] at success
      rcases success with ⟨⟨status, larger⟩, reserved, rfl⟩
      rcases Channel.reserve_cases bounded.start_lt bounded.count_le reserved with
        rfl | ⟨start_lt, count_le, _, contents, _⟩
      · exact ⟨bounded.start_lt, bounded.count_le, rfl⟩
      · exact ⟨start_lt, count_le, contents⟩

/-- A write waits, or queues a copy after what is queued. -/
theorem Bounded.write {memory : Memory} {timedOut done : Bool} {value : Scalar}
    (bounded : source.Bounded)
    (success : source.write memory timedOut value = .ok (done, target)) :
    target.Bounded ∧ ∃ written channel, source.argument value = .ok written ∧
      source.channel.wake memory timedOut = .ok channel ∧
      channel.contents = source.channel.contents ∧
      (target = { source with channel := channel } ∨
        channel.count < channel.allocatedCount ∧ ∃ new,
          ScalarHeap.clone (channel.items channel.nextSlot) value source.heap =
            .ok (new, target.heap) ∧
          target.channel.contents = channel.contents ++ [new] ∧
          target.held = source.held ∧ target.handed = source.handed ∧
          target.written = source.written ++ [written]) := by
  simp only [SharedChannel.write, Outcome.bind_eq_ok] at success
  rcases success with ⟨written, known, channel, wakes, rest⟩
  rcases bounded.wake wakes with ⟨start_lt, count_le, contents⟩
  by_cases full : channel.allocatedCount ≤ channel.count
  · simp only [full, if_true, Except.ok.injEq, Prod.mk.injEq] at rest
    rcases rest with ⟨_, rfl⟩
    exact ⟨⟨start_lt, count_le⟩, written, channel, known, wakes, contents, Or.inl rfl⟩
  · simp only [full, if_false, Outcome.bind_eq_ok, Except.ok.injEq, Prod.mk.injEq,
      Prod.exists] at rest
    rcases rest with ⟨old, found, new, heap, cloned, _, rfl⟩
    rcases Channel.item_eq_ok found with ⟨_, rfl⟩
    have room : channel.count < channel.allocatedCount := by omega
    refine ⟨⟨start_lt, room⟩, written, channel, known, wakes, contents, Or.inr ⟨room, new, cloned,
      ?_, rfl, rfl, rfl⟩⟩
    have unqueued : (channel.start + channel.count) % channel.allocatedCount ∉
        window channel.allocatedCount channel.start channel.count := window.next_not_mem room
    simp only [Channel.contents, Channel.slots, window.succ, List.map_append, List.map_cons,
      List.map_nil, Channel.nextSlot, Function.update_self]
    congr 1
    apply List.map_congr_left
    intro slot mem
    apply Function.update_of_ne
    exact fun same => unqueued (same ▸ mem)

/-- The first queued item is handed out, and the old value of the result is destroyed. -/
structure Takes (source : SharedChannel) (result : Scalar) (target : SharedChannel) : Prop where
  destroys : ScalarHeap.destroy result source.heap = .ok (.undefined, target.heap)
  takes : ∃ first, source.channel.contents = first :: target.channel.contents ∧
    target.handed = source.handed ++ [target.heap.value first] ∧
    target.held = fun unit =>
      source.held unit - ScalarHeap.units [result] unit + ScalarHeap.units [first] unit
  written : target.written = source.written

theorem Bounded.take {reading : ReadResult} {status : ℤ} {value : Scalar} (bounded : source.Bounded)
    (some : 0 < source.channel.count) (taken : source.channel.take result = .ok reading)
    (success : source.afterRead result reading = .ok (status, value, target)) :
    target.Bounded ∧ source.Takes result target := by
  rcases Channel.take_eq_ok taken with ⟨done, first, destroys, channel⟩
  have start_lt := bounded.start_lt
  have count_le := bounded.count_le
  simp only [afterRead, done, if_true, Outcome.bind_eq_ok, Except.ok.injEq, Prod.mk.injEq] at success
  rcases success with ⟨heap, givesBack, _, _, rfl⟩
  have contents : source.channel.contents = reading.result :: reading.channel.contents := by
    rw [Channel.contents, Channel.slots_cons start_lt some, List.map_cons, first, channel]
    rfl
  refine ⟨⟨?_, ?_⟩, ?_, ⟨reading.result, contents, rfl, rfl⟩, rfl⟩
  · simp only [channel]
    exact Nat.mod_lt _ (by omega)
  · simp only [channel]
    omega
  · simp only [ScalarHeap.destroy, destroys, Outcome.ok_bind, givesBack]

theorem Bounded.read {status : ℤ} {value : Scalar} (bounded : source.Bounded)
    (success : source.read result = .ok (status, value, target)) :
    target.Bounded ∧ source.Takes result target ∧ ∃ old, source.argument result = .ok old := by
  simp only [SharedChannel.read, Outcome.bind_eq_ok] at success
  rcases success with ⟨old, known, reading, reads, after⟩
  rcases Channel.read_eq_ok reads with ⟨unlocked, _⟩ | ⟨_, some, taken⟩
  · exact absurd rfl unlocked
  · rcases bounded.take some taken after with ⟨next, takes⟩
    exact ⟨next, takes, old, known⟩

/-- Reading an empty channel without waiting changes nothing. -/
theorem tryread_empty {old : Value} (known : state.argument result = .ok old)
    (empty : state.channel.count = 0) :
    state.tryread result = .ok (EWOULDBLOCK, result, state) := by
  have nothing : ¬ 0 < state.channel.count := by omega
  have blocks : ¬ EWOULDBLOCK = 0 := by decide
  simp only [SharedChannel.tryread, known, Outcome.ok_bind, Channel.tryread, if_true, nothing,
    if_false, afterRead, List.foldlM_nil, blocks]
  rfl

theorem Bounded.tryread {status : ℤ} {value : Scalar} (bounded : source.Bounded)
    (success : source.tryread result = .ok (status, value, target)) :
    target.Bounded ∧
      (target = source ∨ source.Takes result target ∧ ∃ old, source.argument result = .ok old) := by
  have both := success
  simp only [SharedChannel.tryread, Outcome.bind_eq_ok] at both
  rcases both with ⟨old, known, reading, reads, after⟩
  by_cases empty : source.channel.count = 0
  · rw [tryread_empty known empty] at success
    simp only [Except.ok.injEq, Prod.mk.injEq] at success
    rcases success with ⟨_, _, rfl⟩
    exact ⟨bounded, Or.inl rfl⟩
  · rcases Channel.tryread_eq_ok reads with ⟨unlocked | none, _⟩ | ⟨_, some, taken⟩
    · exact absurd rfl unlocked
    · exact absurd none empty
    · rcases bounded.take some taken after with ⟨next, takes⟩
      exact ⟨next, Or.inr ⟨takes, old, known⟩⟩

/-- Every section keeps the queue inside the ring. -/
theorem Bounded.step {label : ChannelSection} (bounded : source.Bounded)
    (step : source.Step label target) : target.Bounded := by
  cases label with
  | write memory timedOut value =>
      simp only [Step, exec, Outcome.bind_eq_ok, Except.ok.injEq] at step
      rcases step with ⟨⟨done, after⟩, writes, rfl⟩
      exact (bounded.write writes).1
  | read result =>
      simp only [Step, exec, Outcome.bind_eq_ok, Except.ok.injEq] at step
      rcases step with ⟨⟨status, value, after⟩, reads, rfl⟩
      exact (bounded.read reads).1
  | tryread result =>
      simp only [Step, exec, Outcome.bind_eq_ok, Except.ok.injEq] at step
      rcases step with ⟨⟨status, value, after⟩, reads, rfl⟩
      exact (bounded.tryread reads).1
  | other freed made =>
      rcases step with ⟨heap, _, _, rfl⟩
      exact ⟨bounded.start_lt, bounded.count_le⟩

/-- The queued items have values. -/
theorem Fifo.known (fifo : state.Fifo) :
    ∀ scalar ∈ state.channel.contents, ∃ value, state.heap.value scalar = .ok value := by
  intro scalar mem
  have there : state.heap.value scalar ∈ state.written.map Except.ok := by
    rw [fifo]
    exact List.mem_append_right _ (List.mem_map_of_mem mem)
  rcases List.mem_map.mp there with ⟨value, _, same⟩
  exact ⟨value, same.symm⟩

/-- The queued items keep their values while nothing is freed that they own. -/
theorem Sound.values {heap : ScalarHeap} {freed made : Owned → ℕ} (sound : state.Sound)
    (moves : ScalarHeap.Moves state.heap heap freed made)
    (apart : ∀ unit, freed unit + ScalarHeap.units state.channel.contents unit ≤
      state.heap.supply unit) :
    state.channel.contents.map heap.value = state.channel.contents.map state.heap.value := by
  apply List.map_congr_left
  intro scalar mem
  rcases sound.fifo.known scalar mem with ⟨value, known⟩
  rw [known]
  apply moves.value known
  intro unit
  have part := ScalarHeap.units_le_of_mem mem unit
  have whole := apart unit
  omega

/-- Handing out the first item keeps the order. -/
theorem Sound.take {old : Value} (sound : source.Sound) (bounded : target.Bounded)
    (takes : source.Takes result target) (known : source.argument result = .ok old) :
    target.Sound := by
  rcases takes with ⟨destroys, ⟨first, contents, handed, held⟩, written⟩
  rcases argument_eq_ok known with ⟨value, holds⟩
  rcases ScalarHeap.destroy_of value with ⟨after, destroyed, moves, _⟩
  have same : after = target.heap := by
    simpa [destroyed] using destroys
  subst same
  have kept := sound.values moves (by
    intro unit
    have owned := sound.owned unit
    have own := holds unit
    omega)
  have order := sound.fifo
  refine ⟨bounded, ?_, ?_⟩
  · rw [Fifo, ← kept, contents] at order
    rw [Fifo, written, handed, order]
    simp
  · intro unit
    have owned := sound.owned unit
    have own := holds unit
    have account := moves.supply unit
    rw [contents, ScalarHeap.units_cons first] at owned
    simp only [held, Pi.zero_apply] at account ⊢
    omega

/-- A copy is queued behind what is queued. -/
theorem Sound.write {memory : Memory} {timedOut done : Bool} {value : Scalar}
    (sound : source.Sound) (queues : source.QueuesCopies (.write memory timedOut value))
    (success : source.write memory timedOut value = .ok (done, target)) : target.Sound := by
  rcases sound.bounded.write success with
    ⟨bounded, written, channel, known, wakes, contents, rfl | ⟨room, new, cloned, rest⟩⟩
  · refine ⟨bounded, ?_, ?_⟩
    · rw [Fifo, contents]
      exact sound.fifo
    · rw [contents]
      exact sound.owned
  · rcases rest with ⟨contentsAfter, held, handed, writtenAfter⟩
    rcases queues channel wakes room with ⟨nothing, storage⟩
    rcases argument_eq_ok known with ⟨knownValue, _⟩
    have copied : source.heap.copy value = .ok (new, target.heap) := by
      simp only [ScalarHeap.clone, ScalarHeap.destroy, Outcome.bind_eq_ok, Except.ok.injEq,
        Prod.mk.injEq, Prod.exists] at cloned
      rcases cloned with ⟨_, heap, ⟨destroyed, destroys, middle, givesBack, _, rfl⟩, copies⟩
      rw [Scalar.destroy_eq_ok destroys, nothing] at givesBack
      simp only [List.foldlM_nil] at givesBack
      rw [← Except.ok.inj givesBack] at copies
      exact copies
    rcases ScalarHeap.copy_of knownValue (storage written knownValue) with
      ⟨new', after, copied', moves, newKnown⟩
    rcases Prod.mk.inj (Except.ok.inj (copied'.symm.trans copied)) with ⟨rfl, same⟩
    subst same
    have kept := sound.values moves (by
      intro unit
      have owned := sound.owned unit
      simp only [Pi.zero_apply]
      omega)
    refine ⟨bounded, ?_, ?_⟩
    · rw [Fifo, writtenAfter, handed, contentsAfter, contents, List.map_append, List.map_append,
        sound.fifo, kept]
      simp [newKnown]
    · intro unit
      have owned := sound.owned unit
      have account := moves.supply unit
      rw [contentsAfter, contents, ScalarHeap.units_append, held]
      simp only [Pi.zero_apply] at account
      omega

theorem Sound.step {label : ChannelSection} (sound : source.Sound)
    (queues : source.QueuesCopies label) (step : source.Step label target) : target.Sound := by
  have bounded := sound.bounded.step step
  cases label with
  | write memory timedOut value =>
      simp only [Step, exec, Outcome.bind_eq_ok, Except.ok.injEq] at step
      rcases step with ⟨⟨done, after⟩, writes, rfl⟩
      exact sound.write queues writes
  | read result =>
      simp only [Step, exec, Outcome.bind_eq_ok, Except.ok.injEq] at step
      rcases step with ⟨⟨status, value, after⟩, reads, rfl⟩
      rcases sound.bounded.read reads with ⟨_, takes, old, known⟩
      exact sound.take bounded takes known
  | tryread result =>
      simp only [Step, exec, Outcome.bind_eq_ok, Except.ok.injEq] at step
      rcases step with ⟨⟨status, value, after⟩, reads, rfl⟩
      rcases sound.bounded.tryread reads with ⟨_, rfl | ⟨takes, old, known⟩⟩
      · exact sound
      · exact sound.take bounded takes known
  | other freed made =>
      rcases step with ⟨heap, moves, holds, rfl⟩
      have kept := sound.values moves (by
        intro unit
        have owned := sound.owned unit
        have own := holds unit
        omega)
      refine ⟨bounded, ?_, ?_⟩
      · rw [Fifo, kept]
        exact sound.fifo
      · intro unit
        have owned := sound.owned unit
        have own := holds unit
        have account := moves.supply unit
        dsimp only
        omega

theorem sound_initial (initial : state.Initial) : state.Sound := by
  have contents : state.channel.contents = [] := by
    rw [initial.channel]
    rfl
  refine ⟨⟨?_, ?_⟩, ?_, ?_⟩
  · rw [initial.channel]
    decide
  · rw [initial.channel]
    decide
  · rw [Fifo, initial.written, initial.handed, contents]
    rfl
  · intro unit
    rw [contents]
    simpa using initial.held unit

/-- In every run the queue fits the ring and a read that would block changes nothing, and if its
writes all queue copies in slots that own nothing, the channel delivers what was written, in
order. -/
theorem delivers_of_queuesCopies {start : SharedChannel}
    {steps : List (ChannelSection × SharedChannel)} (initial : start.Initial)
    (run : IsRun Step start steps) :
    (∀ state ∈ visited start steps, state.channel.count ≤ state.channel.allocatedCount ∧
      ∀ result old, state.argument result = .ok old → state.channel.count = 0 →
        state.tryread result = .ok (EWOULDBLOCK, result, state)) ∧
    (StepsMeet QueuesCopies start steps → ∀ state ∈ visited start steps, state.Fifo) := by
  have initially := sound_initial initial
  constructor
  · intro state visits
    have bounded := IsRun.forall_visited Step (fun _ _ => True) Bounded
      (fun _ _ _ bounded _ step => bounded.step step) initially.bounded run
      (StepsMeet.of_forall fun _ _ => trivial) state visits
    exact ⟨bounded.count_le, fun result old known empty => tryread_empty known empty⟩
  · intro meet state visits
    have sound := IsRun.forall_visited Step QueuesCopies Sound
      (fun _ _ _ sound queues step => sound.step queues step) initially run meet state visits
    exact sound.fifo

section Wrapping

/-- A context owns the string at the address 1. -/
def wrappingStart : SharedChannel where
  channel := Channel.init
  handle := 1
  heap :=
    { strings := Finmap.singleton 1 []
      references := fun _ _ => 0
      allocator := Allocator.upwards
      memory := fun _ => .ample
      time := 0 }
  held := fun unit => if unit = .string 1 then 1 else 0
  written := []
  handed := []

/-- A string and a number are read into one scalar, then a string is written, and numbers around
the ring. -/
def wrappingSections : List ChannelSection :=
  [.write Memory.ample false (.string 1), .write Memory.ample false (.int 7), .read .undefined,
    .read (.string 2), .write Memory.ample false (.string 1)] ++
    List.replicate 14 (.write Memory.ample false (.int 7)) ++ [.read .undefined]

def wrappingRun : List (ChannelSection × SharedChannel) :=
  (follow exec wrappingStart wrappingSections).toOption.getD []

theorem wrappingRun_isRun : IsRun Step wrappingStart wrappingRun := by
  apply IsRun.of_follow exec wrappingSections
  · intro source label target success
    cases label with
    | write memory timedOut value => exact success
    | read result => exact success
    | tryread result => exact success
    | other freed made => simp [exec] at success
  · exact Outcome.eq_ok_getD [] (by decide +kernel)

theorem wrappingStart_initial : wrappingStart.Initial where
  channel := rfl
  held := by
    intro unit
    cases unit with
    | string address =>
        by_cases first : address = 1
        · subst first
          decide +kernel
        · simp [wrappingStart, first]
    | reference kind handle => simp [wrappingStart]
  written := rfl
  handed := rfl

theorem delivers_of_queuesCopies_wrapping :
    (∀ state ∈ visited wrappingStart wrappingRun,
      state.channel.count ≤ state.channel.allocatedCount ∧
        ∀ result old, state.argument result = .ok old → state.channel.count = 0 →
          state.tryread result = .ok (EWOULDBLOCK, result, state)) ∧
    (StepsMeet QueuesCopies wrappingStart wrappingRun →
      ∀ state ∈ visited wrappingStart wrappingRun, state.Fifo) :=
  delivers_of_queuesCopies wrappingStart_initial wrappingRun_isRun

theorem wrappingRun_length : 20 < (visited wrappingStart wrappingRun).length := by
  decide +kernel

/-- The last write destroys the queued string, and its reader is handed no value. -/
theorem wrapping_not_delivered :
    wrappingStart.Initial ∧ IsRun Step wrappingStart wrappingRun ∧
      ∃ state ∈ visited wrappingStart wrappingRun,
        ¬ state.handed <+: state.written.map Except.ok := by
  refine ⟨wrappingStart_initial, wrappingRun_isRun,
    (visited wrappingStart wrappingRun).get ⟨20, wrappingRun_length⟩, List.get_mem _ _, ?_⟩
  decide +kernel

end Wrapping

end SharedChannel

end Dang
