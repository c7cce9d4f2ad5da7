import Dang.Channel.Basic
import Dang.Foundations.Run

/-!
# Who owns what a channel carries

Every string and reference that `channel_write` creates should be owned once: by a
queued item, or by the reader the item was handed to. Readers get a shallow copy,
and the slot keeps its own until a later `channel_write` wraps around to it and
destroys it. So ownership is unique in exactly the runs in which every item that is
read owns nothing.
-/

namespace Dang

namespace Channel

/-- The queued items, the oldest first. -/
def contents (channel : Channel) : List Scalar := channel.slots.map channel.items

/-- What the queued items own. -/
def queued (channel : Channel) : List Owned :=
  channel.slots.flatMap fun slot => (channel.items slot).owned

theorem item_eq_ok {channel : Channel} {index : ℕ} {scalar : Scalar}
    (success : channel.item index = .ok scalar) :
    index < channel.allocatedCount ∧ scalar = channel.items index := by
  by_cases inside : index < channel.allocatedCount
  · simp only [item, inside, if_true, Except.ok.injEq] at success
    exact ⟨inside, success.symm⟩
  · simp [item, inside] at success

theorem take_eq_ok {channel : Channel} {result : Scalar} {reading : ReadResult}
    (success : channel.take result = .ok reading) :
    reading.status = 0 ∧ reading.result = channel.items channel.start ∧
      result.destroy = .ok reading.destroyed ∧ reading.channel = { channel with
        start := (channel.start + 1) % channel.allocatedCount, count := channel.count - 1 } := by
  simp only [take, Scalar.assign, Outcome.bind_eq_ok, Except.ok.injEq] at success
  rcases success with ⟨first, found, ⟨value, destroyed⟩, ⟨units, destroys, assigned⟩, rfl⟩
  rcases item_eq_ok found with ⟨_, rfl⟩
  simp only [Prod.mk.injEq] at assigned
  rcases assigned with ⟨rfl, rfl⟩
  exact ⟨rfl, rfl, destroys, rfl⟩

/-- Reading does nothing, or takes the first queued item. -/
theorem read_eq_ok {lock : ℤ} {channel : Channel} {result : Scalar} {reading : ReadResult}
    (success : channel.read lock result = .ok reading) :
    lock ≠ 0 ∧ reading.status ≠ 0 ∧ reading.channel = channel ∨
      lock = 0 ∧ 0 < channel.count ∧ channel.take result = .ok reading := by
  by_cases locked : lock = 0
  · by_cases empty : channel.count = 0
    · simp [read, locked, empty] at success
    · simp only [read, locked, if_true, empty, if_false] at success
      exact Or.inr ⟨locked, by omega, success⟩
  · simp only [read, locked, if_false, Except.ok.injEq] at success
    subst success
    exact Or.inl ⟨locked, by simp, rfl⟩

theorem tryread_eq_ok {lock : ℤ} {channel : Channel} {result : Scalar} {reading : ReadResult}
    (success : channel.tryread lock result = .ok reading) :
    (lock ≠ 0 ∨ channel.count = 0) ∧ reading.status ≠ 0 ∧ reading.channel = channel ∨
      lock = 0 ∧ 0 < channel.count ∧ channel.take result = .ok reading := by
  by_cases locked : lock = 0
  · by_cases some : 0 < channel.count
    · simp only [tryread, locked, if_true, some] at success
      exact Or.inr ⟨locked, some, success⟩
    · simp only [tryread, locked, if_true, some, if_false, Except.ok.injEq] at success
      subst success
      exact Or.inl ⟨Or.inr (by omega), by simp [EWOULDBLOCK], rfl⟩
  · simp only [tryread, locked, if_false, Except.ok.injEq] at success
    subst success
    exact Or.inl ⟨Or.inl locked, by simp, rfl⟩

/-- A ring whose slots outside the queued window own nothing. -/
structure Clean (channel : Channel) : Prop where
  start_lt : channel.start < channel.allocatedCount
  count_le : channel.count ≤ channel.allocatedCount
  outside : ∀ slot < channel.allocatedCount, slot ∉ channel.slots →
    (channel.items slot).owned = []

theorem queued_eq (channel : Channel) : channel.queued = channel.contents.flatMap Scalar.owned := by
  simp [queued, contents, List.flatMap_map]

/-- The first item, if there is one, is the one at `m_start`. -/
theorem slots_cons {channel : Channel} (start_lt : channel.start < channel.allocatedCount)
    (some : 0 < channel.count) : channel.slots = channel.start ::
      window channel.allocatedCount ((channel.start + 1) % channel.allocatedCount)
        (channel.count - 1) := by
  have count : channel.count = channel.count - 1 + 1 := by omega
  rw [slots, count, window.cons, Nat.mod_eq_of_lt start_lt, Nat.add_sub_cancel]

theorem movedItem_eq {channel : Channel} {index : ℕ}
    (start_lt : channel.start < channel.allocatedCount)
    (count_le : channel.count ≤ channel.allocatedCount) (queued : index < channel.count) :
    channel.movedItem index =
      channel.items ((channel.start + index) % channel.allocatedCount) := by
  simp only [movedItem]
  by_cases straight : channel.count < channel.allocatedCount - channel.start
  · rw [if_pos straight, if_pos queued, Nat.mod_eq_of_lt (by omega)]
  · rw [if_neg straight]
    by_cases before : index < channel.allocatedCount - channel.start
    · rw [if_pos before, Nat.mod_eq_of_lt (by omega)]
    · rw [if_neg before, if_pos (by omega), Nat.mod_eq_sub_mod (by omega),
        Nat.mod_eq_of_lt (by omega)]
      congr 1
      omega

theorem movedItem_outside {channel : Channel} {index : ℕ} (unqueued : channel.count ≤ index) :
    channel.movedItem index = .undefined := by
  simp only [movedItem]
  by_cases straight : channel.count < channel.allocatedCount - channel.start
  · rw [if_pos straight, if_neg (by omega), if_neg (by omega)]
  · rw [if_neg straight, if_neg (by omega), if_neg (by omega)]

/-- A larger ring has the same items queued, and nothing in its other slots. -/
theorem reserve_cases {memory : Memory} {channel after : Channel} {newSize : ℕ} {status : ℤ}
    (start_lt : channel.start < channel.allocatedCount)
    (count_le : channel.count ≤ channel.allocatedCount)
    (success : channel.reserve memory newSize = .ok (status, after)) :
    after = channel ∨
      after.start < after.allocatedCount ∧ after.count ≤ after.allocatedCount ∧
        channel.allocatedCount ≤ after.allocatedCount ∧ after.contents = channel.contents ∧
        ∀ slot, slot ∉ after.slots → slot < after.allocatedCount →
          after.items slot = .undefined := by
  simp only [reserve, Outcome.bind_eq_ok, Outcome.assertThat_eq_ok] at success
  rcases success with ⟨_, _, rest⟩
  by_cases enough : newSize ≤ channel.allocatedCount
  · simp only [enough, if_true, Except.ok.injEq, Prod.mk.injEq] at rest
    exact Or.inl rest.2.symm
  · by_cases storage : memory.calloc newSize sizeofScalar = true
    · simp only [enough, if_false, storage, if_true, Except.ok.injEq, Prod.mk.injEq] at rest
      rcases rest with ⟨_, rfl⟩
      have slots : window newSize 0 channel.count = List.range channel.count := by
        apply List.ext_getElem
        · simp [window]
        · intro i inside _
          simp only [window, List.length_map, List.length_range] at inside
          simp only [window, List.getElem_map, List.getElem_range, Nat.zero_add]
          exact Nat.mod_eq_of_lt (by omega)
      refine Or.inr ⟨?_, ?_, ?_, ?_, ?_⟩
      · change 0 < newSize
        omega
      · change channel.count ≤ newSize
        omega
      · change channel.allocatedCount ≤ newSize
        omega
      · simp only [contents, Channel.slots, slots]
        simp only [window, List.map_map]
        apply List.map_congr_left
        intro index inside
        exact movedItem_eq start_lt count_le (List.mem_range.mp inside)
      · intro slot unqueued _
        simp only [Channel.slots, slots, List.mem_range, Nat.not_lt] at unqueued
        exact movedItem_outside unqueued
    · simp only [enough, if_false, storage, Bool.false_eq_true, Except.ok.injEq,
        Prod.mk.injEq] at rest
      exact Or.inl rest.2.symm

/-- Moving the items to a larger ring keeps what is queued and leaves the rest empty. -/
theorem reserve_eq_ok {memory : Memory} {channel after : Channel} {newSize : ℕ} {status : ℤ}
    (clean : channel.Clean) (success : channel.reserve memory newSize = .ok (status, after)) :
    after.Clean ∧ after.queued = channel.queued := by
  rcases reserve_cases clean.start_lt clean.count_le success with
    rfl | ⟨start_lt, count_le, _, contents, outside⟩
  · exact ⟨clean, rfl⟩
  · refine ⟨⟨start_lt, count_le, ?_⟩, by rw [queued_eq, queued_eq, contents]⟩
    intro slot inside unqueued
    rw [outside slot unqueued inside]
    rfl

/-- Waiting for space keeps what growing keeps, and ends with room for one more item. -/
theorem awaitSpace_of {memory : Memory} {channel after : Channel} {waits : List Bool}
    {holds : Channel → Prop}
    (grows : ∀ channel larger newSize status, holds channel →
      channel.reserve memory newSize = .ok (status, larger) → holds larger)
    (before : holds channel) (success : channel.awaitSpace memory waits = .ok after) :
    holds after ∧ after.count < after.allocatedCount := by
  induction waits generalizing channel with
  | nil =>
      simp only [awaitSpace] at success
      split at success
      case isTrue => cases success
      case isFalse room =>
        cases success
        exact ⟨before, by omega⟩
  | cons timedOut waits ih =>
      simp only [awaitSpace] at success
      split at success
      case isTrue =>
        cases timedOut with
        | false => exact ih before success
        | true =>
            simp only [if_true, Outcome.bind_eq_ok] at success
            rcases success with ⟨⟨status, larger⟩, reserved, rest⟩
            exact ih (grows _ _ _ _ before reserved) rest
      case isFalse room =>
        cases success
        exact ⟨before, by omega⟩

/-- Waiting for space ends with room for one more item, and the same items queued. -/
theorem awaitSpace_eq_ok {memory : Memory} {channel after : Channel} {waits : List Bool}
    (clean : channel.Clean) (success : channel.awaitSpace memory waits = .ok after) :
    after.Clean ∧ after.queued = channel.queued ∧ after.count < after.allocatedCount := by
  have grows : ∀ (ready larger : Channel) (newSize : ℕ) (status : ℤ),
      ready.Clean ∧ ready.queued = channel.queued →
      ready.reserve memory newSize = .ok (status, larger) →
        larger.Clean ∧ larger.queued = channel.queued := by
    rintro ready larger newSize status ⟨cleanReady, same⟩ reserved
    rcases reserve_eq_ok cleanReady reserved with ⟨cleanLarger, kept⟩
    exact ⟨cleanLarger, kept.trans same⟩
  rcases awaitSpace_of grows ⟨clean, rfl⟩ success with ⟨⟨cleanAfter, same⟩, room⟩
  exact ⟨cleanAfter, same, room⟩

/-- Writing destroys nothing, and queues what it creates. -/
theorem write_eq_ok {copies : Copies} {memory : Memory} {waits : List Bool} {lock : ℤ}
    {channel : Channel} {value : Scalar} {writing : WriteResult} (clean : channel.Clean)
    (success : channel.write copies memory waits lock value = .ok writing) :
    writing.channel.Clean ∧ writing.destroyed = [] ∧
      writing.channel.queued = channel.queued ++ writing.created := by
  by_cases locked : lock = 0
  · simp only [write, locked, if_true, Scalar.clone, Outcome.bind_eq_ok, Except.ok.injEq] at success
    rcases success with
      ⟨ready, waited, old, found, ⟨new, destroyed⟩, ⟨units, destroying, copied, _, pair⟩, rfl⟩
    simp only [Prod.mk.injEq] at pair
    rcases pair with ⟨rfl, rfl⟩
    rcases item_eq_ok found with ⟨inside, rfl⟩
    rcases awaitSpace_eq_ok clean waited with ⟨cleanReady, same, room⟩
    have unqueued : (ready.start + ready.count) % ready.allocatedCount ∉ ready.slots :=
      window.next_not_mem room
    have kept : ∀ slot ∈ ready.slots, Function.update ready.items
        ((ready.start + ready.count) % ready.allocatedCount) copied slot = ready.items slot := by
      intro slot mem
      apply Function.update_of_ne
      exact fun equal => unqueued (equal ▸ mem)
    refine ⟨⟨cleanReady.start_lt, room, ?_⟩, ?_, ?_⟩
    · intro slot slotInside outside
      simp only [slots, window.succ, List.mem_append, List.mem_singleton, not_or] at outside
      simp only [Function.update_of_ne outside.2]
      exact cleanReady.outside slot slotInside outside.1
    · rw [Scalar.destroy_eq_ok destroying]
      exact cleanReady.outside _ inside unqueued
    · rw [← same]
      simp only [queued, slots, window.succ, List.flatMap_append, List.flatMap_singleton,
        Function.update_self]
      congr 1
      apply List.flatMap_congr
      intro slot mem
      rw [kept slot mem]
  · simp only [write, locked, if_false, Except.ok.injEq] at success
    subst success
    exact ⟨clean, rfl, by simp⟩

end Channel

/-- A channel, with what became of the strings and references that its writes created. -/
structure ChannelState where
  channel : Channel
  /-- Created by `channel_write`. -/
  created : List Owned
  /-- Handed to readers, with the items they read. -/
  handed : List Owned
  /-- Destroyed by `channel_write`. -/
  destroyed : List Owned

/-- The calls on a channel, each with what locking the channel returns; a read also with
the old value of the scalar it sets. -/
inductive ChannelCall
  | write (lock : ℤ) (value : Scalar)
  | read (lock : ℤ) (result : Scalar)
  | tryread (lock : ℤ) (result : Scalar)
  deriving DecidableEq, Repr

namespace ChannelState

/-- The state a read leaves. -/
def afterRead (state : ChannelState) (reading : ReadResult) : ChannelState :=
  { state with
    channel := reading.channel
    handed := state.handed ++ if reading.status = 0 then reading.result.owned else [] }

/-- The state a write leaves. -/
def afterWrite (state : ChannelState) (writing : WriteResult) : ChannelState :=
  { state with
    channel := writing.channel
    created := state.created ++ writing.created
    destroyed := state.destroyed ++ writing.destroyed }

/-- One call that returns. -/
def exec (copies : Copies) (memory : Memory) (waits : List Bool) (state : ChannelState) :
    ChannelCall → Outcome ChannelState
  | .write lock value => do
      let writing ← state.channel.write copies memory waits lock value
      .ok (state.afterWrite writing)
  | .read lock result => do
      let reading ← state.channel.read lock result
      .ok (state.afterRead reading)
  | .tryread lock result => do
      let reading ← state.channel.tryread lock result
      .ok (state.afterRead reading)

/-- One call that returns, however the strings are placed and the waits end. -/
def Step (source : ChannelState) (call : ChannelCall) (target : ChannelState) : Prop :=
  ∃ copies memory waits, source.exec copies memory waits call = .ok target

/-- The state of a channel that nothing was written to. -/
def initial : ChannelState where
  channel := Channel.init
  created := []
  handed := []
  destroyed := []

/-- Each unit that was created is owned by one queued item or by the reader it was handed
to: no slot outside the queue owns any, and no write destroyed one that a reader has. -/
structure OwnedOnce (state : ChannelState) : Prop where
  placed : state.created.Perm (state.channel.queued ++ state.handed)
  outside : ∀ slot < state.channel.allocatedCount, slot ∉ state.channel.slots →
    (state.channel.items slot).owned = []
  kept : ∀ unit ∈ state.destroyed, unit ∉ state.handed

/-- The call takes no item off the queue that owns something. -/
def TakesNothingOwned (state : ChannelState) (call : ChannelCall) : Prop :=
  match call with
  | .write _ _ => True
  | .read lock _ | .tryread lock _ => lock = 0 → 0 < state.channel.count →
      (state.channel.items state.channel.start).owned = []

/-- What every call that takes nothing owned preserves. -/
structure Sound (state : ChannelState) : Prop where
  clean : state.channel.Clean
  placed : state.created.Perm (state.channel.queued ++ state.handed)
  kept : state.destroyed = []

/-- The first queued item is taken off the queue, and its slot falls outside. -/
theorem Sound.take {state : ChannelState} {result : Scalar} {reading : ReadResult}
    (sound : state.Sound) (some : 0 < state.channel.count)
    (nothing : (state.channel.items state.channel.start).owned = [])
    (taken : state.channel.take result = .ok reading) : (state.afterRead reading).Sound := by
  rcases Channel.take_eq_ok taken with ⟨status, value, _, channel⟩
  rcases sound.clean with ⟨start_lt, count_le, outside⟩
  have slots := Channel.slots_cons start_lt some
  refine ⟨⟨?_, ?_, ?_⟩, ?_, sound.kept⟩
  · simp only [afterRead, channel]
    exact Nat.mod_lt _ (by omega)
  · simp only [afterRead, channel]
    omega
  · simp only [afterRead, channel]
    intro slot inside unqueued
    by_cases same : slot = state.channel.start
    · rw [same]
      exact nothing
    · apply outside slot inside
      rw [slots, List.mem_cons, not_or]
      exact ⟨same, unqueued⟩
  · have before := sound.placed
    rw [Channel.queued, slots, List.flatMap_cons, nothing, List.nil_append] at before
    simpa [afterRead, Channel.queued, Channel.slots, channel, status, value, nothing] using before

theorem Sound.step {source target : ChannelState} {call : ChannelCall} (sound : source.Sound)
    (nothing : source.TakesNothingOwned call) (step : source.Step call target) :
    target.Sound := by
  rcases step with ⟨copies, memory, waits, success⟩
  cases call with
  | write lock value =>
      simp only [exec, Outcome.bind_eq_ok, Except.ok.injEq] at success
      rcases success with ⟨writing, written, rfl⟩
      rcases Channel.write_eq_ok sound.clean written with ⟨clean, none, queued⟩
      refine ⟨clean, ?_, ?_⟩
      · simp only [afterWrite, queued, List.append_assoc]
        have before := sound.placed.append_right writing.created
        apply before.trans
        rw [List.append_assoc]
        exact List.perm_append_comm.append_left _
      · simp [afterWrite, sound.kept, none]
  | read lock result =>
      simp only [exec, Outcome.bind_eq_ok, Except.ok.injEq] at success
      rcases success with ⟨reading, success, rfl⟩
      rcases Channel.read_eq_ok success with ⟨_, status, channel⟩ | ⟨locked, some, taken⟩
      · simpa [afterRead, status, channel] using sound
      · exact sound.take some (nothing locked some) taken
  | tryread lock result =>
      simp only [exec, Outcome.bind_eq_ok, Except.ok.injEq] at success
      rcases success with ⟨reading, success, rfl⟩
      rcases Channel.tryread_eq_ok success with ⟨_, status, channel⟩ | ⟨locked, some, taken⟩
      · simpa [afterRead, status, channel] using sound
      · exact sound.take some (nothing locked some) taken

theorem Sound.ownedOnce {state : ChannelState} (sound : state.Sound) : state.OwnedOnce := by
  refine ⟨sound.placed, sound.clean.outside, ?_⟩
  intro unit mem
  simp [sound.kept] at mem

/-- An item that owned something still does in its slot after it was taken. -/
theorem not_ownedOnce_take {state : ChannelState} {result : Scalar} {reading : ReadResult}
    (sound : state.Sound) (some : 0 < state.channel.count)
    (taken : state.channel.take result = .ok reading)
    (ownedOnce : (state.afterRead reading).OwnedOnce) :
    (state.channel.items state.channel.start).owned = [] := by
  rcases Channel.take_eq_ok taken with ⟨_, _, _, channel⟩
  rcases sound.clean with ⟨start_lt, count_le, _⟩
  have outside := ownedOnce.outside state.channel.start
  simp only [afterRead, channel, Channel.slots] at outside
  apply outside start_lt
  intro mem
  have room : state.channel.count - 1 < state.channel.allocatedCount := by omega
  have absent := window.first_not_mem state.channel.start room
  rw [Nat.mod_eq_of_lt start_lt] at absent
  exact absent mem

theorem Sound.takesNothingOwned {source target : ChannelState} {call : ChannelCall}
    (sound : source.Sound) (step : source.Step call target) (ownedOnce : target.OwnedOnce) :
    source.TakesNothingOwned call := by
  rcases step with ⟨copies, memory, waits, success⟩
  cases call with
  | write lock value => trivial
  | read lock result =>
      intro locked some
      simp only [exec, Outcome.bind_eq_ok, Except.ok.injEq] at success
      rcases success with ⟨reading, success, rfl⟩
      rcases Channel.read_eq_ok success with ⟨unlocked, _, _⟩ | ⟨_, _, taken⟩
      · exact absurd locked unlocked
      · exact not_ownedOnce_take sound some taken ownedOnce
  | tryread lock result =>
      intro locked some
      simp only [exec, Outcome.bind_eq_ok, Except.ok.injEq] at success
      rcases success with ⟨reading, success, rfl⟩
      rcases Channel.tryread_eq_ok success with ⟨unlocked | empty, _, _⟩ | ⟨_, _, taken⟩
      · exact absurd locked unlocked
      · omega
      · exact not_ownedOnce_take sound some taken ownedOnce

theorem sound_initial : initial.Sound := by
  refine ⟨⟨by simp [initial, Channel.init], by simp [initial, Channel.init], ?_⟩, ?_, rfl⟩
  · intro slot _ _
    rfl
  · simp [initial, Channel.init, Channel.queued, Channel.slots, window]

/-- Ownership is unique in every state of a run if and only if no read of the run takes an
item that owns something. -/
theorem ownedOnce_iff_takesNothingOwned {steps : List (ChannelCall × ChannelState)}
    (run : IsRun Step initial steps) :
    (∀ state ∈ visited initial steps, state.OwnedOnce) ↔
      StepsMeet TakesNothingOwned initial steps := by
  apply IsRun.forall_visited_iff Step Sound
  · intro source call target sound nothing step
    exact sound.step nothing step
  · intro state sound
    exact sound.ownedOnce
  · intro source call target sound step ownedOnce
    exact sound.takesNothingOwned step ownedOnce
  · exact sound_initial
  · exact run

section Wrapping

/-- A string is written and read, and sixteen numbers follow it around the ring. -/
def wrappingCalls : List ChannelCall :=
  [.write 0 (.string 1), .read 0 .undefined] ++ List.replicate 16 (.write 0 (.int 7))

/-- The run these calls make when the string is copied to the address 2. -/
def wrappingSteps : List (ChannelCall × ChannelState) :=
  ((follow (exec (Copies.succeeding 2) Memory.ample []) initial wrappingCalls).toOption).getD []

theorem wrappingSteps_isRun : IsRun Step initial wrappingSteps := by
  apply IsRun.of_follow (exec (Copies.succeeding 2) Memory.ample []) wrappingCalls
  · intro source call target success
    exact ⟨_, _, _, success⟩
  · rfl

theorem ownedOnce_iff_takesNothingOwned_wrapping :
    (∀ state ∈ visited initial wrappingSteps, state.OwnedOnce) ↔
      StepsMeet TakesNothingOwned initial wrappingSteps :=
  ownedOnce_iff_takesNothingOwned wrappingSteps_isRun

theorem wrappingSteps_length : 18 < (visited initial wrappingSteps).length := by
  decide

/-- The last write destroys the string that the reader was handed. -/
theorem wrapping_not_ownedOnce :
    IsRun Step initial wrappingSteps ∧
      ∃ state ∈ visited initial wrappingSteps,
        state.handed = [.string 2] ∧ state.destroyed = [.string 2] ∧ ¬state.OwnedOnce := by
  have handed : ((visited initial wrappingSteps).get ⟨18, wrappingSteps_length⟩).handed =
      [.string 2] := rfl
  have destroyed : ((visited initial wrappingSteps).get ⟨18, wrappingSteps_length⟩).destroyed =
      [.string 2] := rfl
  refine ⟨wrappingSteps_isRun, _, List.get_mem _ _, handed, destroyed, ?_⟩
  intro ownedOnce
  apply ownedOnce.kept (.string 2)
  · rw [destroyed]
    exact List.mem_singleton_self _
  · rw [handed]
    exact List.mem_singleton_self _

end Wrapping

end ChannelState

end Dang
