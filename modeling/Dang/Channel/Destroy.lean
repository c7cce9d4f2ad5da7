import Dang.Channel.Ownership

/-!
# Destroying a channel

`_channel_destroy` runs once for each queued item, but each time on the slot at
`m_start + m_count`, the one behind the queue. So it destroys the queued items in
exactly the states in which there are none.
-/

namespace Dang

/-- What `_channel_destroy` leaves. -/
structure DestroyResult where
  status : ℤ
  /-- The slots on which it called `anon_scalar_destroy`. -/
  slots : List ℕ
  destroyed : List Owned
  channel : Channel

namespace Channel

/-- The loop of `_channel_destroy` while `left` of its rounds are left: the slots it called
`anon_scalar_destroy` on, and what they gave back. -/
def destroyItems (channel : Channel) : ℕ → Outcome (List ℕ × List Owned)
  | 0 => .ok ([], [])
  | left + 1 => do
      let index := (channel.start + channel.count) % channel.allocatedCount
      let scalar ← channel.item index
      let units ← scalar.destroy
      let cleared := { channel with items := Function.update channel.items index .undefined }
      let (slots, destroyed) ← cleared.destroyItems left
      .ok (index :: slots, units ++ destroyed)

/-- `_channel_destroy` -/
def destroy (channel : Channel) : Outcome DestroyResult := do
  let (slots, destroyed) ← channel.destroyItems channel.count
  .ok
    { status := 0
      slots := slots
      destroyed := destroyed
      channel := { allocatedCount := 0, count := 0, items := fun _ => .undefined, start := 0 } }

/-- The channel can be destroyed, and each slot of the queue is destroyed once and no other
slot is. -/
def DestroysQueue (channel : Channel) : Prop :=
  ∃ result, channel.destroy = .ok result ∧ result.slots.Perm channel.slots

/-- A ring of at least `_channel_initial_size` slots, with the queue inside it. -/
structure Sized (channel : Channel) : Prop where
  start_lt : channel.start < channel.allocatedCount
  count_le : channel.count ≤ channel.allocatedCount
  initial_le : 16 ≤ channel.allocatedCount

theorem sized_init : init.Sized := ⟨by simp [init], by simp [init], by simp [init]⟩

theorem Sized.reserve {memory : Memory} {channel after : Channel} {newSize : ℕ} {status : ℤ}
    (sized : channel.Sized) (success : channel.reserve memory newSize = .ok (status, after)) :
    after.Sized := by
  rcases reserve_cases sized.start_lt sized.count_le success with
    rfl | ⟨start_lt, count_le, larger, _⟩
  · exact sized
  · exact ⟨start_lt, count_le, sized.initial_le.trans larger⟩

theorem Sized.write {copies : Copies} {memory : Memory} {waits : List Bool} {lock : ℤ}
    {channel : Channel} {value : Scalar} {writing : WriteResult} (sized : channel.Sized)
    (success : channel.write copies memory waits lock value = .ok writing) :
    writing.channel.Sized := by
  by_cases locked : lock = 0
  · simp only [Channel.write, locked, if_true, Outcome.bind_eq_ok, Except.ok.injEq] at success
    rcases success with ⟨ready, waited, old, _, ⟨new, destroyed⟩, _, rfl⟩
    rcases awaitSpace_of (fun _ _ _ _ => Sized.reserve) sized waited with
      ⟨⟨start_lt, _, initial_le⟩, room⟩
    exact ⟨start_lt, room, initial_le⟩
  · simp only [Channel.write, locked, if_false, Except.ok.injEq] at success
    subst success
    exact sized

theorem Sized.take {channel : Channel} {result : Scalar} {reading : ReadResult}
    (sized : channel.Sized) (taken : channel.take result = .ok reading) :
    reading.channel.Sized := by
  rcases take_eq_ok taken with ⟨_, _, _, after⟩
  rcases sized with ⟨start_lt, count_le, initial_le⟩
  rw [after]
  refine ⟨?_, ?_, initial_le⟩
  · apply Nat.mod_lt
    omega
  · change channel.count - 1 ≤ channel.allocatedCount
    omega

/-- Each round destroys the slot behind the queue, which gives back what it owns the first
time. -/
theorem destroyItems_eq_ok {channel : Channel} {left : ℕ} {slots : List ℕ}
    {destroyed : List Owned} (success : channel.destroyItems left = .ok (slots, destroyed)) :
    slots = List.replicate left ((channel.start + channel.count) % channel.allocatedCount) ∧
      destroyed = if left = 0 then []
        else (channel.items ((channel.start + channel.count) % channel.allocatedCount)).owned := by
  induction left generalizing channel slots destroyed with
  | zero =>
      simp only [destroyItems, Except.ok.injEq, Prod.mk.injEq] at success
      rcases success with ⟨rfl, rfl⟩
      exact ⟨rfl, rfl⟩
  | succ left ih =>
      simp only [destroyItems, Outcome.bind_eq_ok, Except.ok.injEq, Prod.mk.injEq] at success
      rcases success with ⟨scalar, found, units, destroys, ⟨later, others⟩, rest, rfl, rfl⟩
      rcases item_eq_ok found with ⟨_, rfl⟩
      rcases ih rest with ⟨sameSlot, nothing⟩
      have cleared : others = [] := by
        simp only [nothing, Function.update_self]
        split
        · rfl
        · rfl
      refine ⟨?_, ?_⟩
      · rw [sameSlot]
        rfl
      · simp [cleared, Scalar.destroy_eq_ok destroys]

/-- What is given back is what the slot behind the queue owns. -/
theorem destroy_eq_ok {channel : Channel} {result : DestroyResult}
    (success : channel.destroy = .ok result) :
    result.status = 0 ∧
      result.slots = List.replicate channel.count
        ((channel.start + channel.count) % channel.allocatedCount) ∧
      result.destroyed = if channel.count = 0 then []
        else (channel.items ((channel.start + channel.count) % channel.allocatedCount)).owned := by
  simp only [destroy, Outcome.bind_eq_ok, Except.ok.injEq] at success
  rcases success with ⟨⟨slots, destroyed⟩, rounds, rfl⟩
  exact ⟨rfl, destroyItems_eq_ok rounds⟩

theorem destroy_of_empty {channel : Channel} (empty : channel.count = 0) :
    channel.destroy = .ok ⟨0, [], [], ⟨0, 0, fun _ => .undefined, 0⟩⟩ := by
  simp only [destroy, empty, destroyItems, Outcome.ok_bind]

/-- One slot over and over is the queue only where there is none. -/
theorem count_eq_zero_of_perm {channel : Channel} (sized : channel.Sized)
    (same : (List.replicate channel.count
      ((channel.start + channel.count) % channel.allocatedCount)).Perm channel.slots) :
    channel.count = 0 := by
  rcases sized with ⟨start_lt, count_le, initial_le⟩
  by_contra some
  have first : channel.start ∈ channel.slots := by
    rw [slots_cons start_lt (by omega)]
    exact List.mem_cons_self
  have behind := List.eq_of_mem_replicate (same.mem_iff.mpr first)
  have around : (channel.start + 0) % channel.allocatedCount =
      (channel.start + channel.count) % channel.allocatedCount := by
    rw [Nat.add_zero, Nat.mod_eq_of_lt start_lt]
    exact behind
  have full : channel.count = channel.allocatedCount := by
    by_contra room
    have equal := window.distinct (by omega) (by omega) around
    omega
  -- In a full ring the slot behind the queue is the first one, and the second is queued too.
  have second : (channel.start + 1) % channel.allocatedCount ∈ channel.slots :=
    List.mem_map.mpr ⟨1, List.mem_range.mpr (by omega), rfl⟩
  have again := List.eq_of_mem_replicate (same.mem_iff.mpr second)
  have equal := window.distinct (by omega) (by omega) (around.trans again.symm)
  omega

end Channel

namespace ChannelState

/-- Every channel a run reaches is sized. -/
theorem sized_of_isRun {steps : List (ChannelCall × ChannelState)}
    (run : IsRun Step initial steps) : ∀ state ∈ visited initial steps, state.channel.Sized := by
  apply IsRun.forall_visited Step (fun _ _ => True) (fun state => state.channel.Sized)
  · intro source call target sized _ step
    rcases step with ⟨copies, memory, waits, success⟩
    cases call with
    | write lock value =>
        simp only [exec, Outcome.bind_eq_ok, Except.ok.injEq] at success
        rcases success with ⟨writing, success, rfl⟩
        exact sized.write success
    | read lock result =>
        simp only [exec, Outcome.bind_eq_ok, Except.ok.injEq] at success
        rcases success with ⟨reading, success, rfl⟩
        rcases Channel.read_eq_ok success with ⟨_, _, same⟩ | ⟨_, _, taken⟩
        · simpa [afterRead, same] using sized
        · exact sized.take taken
    | tryread lock result =>
        simp only [exec, Outcome.bind_eq_ok, Except.ok.injEq] at success
        rcases success with ⟨reading, success, rfl⟩
        rcases Channel.tryread_eq_ok success with ⟨_, _, same⟩ | ⟨_, _, taken⟩
        · simpa [afterRead, same] using sized
        · exact sized.take taken
  · exact Channel.sized_init
  · exact run
  · apply StepsMeet.of_forall
    intro source call
    trivial

end ChannelState

namespace Channel

/-- Destroying a channel destroys its queue if and only if nothing is queued. -/
theorem destroysQueue_iff_empty {channel : Channel} (sized : channel.Sized) :
    channel.DestroysQueue ↔ channel.count = 0 := by
  constructor
  · intro destroys
    rcases destroys with ⟨result, success, same⟩
    rcases destroy_eq_ok success with ⟨_, slots, _⟩
    rw [slots] at same
    exact count_eq_zero_of_perm sized same
  · intro empty
    refine ⟨_, destroy_of_empty empty, ?_⟩
    simp [slots, empty, window]

/-- A new channel that a string was written to. -/
def writtenOnce : Channel :=
  { init with items := Function.update init.items 0 (.string 2), count := 1 }

theorem destroysQueue_iff_empty_writtenOnce : writtenOnce.DestroysQueue ↔ writtenOnce.count = 0 :=
  destroysQueue_iff_empty ⟨by decide, by decide, by decide⟩

/-- The string stays, and the free slot behind it is destroyed. -/
theorem not_destroysQueue_writtenOnce :
    (∃ result, init.write (Copies.succeeding 2) Memory.ample [] 0 (.string 1) = .ok result ∧
        result.channel = writtenOnce) ∧
      (∃ result, writtenOnce.destroy = .ok result ∧ result.slots = [1] ∧ result.destroyed = []) ∧
      ¬writtenOnce.DestroysQueue := by
  refine ⟨⟨_, rfl, rfl⟩, ⟨_, rfl, rfl, rfl⟩, ?_⟩
  rintro ⟨result, success, same⟩
  have slots := (destroy_eq_ok success).2.1
  rw [slots] at same
  exact absurd same (by decide)

end Channel

end Dang
