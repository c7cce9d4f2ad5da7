import Dang.Channel.Destroy
import Dang.Foundations.Monitor

/-!
# Waiting for space

Any number of threads in `channel_write`, `channel_read` and `channel_tryread` of one
channel, down to the lock, the waits and the signals. A writer that finds the channel
full waits on `m_has_space`, and doubles the capacity when its time is up.

`channel_read` signals for each item it takes, and while all space comes from there, a
writer waits beside free space only as long as a signal or a writer woken by one is on
its way. `channel_tryread` takes an item without a signal, a writer that doubles the
capacity tells no other writer, and it does not look again whether the channel is still
full.
-/

namespace Dang

/-- `m_has_items` and `m_has_space` -/
inductive ChannelCondition
  | hasItems
  | hasSpace
  deriving DecidableEq, Repr

/-- Points of `channel_write`. -/
inductive WritePoint
  | lock
  /-- The condition of the loop, the first time or after a wait. -/
  | test (waited : Bool)
  /-- `pthread_cond_timedwait` -/
  | full
  /-- `_channel_reserve_unlocked`, after `ETIMEDOUT` -/
  | expired
  /-- Past the loop. -/
  | room (waited : Bool)
  | unlock
  | signal
  deriving DecidableEq, Repr

/-- Points of `channel_read`. -/
inductive ReadPoint
  | lock
  | test
  /-- `pthread_cond_wait` -/
  | empty
  /-- Past the loop. -/
  | ready
  | unlock
  | signal
  deriving DecidableEq, Repr

/-- Points of `channel_tryread`. -/
inductive TryreadPoint
  | lock
  | test
  | unlock (status : ℤ)
  deriving DecidableEq, Repr

/-- A point of a thread's code, with the scalar it passes or gets. -/
inductive ChannelPoint
  /-- Outside of the functions; the last call returned `status`. -/
  | outside (status : ℤ) (scalar : Scalar)
  | write (point : WritePoint) (value : Scalar)
  | read (point : ReadPoint) (result : Scalar)
  | tryread (point : TryreadPoint) (result : Scalar)
  deriving DecidableEq, Repr

/-- What the functions call while they have the lock. -/
structure ChannelInput where
  copies : Copies
  memory : Memory

namespace ChannelPoint

/-- The functions are called at their first point. -/
def isCall : ChannelPoint → Bool
  | .write .lock _ | .read .lock _ | .tryread .lock _ => true
  | _ => false

/-- The thread has the lock, unless it waits. -/
def locked : ChannelPoint → Bool
  | .outside _ _ => false
  | .write point _ => point ≠ .lock && point ≠ .signal
  | .read point _ => point ≠ .lock && point ≠ .signal
  | .tryread point _ => point ≠ .lock

end ChannelPoint

namespace Channel

/-- What `channel_write` does past its loop. -/
def store (copies : Copies) (channel : Channel) (value : Scalar) : Outcome Channel := do
  let index := (channel.start + channel.count) % channel.allocatedCount
  let old ← channel.item index
  let (new, _) ← old.clone copies value
  .ok
    { channel with
      items := Function.update channel.items index new
      count := channel.count + 1 }

/-- The functions of `channel.c`, point by point. -/
def program : ChannelPoint → MonitorOp Channel ChannelInput ChannelCondition ChannelPoint
  | .outside _ _ => .enter ChannelPoint.isCall
  | .write .lock value => .lock (.write (.test false) value) (.outside (-1) value)
  | .write (.test waited) value => .work fun _ channel =>
      .ok (channel,
        if channel.allocatedCount ≤ channel.count then .write .full value
        else .write (.room waited) value)
  | .write .full value => .wait .hasSpace true fun timedOut =>
      if timedOut then .write .expired value else .write (.test true) value
  | .write .expired value => .work fun input channel => do
      let (_, channel) ← channel.reserve input.memory (channel.allocatedCount * 2 % 2 ^ 64)
      .ok (channel, .write (.test true) value)
  | .write (.room _) value => .work fun input channel => do
      let channel ← channel.store input.copies value
      .ok (channel, .write .unlock value)
  | .write .unlock value => .unlock (.write .signal value)
  | .write .signal value => .signal .hasItems (.outside 0 value)
  | .read .lock result => .lock (.read .test result) (.outside (-1) result)
  | .read .test result => .work fun _ channel =>
      .ok (channel, if channel.count = 0 then .read .empty result else .read .ready result)
  | .read .empty result => .wait .hasItems false fun _ => .read .test result
  | .read .ready result => .work fun _ channel => do
      let reading ← channel.take result
      .ok (reading.channel, .read .unlock reading.result)
  | .read .unlock result => .unlock (.read .signal result)
  | .read .signal result => .signal .hasSpace (.outside 0 result)
  | .tryread .lock result => .lock (.tryread .test result) (.outside (-1) result)
  | .tryread .test result => .work fun _ channel =>
      if 0 < channel.count then do
        let reading ← channel.take result
        .ok (reading.channel, .tryread (.unlock 0) reading.result)
      else
        .ok (channel, .tryread (.unlock EWOULDBLOCK) result)
  | .tryread (.unlock status) result => .unlock (.outside status result)

/-- What a thread at a point with the lock knows of the channel. -/
def Known : ChannelPoint → Channel → Prop
  | .write .full _, channel => channel.count = channel.allocatedCount
  | .write (.room _) _, channel => channel.count < channel.allocatedCount
  | .read .ready _, channel => 0 < channel.count
  | _, _ => True

end Channel

/-- The threads of a channel. -/
abbrev ChannelThread := MonitorThread ChannelPoint

/-- A channel and its threads. -/
abbrev ChannelMonitor := Monitor Channel ChannelPoint

/-- The steps that the threads of a channel take. -/
abbrev ChannelAction := MonitorAction ChannelInput ChannelPoint

namespace ChannelThread

/-- Waits on `m_has_space`. -/
def waits : ChannelThread → Bool
  | .blocked (.write .full _) => true
  | _ => false

/-- Took an item, and is still to signal `m_has_space`. -/
def willSignal : ChannelThread → Bool
  | .running (.read .unlock _) | .running (.read .signal _) => true
  | _ => false

/-- A writer that was woken, and is yet to run. -/
def wokenWriter : ChannelThread → Bool
  | .woken _ (.write .full _) | .running (.write .expired _) | .running (.write (.test true) _)
  | .running (.write (.room true) _) => true
  | _ => false

end ChannelThread

namespace ChannelMonitor

/-- A step of one of the threads. -/
def Step : ChannelMonitor → ℕ × ChannelAction → ChannelMonitor → Prop :=
  Monitor.Step Channel.program

/-- A new channel and any number of threads. -/
def initial (threads : ℕ) : ChannelMonitor where
  shared := Channel.init
  owner := none
  threads := List.replicate threads (.running (.outside 0 .undefined))

/-- The writers that wait on `m_has_space`. -/
def waiting (state : ChannelMonitor) : ℕ := state.tally ChannelThread.waits

/-- The signals on `m_has_space` that are still to be sent. -/
def pending (state : ChannelMonitor) : ℕ := state.tally ChannelThread.willSignal

/-- The writers that were woken and are yet to run. -/
def woken (state : ChannelMonitor) : ℕ := state.tally ChannelThread.wokenWriter

/-- While a writer waits beside free space, a signal is still to be sent, or a woken writer is yet
to run. -/
def WritersWoken (state : ChannelMonitor) : Prop :=
  0 < state.waiting → state.shared.count < state.shared.allocatedCount →
    0 < state.pending ∨ 0 < state.woken

/-- The capacity grows only in a step from a full channel. -/
def GrowsFull (source : ChannelMonitor) (_ : ℕ × ChannelAction) (target : ChannelMonitor) : Prop :=
  source.shared.allocatedCount < target.shared.allocatedCount →
    source.shared.count = source.shared.allocatedCount

/-- There is a signal to come for each waiting writer, or a signal or a woken writer for each of
the free slots. -/
def Answers (state : ChannelMonitor) (free : ℕ) : Prop :=
  state.waiting ≤ state.pending ∨ free ≤ state.pending + state.woken

/-- Space that is made without a signal is not missed: where `channel_tryread` takes an item there
are signals or woken writers enough for the slot it frees as well, and where a writer whose time is
up grows the channel, it is full and there are enough for all of the new slots. -/
def Spares (state : ChannelMonitor) : ℕ × ChannelAction → Prop
  | (self, .work input) =>
      match state.threads[self]? with
      | some (.running (.tryread .test _)) => 0 < state.shared.count →
          state.Answers (state.shared.allocatedCount - state.shared.count + 1)
      | some (.running (.write .expired _)) =>
          let newSize := state.shared.allocatedCount * 2 % 2 ^ 64
          state.shared.allocatedCount < newSize →
            input.memory.calloc newSize sizeofScalar = true →
            state.shared.count = state.shared.allocatedCount ∧
              state.Answers (newSize - state.shared.allocatedCount)
      | _ => True
  | _ => True

end ChannelMonitor

namespace Channel

/-- One more item is queued. -/
theorem store_eq_ok {copies : Copies} {channel after : Channel} {value : Scalar}
    (success : channel.store copies value = .ok after) :
    after.start = channel.start ∧ after.allocatedCount = channel.allocatedCount ∧
      after.count = channel.count + 1 := by
  simp only [store, Outcome.bind_eq_ok, Except.ok.injEq] at success
  rcases success with ⟨old, _, ⟨new, destroyed⟩, _, rfl⟩
  exact ⟨rfl, rfl, rfl⟩

/-- The capacity stays, or is the new size. -/
theorem reserve_count {memory : Memory} {channel after : Channel} {newSize : ℕ} {status : ℤ}
    (success : channel.reserve memory newSize = .ok (status, after)) :
    after.count = channel.count ∧
      (after.allocatedCount = channel.allocatedCount ∨
        channel.allocatedCount < newSize ∧ memory.calloc newSize sizeofScalar = true ∧
          after.allocatedCount = newSize) := by
  simp only [reserve, Outcome.bind_eq_ok, Outcome.assertThat_eq_ok] at success
  rcases success with ⟨_, _, rest⟩
  by_cases enough : newSize ≤ channel.allocatedCount
  · simp only [enough, if_true, Except.ok.injEq, Prod.mk.injEq] at rest
    rcases rest with ⟨_, rfl⟩
    exact ⟨rfl, Or.inl rfl⟩
  · by_cases storage : memory.calloc newSize sizeofScalar = true
    · simp only [enough, if_false, storage, if_true, Except.ok.injEq, Prod.mk.injEq] at rest
      rcases rest with ⟨_, rfl⟩
      exact ⟨rfl, Or.inr ⟨by omega, storage, rfl⟩⟩
    · simp only [enough, if_false, storage, Bool.false_eq_true, Except.ok.injEq,
        Prod.mk.injEq] at rest
      rcases rest with ⟨_, rfl⟩
      exact ⟨rfl, Or.inl rfl⟩

/-- Each point keeps to the lock and keeps the ring sized. -/
theorem program_obeys (point : ChannelPoint) :
    Monitor.Obeys ChannelPoint.locked Channel.Sized Known point (program point) := by
  cases point with
  | outside status scalar =>
      refine ⟨rfl, ?_⟩
      intro call called
      cases call with
      | outside => rfl
      | write point => cases point with
        | lock => rfl
        | _ => contradiction
      | read point => cases point with
        | lock => rfl
        | _ => contradiction
      | tryread point => cases point with
        | lock => rfl
        | _ => contradiction
  | write point value =>
      cases point with
      | lock => exact ⟨rfl, rfl, rfl, fun _ _ => trivial⟩
      | test waited =>
          refine ⟨rfl, ?_⟩
          intro input channel after next sized _ acts
          simp only [Except.ok.injEq, Prod.mk.injEq] at acts
          rcases acts with ⟨rfl, rfl⟩
          by_cases full : channel.allocatedCount ≤ channel.count
          · rw [if_pos full]
            exact ⟨rfl, sized, Nat.le_antisymm sized.count_le full⟩
          · rw [if_neg full]
            exact ⟨rfl, sized, Nat.lt_of_not_le full⟩
      | full =>
          refine ⟨rfl, ?_⟩
          intro timedOut
          cases timedOut with
          | false => exact ⟨rfl, fun _ _ => trivial⟩
          | true => exact ⟨rfl, fun _ _ => trivial⟩
      | expired =>
          refine ⟨rfl, ?_⟩
          intro input channel after next sized _ acts
          simp only [Outcome.bind_eq_ok, Except.ok.injEq, Prod.mk.injEq] at acts
          rcases acts with ⟨⟨status, grown⟩, reserved, rfl, rfl⟩
          exact ⟨rfl, sized.reserve reserved, trivial⟩
      | room waited =>
          refine ⟨rfl, ?_⟩
          intro input channel after next sized known acts
          simp only [Outcome.bind_eq_ok, Except.ok.injEq, Prod.mk.injEq] at acts
          rcases acts with ⟨stored, success, rfl, rfl⟩
          rcases store_eq_ok success with ⟨start, allocated, count⟩
          rcases sized with ⟨start_lt, _, initial_le⟩
          refine ⟨rfl, ⟨?_, ?_, ?_⟩, trivial⟩
          · rw [start, allocated]
            exact start_lt
          · rw [count, allocated]
            exact known
          · rw [allocated]
            exact initial_le
      | unlock => exact ⟨rfl, rfl⟩
      | signal => exact ⟨rfl, rfl⟩
  | read point result =>
      cases point with
      | lock => exact ⟨rfl, rfl, rfl, fun _ _ => trivial⟩
      | test =>
          refine ⟨rfl, ?_⟩
          intro input channel after next sized _ acts
          simp only [Except.ok.injEq, Prod.mk.injEq] at acts
          rcases acts with ⟨rfl, rfl⟩
          by_cases empty : channel.count = 0
          · rw [if_pos empty]
            exact ⟨rfl, sized, trivial⟩
          · rw [if_neg empty]
            exact ⟨rfl, sized, Nat.pos_of_ne_zero empty⟩
      | empty => exact ⟨rfl, fun _ => ⟨rfl, fun _ _ => trivial⟩⟩
      | ready =>
          refine ⟨rfl, ?_⟩
          intro input channel after next sized _ acts
          simp only [Outcome.bind_eq_ok, Except.ok.injEq, Prod.mk.injEq] at acts
          rcases acts with ⟨reading, taken, rfl, rfl⟩
          exact ⟨rfl, sized.take taken, trivial⟩
      | unlock => exact ⟨rfl, rfl⟩
      | signal => exact ⟨rfl, rfl⟩
  | tryread point result =>
      cases point with
      | lock => exact ⟨rfl, rfl, rfl, fun _ _ => trivial⟩
      | test =>
          refine ⟨rfl, ?_⟩
          intro input channel after next sized _ acts
          by_cases some : 0 < channel.count
          · simp only [some, if_true, Outcome.bind_eq_ok, Except.ok.injEq, Prod.mk.injEq] at acts
            rcases acts with ⟨reading, taken, rfl, rfl⟩
            exact ⟨rfl, sized.take taken, trivial⟩
          · simp only [some, if_false, Except.ok.injEq, Prod.mk.injEq] at acts
            rcases acts with ⟨rfl, rfl⟩
            exact ⟨rfl, sized, trivial⟩
      | unlock status => exact ⟨rfl, rfl⟩

end Channel

namespace ChannelMonitor

/-- What has to be known of a state: the channel is a ring, and the lock is kept. -/
def Guarded (state : ChannelMonitor) : Prop :=
  Monitor.Guarded ChannelPoint.locked Channel.Sized Channel.Known state

/-- There are signals and woken writers enough for the space that is free. -/
def Answered (state : ChannelMonitor) : Prop :=
  state.Answers (state.shared.allocatedCount - state.shared.count)

variable {source target : ChannelMonitor}

/-- A thread that moves counts at its new point in place of its old one. -/
theorem tally_move {self : ℕ} {before : ChannelThread} (after : ChannelThread)
    (shared : Channel) (owner : Option ℕ) (here : source.threads[self]? = some before) :
    let moved : ChannelMonitor := ⟨shared, owner, source.threads.set self after⟩
    moved.waiting + before.waits.toNat = source.waiting + after.waits.toNat ∧
      moved.pending + before.willSignal.toNat = source.pending + after.willSignal.toNat ∧
      moved.woken + before.wokenWriter.toNat = source.woken + after.wokenWriter.toNat :=
  ⟨Monitor.countP_set_add here, Monitor.countP_set_add here, Monitor.countP_set_add here⟩

/-- A thread that is neither to signal free space, nor was woken for it. -/
def Plain (point : ChannelPoint) : Prop :=
  ChannelThread.willSignal (.running point) = false ∧
    ChannelThread.wokenWriter (.running point) = false

theorem plain_of_enter {point call : ChannelPoint} {calls : ChannelPoint → Bool}
    (op : Channel.program point = .enter calls) (called : calls call = true) :
    Plain point ∧ Plain call := by
  cases point with
  | outside status scalar =>
      cases op
      refine ⟨⟨rfl, rfl⟩, ?_⟩
      cases call with
      | outside => contradiction
      | write point => cases point with
        | lock => exact ⟨rfl, rfl⟩
        | _ => contradiction
      | read point => cases point with
        | lock => exact ⟨rfl, rfl⟩
        | _ => contradiction
      | tryread point => cases point with
        | lock => exact ⟨rfl, rfl⟩
        | _ => contradiction
  | write point => cases point with | _ => cases op
  | read point => cases point with | _ => cases op
  | tryread point => cases point with | _ => cases op

theorem plain_of_lock {point locked failed : ChannelPoint}
    (op : Channel.program point = .lock locked failed) :
    Plain point ∧ Plain locked ∧ Plain failed := by
  cases point with
  | outside => cases op
  | write point => cases point with
    | lock =>
        cases op
        exact ⟨⟨rfl, rfl⟩, ⟨rfl, rfl⟩, ⟨rfl, rfl⟩⟩
    | _ => cases op
  | read point => cases point with
    | lock =>
        cases op
        exact ⟨⟨rfl, rfl⟩, ⟨rfl, rfl⟩, ⟨rfl, rfl⟩⟩
    | _ => cases op
  | tryread point => cases point with
    | lock =>
        cases op
        exact ⟨⟨rfl, rfl⟩, ⟨rfl, rfl⟩, ⟨rfl, rfl⟩⟩
    | _ => cases op

/-- The points at which a thread waits. -/
theorem point_of_wait {point : ChannelPoint} {condition : ChannelCondition} {timed : Bool}
    {next : Bool → ChannelPoint} (op : Channel.program point = .wait condition timed next) :
    (∃ value, point = .write .full value ∧ condition = .hasSpace ∧
        next = fun timedOut => if timedOut then .write .expired value
          else .write (.test true) value) ∨
      ∃ result, point = .read .empty result ∧ condition = .hasItems ∧
        next = fun _ => .read .test result := by
  cases point with
  | outside => cases op
  | write point value => cases point with
    | full =>
        cases op
        exact Or.inl ⟨value, rfl, rfl, rfl⟩
    | _ => cases op
  | read point result => cases point with
    | empty =>
        cases op
        exact Or.inr ⟨result, rfl, rfl, rfl⟩
    | _ => cases op
  | tryread point => cases point with | _ => cases op

/-- The points at which a thread gives up the lock. -/
theorem point_of_unlock {point next : ChannelPoint} (op : Channel.program point = .unlock next) :
    (∃ value, point = .write .unlock value ∧ next = .write .signal value) ∨
      (∃ result, point = .read .unlock result ∧ next = .read .signal result) ∨
      ∃ status result, point = .tryread (.unlock status) result ∧
        next = .outside status result := by
  cases point with
  | outside => cases op
  | write point value => cases point with
    | unlock =>
        cases op
        exact Or.inl ⟨value, rfl, rfl⟩
    | _ => cases op
  | read point result => cases point with
    | unlock =>
        cases op
        exact Or.inr (Or.inl ⟨result, rfl, rfl⟩)
    | _ => cases op
  | tryread point result => cases point with
    | unlock status =>
        cases op
        exact Or.inr (Or.inr ⟨status, result, rfl, rfl⟩)
    | _ => cases op

/-- The points at which a thread signals. -/
theorem point_of_signal {point next : ChannelPoint} {condition : ChannelCondition}
    (op : Channel.program point = .signal condition next) :
    (∃ value, point = .write .signal value ∧ condition = .hasItems ∧ next = .outside 0 value) ∨
      ∃ result, point = .read .signal result ∧ condition = .hasSpace ∧
        next = .outside 0 result := by
  cases point with
  | outside => cases op
  | write point value => cases point with
    | signal =>
        cases op
        exact Or.inl ⟨value, rfl, rfl, rfl⟩
    | _ => cases op
  | read point result => cases point with
    | signal =>
        cases op
        exact Or.inr ⟨result, rfl, rfl, rfl⟩
    | _ => cases op
  | tryread point => cases point with | _ => cases op

/-- A move between points of the same kind, with no more space afterwards. -/
theorem Answered.move (answered : source.Answered) {self : ℕ} {before after : ChannelThread}
    {shared : Channel} {owner : Option ℕ} (here : source.threads[self]? = some before)
    (waits : before.waits = after.waits) (willSignal : before.willSignal = after.willSignal)
    (wokenWriter : before.wokenWriter = after.wokenWriter)
    (space : shared.allocatedCount - shared.count ≤
      source.shared.allocatedCount - source.shared.count) :
    Answered ⟨shared, owner, source.threads.set self after⟩ := by
  have counts := tally_move after shared owner here
  simp only [waits, willSignal, wokenWriter, Nat.add_right_cancel_iff] at counts
  rcases counts with ⟨waiting, pending, woken⟩
  simp only [Answered, Answers, waiting, pending, woken] at answered ⊢
  omega

theorem Answered.plain (answered : source.Answered) {self : ℕ} {before after : ChannelPoint}
    {owner : Option ℕ} (here : source.threads[self]? = some (.running before))
    (plainBefore : Plain before) (plainAfter : Plain after) :
    Answered ⟨source.shared, owner, source.threads.set self (.running after)⟩ :=
  answered.move here rfl (plainBefore.1.trans plainAfter.1.symm)
    (plainBefore.2.trans plainAfter.2.symm) le_rfl

/-- Work with the lock keeps what is answered, if what it frees without a signal is spared. -/
theorem Answered.work {self : ℕ} {point next : ChannelPoint} {input : ChannelInput}
    {shared : Channel} {act : ChannelInput → Channel → Outcome (Channel × ChannelPoint)}
    (guarded : source.Guarded) (answered : source.Answered)
    (spares : source.Spares (self, .work input))
    (here : source.threads[self]? = some (.running point))
    (op : Channel.program point = .work act) (acts : act input source.shared = .ok (shared, next)) :
    Answered ⟨shared, source.owner, source.threads.set self (.running next)⟩ := by
  have known := guarded.inside self point here
  have sized := guarded.shared
  have counts := tally_move (.running next) shared source.owner here
  simp only [Spares, here] at spares
  cases point with
  | outside => cases op
  | write point value => cases point with
    | test waited =>
        cases op
        simp only [Except.ok.injEq, Prod.mk.injEq] at acts
        rcases acts with ⟨rfl, rfl⟩
        by_cases full : source.shared.allocatedCount ≤ source.shared.count
        · -- A full channel has no free slot to answer for.
          right
          change source.shared.allocatedCount - source.shared.count ≤ _
          omega
        · rw [if_neg full]
          cases waited with
          | false => exact answered.move here rfl rfl rfl le_rfl
          | true => exact answered.move here rfl rfl rfl le_rfl
    | expired =>
        cases op
        simp only [Outcome.bind_eq_ok, Except.ok.injEq, Prod.mk.injEq] at acts
        rcases acts with ⟨⟨status, grown⟩, reserved, rfl, rfl⟩
        rcases Channel.reserve_count reserved with ⟨count, same | ⟨larger, storage, allocated⟩⟩
        · refine answered.move here rfl rfl rfl ?_
          simp only [same, count, le_refl]
        · rcases spares larger storage with ⟨full, answers⟩
          simp only [ChannelThread.waits, ChannelThread.willSignal, ChannelThread.wokenWriter,
            Nat.add_right_cancel_iff] at counts
          rcases counts with ⟨waiting, pending, woken⟩
          simp only [Answers] at answers
          simp only [Answered, Answers, waiting, pending, woken, allocated, count, full]
          exact answers
    | room waited =>
        cases op
        simp only [Outcome.bind_eq_ok, Except.ok.injEq, Prod.mk.injEq] at acts
        rcases acts with ⟨stored, success, rfl, rfl⟩
        rcases Channel.store_eq_ok success with ⟨_, allocated, count⟩
        have room := (known rfl).2
        simp only [Channel.Known] at room
        cases waited with
        | false =>
            refine answered.move here rfl rfl rfl ?_
            rw [allocated, count]
            omega
        | true =>
            simp only [ChannelThread.waits, ChannelThread.willSignal, ChannelThread.wokenWriter,
              Bool.toNat_true, Bool.toNat_false, Nat.add_zero] at counts
            rcases counts with ⟨waiting, pending, woken⟩
            simp only [Answered, Answers, waiting, pending, allocated, count] at answered ⊢
            omega
    | _ => cases op
  | read point result => cases point with
    | test =>
        cases op
        simp only [Except.ok.injEq, Prod.mk.injEq] at acts
        rcases acts with ⟨rfl, rfl⟩
        by_cases empty : source.shared.count = 0
        · rw [if_pos empty]
          exact answered.move here rfl rfl rfl le_rfl
        · rw [if_neg empty]
          exact answered.move here rfl rfl rfl le_rfl
    | ready =>
        cases op
        simp only [Outcome.bind_eq_ok, Except.ok.injEq, Prod.mk.injEq] at acts
        rcases acts with ⟨reading, taken, rfl, rfl⟩
        rcases Channel.take_eq_ok taken with ⟨_, _, _, after⟩
        simp only [ChannelThread.waits, ChannelThread.willSignal, ChannelThread.wokenWriter,
          Bool.toNat_true, Bool.toNat_false, Nat.add_zero] at counts
        rcases counts with ⟨waiting, pending, woken⟩
        simp only [after] at waiting pending woken
        simp only [Answered, Answers, after, waiting, pending, woken] at answered ⊢
        omega
    | _ => cases op
  | tryread point result => cases point with
    | test =>
        cases op
        by_cases some : 0 < source.shared.count
        · simp only [some, if_true, Outcome.bind_eq_ok, Except.ok.injEq, Prod.mk.injEq] at acts
          rcases acts with ⟨reading, taken, rfl, rfl⟩
          rcases Channel.take_eq_ok taken with ⟨_, _, _, after⟩
          have answers := spares some
          simp only [ChannelThread.waits, ChannelThread.willSignal, ChannelThread.wokenWriter,
            Nat.add_right_cancel_iff] at counts
          rcases counts with ⟨waiting, pending, woken⟩
          simp only [after] at waiting pending woken
          simp only [Answered, Answers, after, waiting, pending, woken] at answers ⊢
          omega
        · simp only [some, if_false, Except.ok.injEq, Prod.mk.injEq] at acts
          rcases acts with ⟨rfl, rfl⟩
          exact answered.move here rfl rfl rfl le_rfl
    | _ => cases op

/-- The thread that signals is not the one that is blocked. -/
theorem stays {self other : ℕ} {point next sleeping : ChannelPoint}
    (here : source.threads[self]? = some (.running point))
    (sleeps : source.threads[other]? = some (.blocked sleeping)) :
    (source.threads.set self (.running next))[other]? = some (.blocked sleeping) := by
  have apart : self ≠ other := by
    rintro rfl
    cases here.symm.trans sleeps
  rw [List.getElem?_set_ne apart]
  exact sleeps

/-- A signal on `m_has_space` makes a waiting writer a woken one. -/
theorem Answered.signal (answered : source.Answered) {self other : ℕ} {result value : Scalar}
    (here : source.threads[self]? = some (.running (.read .signal result)))
    (sleeps : source.threads[other]? = some (.blocked (.write .full value))) :
    Answered ⟨source.shared, source.owner,
      (source.threads.set self (.running (.outside 0 result))).set other
        (.woken false (.write .full value))⟩ := by
  have asleep : (⟨source.shared, source.owner,
      source.threads.set self (.running (.outside 0 result))⟩ : ChannelMonitor).threads[other]? =
        some (.blocked (.write .full value)) := stays here sleeps
  have first := tally_move (.running (.outside 0 result)) source.shared source.owner here
  have second := tally_move (.woken false (.write .full value)) source.shared source.owner asleep
  simp only [ChannelThread.waits, ChannelThread.willSignal, ChannelThread.wokenWriter,
    Bool.toNat_true, Bool.toNat_false, Nat.add_zero] at first second
  simp only [Answered, Answers] at answered ⊢
  omega

/-- A signal on `m_has_space` that wakes nobody. -/
theorem Answered.signalNone {self : ℕ} {result : Scalar}
    (here : source.threads[self]? = some (.running (.read .signal result)))
    (nobody : ∀ thread ∈ source.threads, ¬Monitor.WaitsOn Channel.program .hasSpace thread) :
    Answered ⟨source.shared, source.owner,
      source.threads.set self (.running (.outside 0 result))⟩ := by
  have none : source.waiting = 0 := by
    apply List.countP_eq_zero.mpr
    intro thread mem waits
    apply nobody thread mem
    cases thread with
    | running point => contradiction
    | woken timedOut point => contradiction
    | blocked point =>
        cases point with
        | write point value =>
            cases point with
            | full => exact ⟨_, _, _, rfl, rfl⟩
            | _ => contradiction
        | _ => contradiction
  have counts := tally_move (.running (.outside 0 result)) source.shared source.owner here
  simp only [ChannelThread.waits, Bool.toNat_false, Nat.add_zero, none] at counts
  left
  rw [counts.1]
  exact Nat.zero_le _

/-- A signal to come for each waiting writer, or one or a woken writer for each free slot, is
what every step keeps that spares. -/
theorem Answered.step {label : ℕ × ChannelAction} (guarded : source.Guarded)
    (answered : source.Answered) (spares : source.Spares label) (step : source.Step label target) :
    target.Answered := by
  cases step with
  | @enter self point call calls here op called =>
      rcases plain_of_enter op called with ⟨before, after⟩
      exact answered.plain here before after
  | @lock self point locked failed here op free =>
      rcases plain_of_lock op with ⟨before, after, _⟩
      exact answered.plain here before after
  | @lockFails self point locked failed here op =>
      rcases plain_of_lock op with ⟨before, _, after⟩
      exact answered.plain here before after
  | @work self point next input shared act here op acts =>
      exact answered.work guarded spares here op acts
  | @wait self point condition timed next here op =>
      rcases point_of_wait op with ⟨value, rfl, _⟩ | ⟨result, rfl, _⟩
      · -- A writer only waits on a full channel, which has no free slot.
        right
        have full := (guarded.inside self _ here rfl).2
        simp only [Channel.Known] at full
        change source.shared.allocatedCount - source.shared.count ≤ _
        omega
      · exact answered.move here rfl rfl rfl le_rfl
  | @wake self point condition timed timedOut next here op due =>
      rcases point_of_wait op with ⟨value, rfl, _⟩ | ⟨result, rfl, _⟩
      · have counts := tally_move (.woken timedOut (.write .full value)) source.shared
          source.owner here
        simp only [ChannelThread.waits, ChannelThread.willSignal, ChannelThread.wokenWriter,
          Bool.toNat_true, Bool.toNat_false, Nat.add_zero] at counts
        rcases counts with ⟨waiting, pending, woken⟩
        simp only [Answered, Answers, pending, woken] at answered ⊢
        omega
      · exact answered.move here rfl rfl rfl le_rfl
  | @resume self point condition timed timedOut next here op free =>
      rcases point_of_wait op with ⟨value, rfl, _, rfl⟩ | ⟨result, rfl, _, rfl⟩
      · cases timedOut with
        | false => exact answered.move here rfl rfl rfl le_rfl
        | true => exact answered.move here rfl rfl rfl le_rfl
      · exact answered.move here rfl rfl rfl le_rfl
  | @unlock self point next here op =>
      rcases point_of_unlock op with
        ⟨value, rfl, rfl⟩ | ⟨result, rfl, rfl⟩ | ⟨status, result, rfl, rfl⟩
      · exact answered.move here rfl rfl rfl le_rfl
      · exact answered.move here rfl rfl rfl le_rfl
      · exact answered.move here rfl rfl rfl le_rfl
  | @signal self other point next sleeping condition timed resumed here op sleeps waits =>
      rcases point_of_signal op with ⟨value, rfl, rfl, rfl⟩ | ⟨result, rfl, rfl, rfl⟩
      · rcases point_of_wait waits with ⟨_, _, none, _⟩ | ⟨result, rfl, _⟩
        · cases none
        · have moved : Answered ⟨source.shared, source.owner,
              source.threads.set self (.running (.outside 0 value))⟩ :=
            answered.plain here ⟨rfl, rfl⟩ ⟨rfl, rfl⟩
          exact moved.move (stays here sleeps) rfl rfl rfl le_rfl
      · rcases point_of_wait waits with ⟨value, rfl, _⟩ | ⟨_, _, none, _⟩
        · exact answered.signal here sleeps
        · cases none
  | @signalNone self point next condition here op nobody =>
      rcases point_of_signal op with ⟨value, rfl, rfl, rfl⟩ | ⟨result, rfl, rfl, rfl⟩
      · exact answered.plain here ⟨rfl, rfl⟩ ⟨rfl, rfl⟩
      · exact Answered.signalNone here nobody

/-- Only the writer whose time is up changes the capacity. -/
theorem allocatedCount_work {point next : ChannelPoint} {input : ChannelInput}
    {channel after : Channel} {act : ChannelInput → Channel → Outcome (Channel × ChannelPoint)}
    (op : Channel.program point = .work act) (acts : act input channel = .ok (after, next)) :
    after.allocatedCount = channel.allocatedCount ∨
      ∃ value, point = .write .expired value ∧
        channel.allocatedCount < channel.allocatedCount * 2 % 2 ^ 64 ∧
        input.memory.calloc (channel.allocatedCount * 2 % 2 ^ 64) sizeofScalar = true := by
  cases point with
  | outside => cases op
  | write point value => cases point with
    | test waited =>
        cases op
        simp only [Except.ok.injEq, Prod.mk.injEq] at acts
        exact Or.inl (congrArg Channel.allocatedCount acts.1.symm)
    | expired =>
        cases op
        simp only [Outcome.bind_eq_ok, Except.ok.injEq, Prod.mk.injEq] at acts
        rcases acts with ⟨⟨status, grown⟩, reserved, rfl, rfl⟩
        rcases Channel.reserve_count reserved with ⟨_, same | ⟨larger, storage, _⟩⟩
        · exact Or.inl same
        · exact Or.inr ⟨value, rfl, larger, storage⟩
    | room waited =>
        cases op
        simp only [Outcome.bind_eq_ok, Except.ok.injEq, Prod.mk.injEq] at acts
        rcases acts with ⟨stored, success, rfl, rfl⟩
        exact Or.inl (Channel.store_eq_ok success).2.1
    | _ => cases op
  | read point result => cases point with
    | test =>
        cases op
        simp only [Except.ok.injEq, Prod.mk.injEq] at acts
        exact Or.inl (congrArg Channel.allocatedCount acts.1.symm)
    | ready =>
        cases op
        simp only [Outcome.bind_eq_ok, Except.ok.injEq, Prod.mk.injEq] at acts
        rcases acts with ⟨reading, taken, rfl, rfl⟩
        rcases Channel.take_eq_ok taken with ⟨_, _, _, after⟩
        have same := congrArg Channel.allocatedCount after
        exact Or.inl same
    | _ => cases op
  | tryread point result => cases point with
    | test =>
        cases op
        by_cases some : 0 < channel.count
        · simp only [some, if_true, Outcome.bind_eq_ok, Except.ok.injEq, Prod.mk.injEq] at acts
          rcases acts with ⟨reading, taken, rfl, rfl⟩
          rcases Channel.take_eq_ok taken with ⟨_, _, _, after⟩
          have same := congrArg Channel.allocatedCount after
          exact Or.inl same
        · simp only [some, if_false, Except.ok.injEq, Prod.mk.injEq] at acts
          exact Or.inl (congrArg Channel.allocatedCount acts.1.symm)
    | _ => cases op

/-- A step that spares grows the channel only where it is full. -/
theorem growsFull_of_spares {label : ℕ × ChannelAction} (spares : source.Spares label)
    (step : source.Step label target) : source.GrowsFull label target := by
  intro grows
  cases step with
  | @work self point next input shared act here op acts =>
      rcases allocatedCount_work op acts with same | ⟨value, rfl, larger, storage⟩
      · change source.shared.allocatedCount < shared.allocatedCount at grows
        omega
      · simp only [Spares, here] at spares
        exact (spares larger storage).1
  | _ => exact absurd grows (Nat.lt_irrefl _)

theorem Answered.writersWoken (answered : source.Answered) : source.WritersWoken := by
  intro waiting space
  simp only [Answered, Answers] at answered
  omega

theorem guarded_initial (threads : ℕ) : (initial threads).Guarded := by
  refine ⟨Channel.sized_init, ?_⟩
  intro self point here inside
  have mem := List.mem_of_getElem? here
  cases List.eq_of_mem_replicate mem
  contradiction

theorem answered_initial (threads : ℕ) : (initial threads).Answered := by
  left
  have none : (initial threads).waiting = 0 := by
    apply List.countP_eq_zero.mpr
    intro thread mem
    rw [List.eq_of_mem_replicate mem]
    exact Bool.false_ne_true
  rw [none]
  exact Nat.zero_le _

/-- In every run whose steps all spare, no writer waits beside free space that no signal and no
woken writer answers for, and the capacity grows only where the channel is full. -/
theorem writersWoken_of_spares {threads : ℕ} {steps : List ((ℕ × ChannelAction) × ChannelMonitor)}
    (run : IsRun Step (initial threads) steps) (spares : StepsMeet Spares (initial threads) steps) :
    (∀ state ∈ visited (initial threads) steps, state.WritersWoken) ∧
      ∀ transition ∈ transitions (initial threads) steps,
        transition.1.GrowsFull transition.2.1 transition.2.2 := by
  have keep : ∀ (source : ChannelMonitor) label target, source.Guarded ∧ source.Answered →
      source.Spares label → source.Step label target → target.Guarded ∧ target.Answered := by
    intro source label target sound spares step
    exact ⟨sound.1.step Channel.program_obeys step, sound.2.step sound.1 spares step⟩
  have grows : ∀ (source : ChannelMonitor) label target, source.Guarded ∧ source.Answered →
      source.Spares label → source.Step label target → source.GrowsFull label target := by
    intro source label target _ spares step
    exact growsFull_of_spares spares step
  have initially := And.intro (guarded_initial threads) (answered_initial threads)
  constructor
  · intro state visits
    exact (IsRun.forall_visited Step Spares (fun state => state.Guarded ∧ state.Answered) keep
      initially run spares state visits).2.writersWoken
  · exact IsRun.forall_transitions Step Spares (fun state => state.Guarded ∧ state.Answered) keep
      grows initially run spares

section Waiting

/-- What the functions call, with storage for everything. -/
def ample : ChannelInput := ⟨Copies.succeeding 2, Memory.ample⟩

/-- The actions of a thread that writes a number to a channel with space. -/
def writing (self : ℕ) : List (ℕ × ChannelAction) :=
  [.enter (.write .lock (.int 7)), .lock, .work ample, .work ample, .unlock, .signal none].map
    fun action => (self, action)

/-- A thread writes to the channel, and reads what it wrote. -/
def writeThenTryread : List (ℕ × ChannelAction) :=
  writing 0 ++ [.enter (.tryread .lock .undefined), .lock, .work ample, .unlock].map
    fun action => (0, action)

/-- One thread fills the channel, another one waits to write, and the first one reads an item without
waiting. Then the other one's time is up. -/
def fillThenTryread : List (ℕ × ChannelAction) :=
  (List.replicate 16 (writing 0)).flatten ++
    [.enter (.write .lock (.int 7)), .lock, .work ample, .wait].map (fun action => (1, action)) ++
    [.enter (.tryread .lock .undefined), .lock, .work ample, .unlock].map
      (fun action => (0, action)) ++
    [.wake true, .resume, .work ample].map fun action => (1, action)

theorem exists_run (labels : List (ℕ × ChannelAction))
    (observed : List ((ℕ × ChannelAction) × ChannelMonitor) → Bool)
    (follows : (follow (Monitor.exec Channel.program) (initial 2) labels).toOption.any observed) :
    ∃ steps, IsRun Step (initial 2) steps ∧ observed steps = true := by
  cases run : follow (Monitor.exec Channel.program) (initial 2) labels with
  | error fault =>
      rw [run] at follows
      contradiction
  | ok steps =>
      rw [run] at follows
      refine ⟨steps, ?_, follows⟩
      apply IsRun.of_follow (Monitor.exec Channel.program) labels
      · intro source label target success
        exact Monitor.step_of_exec Channel.program success
      · exact run

/-- The run these actions make. -/
def writeThenTryreadSteps : List ((ℕ × ChannelAction) × ChannelMonitor) :=
  ((follow (Monitor.exec Channel.program) (initial 2) writeThenTryread).toOption).getD []

theorem writersWoken_of_spares_tryread :
    (∀ state ∈ visited (initial 2) writeThenTryreadSteps, state.WritersWoken) ∧
      ∀ transition ∈ transitions (initial 2) writeThenTryreadSteps,
        transition.1.GrowsFull transition.2.1 transition.2.2 := by
  apply writersWoken_of_spares
  · apply IsRun.of_follow (Monitor.exec Channel.program) writeThenTryread
    · intro source label target success
      exact Monitor.step_of_exec Channel.program success
    · rfl
  · refine ⟨trivial, trivial, trivial, trivial, trivial, trivial, trivial, trivial, ?_, trivial,
      trivial⟩
    intro _
    exact Or.inl le_rfl

/-- A writer is left waiting, and the capacity grows in a channel that is not full. -/
def observed (steps : List ((ℕ × ChannelAction) × ChannelMonitor)) : Bool :=
  ((visited (initial 2) steps).any fun state : ChannelMonitor =>
      decide (0 < state.waiting ∧ state.shared.count < state.shared.allocatedCount ∧
        state.pending = 0 ∧ state.woken = 0)) &&
    (transitions (initial 2) steps).any fun transition =>
      decide (transition.1.shared.allocatedCount < transition.2.2.shared.allocatedCount ∧
        transition.1.shared.count ≠ transition.1.shared.allocatedCount)

/-- The writer is left waiting beside a free slot, and doubles the capacity of a channel that is not
full. -/
theorem fillThenTryread_not_writersWoken :
    ∃ steps, IsRun Step (initial 2) steps ∧
      (∃ state ∈ visited (initial 2) steps, ¬state.WritersWoken) ∧
      ∃ transition ∈ transitions (initial 2) steps,
        ¬transition.1.GrowsFull transition.2.1 transition.2.2 := by
  rcases exists_run fillThenTryread observed (by decide +kernel) with ⟨steps, run, seen⟩
  simp only [observed, Bool.and_eq_true, List.any_eq_true, decide_eq_true_eq] at seen
  rcases seen with ⟨⟨state, visits, waiting, space, pending, woken⟩, transition, mem, grows, room⟩
  refine ⟨steps, run, ⟨state, visits, ?_⟩, transition, mem, ?_⟩
  · intro writersWoken
    have answers := writersWoken waiting space
    omega
  · intro growsFull
    exact room (growsFull grows)

end Waiting

end ChannelMonitor

end Dang
