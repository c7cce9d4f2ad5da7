import Dang.Foundations.Ring
import Dang.Scalar.Basic
import Mathlib.Logic.Function.Basic

/-!
# Channels

The ring buffer of `channel.c`. Each function reports what its copies create and
what its assignments and copies destroy; `lock` is what `_channel_lock` returned.
-/

namespace Dang

/-- `EWOULDBLOCK` -/
def EWOULDBLOCK : ℤ := 11

/-- `channel_t`, with `items index` for `m_items[index]`. -/
structure Channel where
  allocatedCount : ℕ
  count : ℕ
  items : ℕ → Scalar
  start : ℕ

/-- What `channel_read` and `channel_tryread` leave. -/
structure ReadResult where
  status : ℤ
  result : Scalar
  destroyed : List Owned
  channel : Channel

/-- What `channel_write` leaves. -/
structure WriteResult where
  status : ℤ
  created : List Owned
  destroyed : List Owned
  channel : Channel

namespace Channel

/-- `_channel_init` with `_channel_initial_size` -/
def init : Channel where
  allocatedCount := 16
  count := 0
  items := fun _ => .undefined
  start := 0

/-- Reading `m_items[index]`. -/
def item (channel : Channel) (index : ℕ) : Outcome Scalar :=
  if index < channel.allocatedCount then .ok (channel.items index) else .error .invalidAccess

/-- The slots of the queued items. -/
def slots (channel : Channel) : List ℕ :=
  window channel.allocatedCount channel.start channel.count

/-- Hands the first queued item to the reader: `m_items` keeps its copy of it. -/
def take (channel : Channel) (result : Scalar) : Outcome ReadResult := do
  let first ← channel.item channel.start
  let (value, destroyed) ← result.assign first
  .ok
    { status := 0
      result := value
      destroyed := destroyed
      channel :=
        { channel with
          start := (channel.start + 1) % channel.allocatedCount
          count := channel.count - 1 } }

/-- `channel_read`, which waits while the channel is empty. -/
def read (lock : ℤ) (channel : Channel) (result : Scalar) : Outcome ReadResult :=
  if lock = 0 then
    if channel.count = 0 then .error .outOfFuel else channel.take result
  else
    .ok ⟨-1, result, [], channel⟩

/-- `channel_tryread` -/
def tryread (lock : ℤ) (channel : Channel) (result : Scalar) : Outcome ReadResult :=
  if lock = 0 then
    if 0 < channel.count then channel.take result else .ok ⟨EWOULDBLOCK, result, [], channel⟩
  else
    .ok ⟨-1, result, [], channel⟩

/-- The slot `index` of the new ring buffer, after the two copies that
`_channel_reserve_unlocked` makes of the old one. -/
def movedItem (channel : Channel) (index : ℕ) : Scalar :=
  let straightCount :=
    if channel.count < channel.allocatedCount - channel.start then channel.count
    else channel.allocatedCount - channel.start
  let rotatedCount := channel.count - straightCount
  if index < straightCount then channel.items (channel.start + index)
  else if index < straightCount + rotatedCount then channel.items (index - straightCount)
  else .undefined

/-- `_channel_reserve_unlocked` -/
def reserve (memory : Memory) (channel : Channel) (newSize : ℕ) : Outcome (ℤ × Channel) := do
  Outcome.assertThat (newSize ≠ 0)
  if newSize ≤ channel.allocatedCount then
    .ok (0, channel)
  else if memory.calloc newSize sizeofScalar then
    .ok (0,
      { channel with allocatedCount := newSize, start := 0, items := channel.movedItem })
  else
    .ok (-1, channel)

/-- The loop of `channel_write` that waits for space: `waits` tells of each wait whether it
timed out. -/
def awaitSpace (memory : Memory) (channel : Channel) : List Bool → Outcome Channel
  | [] => if channel.allocatedCount ≤ channel.count then .error .outOfFuel else .ok channel
  | timedOut :: waits =>
      if channel.allocatedCount ≤ channel.count then
        if timedOut then do
          let (_, channel) ← channel.reserve memory (channel.allocatedCount * 2 % 2 ^ 64)
          channel.awaitSpace memory waits
        else
          channel.awaitSpace memory waits
      else
        .ok channel

/-- `channel_write` -/
def write (copies : Copies) (memory : Memory) (waits : List Bool) (lock : ℤ) (channel : Channel)
    (value : Scalar) : Outcome WriteResult :=
  if lock = 0 then do
    let channel ← channel.awaitSpace memory waits
    let index := (channel.start + channel.count) % channel.allocatedCount
    let old ← channel.item index
    let (new, destroyed) ← old.clone copies value
    .ok
      { status := 0
        created := new.owned
        destroyed := destroyed
        channel :=
          { channel with
            items := Function.update channel.items index new
            count := channel.count + 1 } }
  else
    .ok ⟨-1, [], [], channel⟩

end Channel

end Dang
