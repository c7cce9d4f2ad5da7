import Dang.Memory
import Mathlib.Logic.Function.Basic

/-!
# The scalar pool

The pooled scalars as the other modules use them: what is in use, the references
counted and the value, of which copies are made. Values are of any type, with the
default value for an undefined scalar, and with what a copy comes to for the storage
there is. A handle that `scalar_allocate` or `scalar_allocate_many` returns is chosen
by the pool; `Fresh` says that it was not in use.
-/

namespace Dang

/-- What scalars can hold. -/
class ScalarValue (α : Type) extends Inhabited α where
  /-- `anon_scalar_clone` into a scalar that owns nothing. -/
  clone : Memory → α → Outcome α

/-- There is storage for a copy of the value. -/
def Stored {α : Type} [ScalarValue α] (memory : Memory) (value : α) : Prop :=
  ScalarValue.clone memory value = .ok value

/-- A pooled scalar in use. -/
structure PooledScalar (α : Type) where
  references : ℕ
  value : α

/-- The scalars in use, by their handles. -/
structure ScalarStore (α : Type) where
  scalars : ℕ → Option (PooledScalar α)

namespace ScalarStore

variable {α : Type}

/-- The handles from `start` on are not in use. -/
def Fresh (store : ScalarStore α) (start count : ℕ) : Prop :=
  ∀ handle, start ≤ handle → handle < start + count → store.scalars handle = none

/-- `scalar_allocate_many`, once it returned `start`: the first of the new handles, or zero. -/
def allocateMany [Inhabited α] (store : ScalarStore α) (start count : ℕ) : ScalarStore α where
  scalars handle :=
    if 0 < start ∧ start ≤ handle ∧ handle < start + count then some ⟨1, default⟩
    else store.scalars handle

/-- The store with one scalar changed. -/
def set (store : ScalarStore α) (handle : ℕ) (scalar : Option (PooledScalar α)) :
    ScalarStore α where
  scalars := Function.update store.scalars handle scalar

/-- `scalar_get_value`, into a scalar that is undefined. -/
def getValue [ScalarValue α] (memory : Memory) (store : ScalarStore α) (handle : ℕ) : Outcome α :=
  match store.scalars handle with
  | some scalar => ScalarValue.clone memory scalar.value
  | none => .error .assertion

/-- `scalar_set_value` -/
def setValue [ScalarValue α] (memory : Memory) (store : ScalarStore α) (handle : ℕ) (value : α) :
    Outcome (ScalarStore α) :=
  match store.scalars handle with
  | some scalar => do
      let value ← ScalarValue.clone memory value
      .ok (store.set handle (some { scalar with value := value }))
  | none => .error .assertion

/-- `scalar_reference` -/
def reference (store : ScalarStore α) (handle : ℕ) : Outcome (ℕ × ScalarStore α) :=
  match store.scalars handle with
  | some scalar =>
      .ok (handle, store.set handle (some { scalar with references := scalar.references + 1 }))
  | none => .error .assertion

/-- `scalar_release` -/
def release (store : ScalarStore α) (handle : ℕ) : Outcome (ScalarStore α) :=
  match store.scalars handle with
  | some scalar =>
      if scalar.references = 1 then .ok (store.set handle none)
      else .ok (store.set handle (some { scalar with references := scalar.references - 1 }))
  | none => .error .assertion

/-- There is storage to copy what the scalar holds. -/
def CanGet [ScalarValue α] (store : ScalarStore α) (memory : Memory) (handle : ℕ) : Prop :=
  ∀ scalar, store.scalars handle = some scalar → Stored memory scalar.value

theorem getValue_eq [ScalarValue α] {store : ScalarStore α} {handle : ℕ} {scalar : PooledScalar α}
    (memory : Memory) (used : store.scalars handle = some scalar) :
    store.getValue memory handle = ScalarValue.clone memory scalar.value := by
  simp only [getValue, used]

theorem setValue_of [ScalarValue α] {store : ScalarStore α} {memory : Memory} {handle : ℕ}
    {scalar : PooledScalar α} {value : α} (used : store.scalars handle = some scalar)
    (stored : Stored memory value) :
    store.setValue memory handle value =
      .ok (store.set handle (some { scalar with value := value })) := by
  simp only [Stored] at stored
  simp only [setValue, used, stored, Outcome.ok_bind]

theorem scalars_set (store : ScalarStore α) (handle other : ℕ)
    (scalar : Option (PooledScalar α)) :
    (store.set handle scalar).scalars other =
      if other = handle then scalar else store.scalars other := by
  simp [set, Function.update_apply]

end ScalarStore

end Dang
