import Dang.Memory

/-!
# Scalars

The anonymous scalars of `scalar.c`: a tagged value that may own a string or a
reference to a pooled object. The functions that set up, copy and destroy a scalar
report what is owned: a string or a counted reference, created by a clone and given
back when the scalar is destroyed.
-/

namespace Dang

/-- The pooled objects a scalar can refer to. -/
inductive ReferenceKind
  | scalar
  | array
  | hash
  | channel
  | stream
  deriving DecidableEq, Repr

/-- `scalar_t`: the type in `m_flags` with the member of `m_value` it selects. Integers
and floats are their 64 bits, strings and functions their addresses. -/
inductive Scalar
  | undefined
  | int (value : BitVec 64)
  | float (bits : BitVec 64)
  | string (address : ℕ)
  | reference (kind : ReferenceKind) (handle : ℕ)
  | function (handle : ℕ)
  deriving DecidableEq, Repr

/-- A unit of ownership: a string on the heap, or one counted reference. -/
inductive Owned
  | string (address : ℕ)
  | reference (kind : ReferenceKind) (handle : ℕ)
  deriving DecidableEq, Repr

/-- What `POOL_REFERENCE` returns for the objects of each kind: the handle, or zero when
the object cannot be locked. -/
structure References where
  reference : ReferenceKind → ℕ → Outcome ℕ
  reference_eq : ∀ kind handle result, reference kind handle = .ok result →
    handle ≠ 0 ∧ (result = 0 ∨ result = handle)

/-- What copying a scalar calls; `string_dup` returns a null pointer for want of storage. -/
structure Copies extends References where
  stringDup : ℕ → Outcome ℕ

namespace References

/-- References that are always counted. -/
def succeeding : References where
  reference _ handle := if handle = 0 then .error .assertion else .ok handle
  reference_eq := by
    intro kind handle result success
    by_cases zero : handle = 0
    · simp [zero] at success
    · simp only [zero, if_false, Except.ok.injEq] at success
      exact ⟨zero, Or.inr success.symm⟩

end References

namespace Copies

/-- References that are always counted, and copies of strings that go to one address. -/
def succeeding (address : ℕ) : Copies where
  toReferences := References.succeeding
  stringDup _ := .ok address

end Copies

namespace Scalar

/-- What a scalar owns. A null pointer and the handle zero stand for nothing. -/
def owned : Scalar → List Owned
  | .string address => if address = 0 then [] else [.string address]
  | .reference kind handle => if handle = 0 then [] else [.reference kind handle]
  | _ => []

/-- `anon_scalar_destroy`: what is given back. The scalar is undefined afterwards. -/
def destroy : Scalar → Outcome (List Owned)
  | .string address => do
      Outcome.assertThat (address ≠ 0)
      .ok [.string address]
  | .reference kind handle => do
      Outcome.assertThat (0 < handle)
      .ok [.reference kind handle]
  | _ => .ok []

/-- The part of `anon_scalar_clone` that sets the copy up. -/
def copy (copies : Copies) : Scalar → Outcome Scalar
  | .string address => do
      let address ← copies.stringDup address
      .ok (.string address)
  | .reference kind handle => do
      let handle ← copies.reference kind handle
      .ok (.reference kind handle)
  | other => .ok other

/-- `anon_scalar_clone`: the deep copy, and what the old value gives back. Destroying an
undefined scalar does nothing. -/
def clone (copies : Copies) (self other : Scalar) : Outcome (Scalar × List Owned) := do
  let destroyed ← self.destroy
  let value ← other.copy copies
  .ok (value, destroyed)

/-- `anon_scalar_assign`: the shallow copy, and what the old value gives back. -/
def assign (self other : Scalar) : Outcome (Scalar × List Owned) := do
  let destroyed ← self.destroy
  .ok (other, destroyed)

/-- Destroying a scalar gives back what it owns. -/
theorem destroy_eq_ok {scalar : Scalar} {destroyed : List Owned}
    (success : scalar.destroy = .ok destroyed) : destroyed = scalar.owned := by
  cases scalar with
  | string address =>
      simp only [destroy, Outcome.bind_eq_ok, Outcome.assertThat_eq_ok, Except.ok.injEq] at success
      rcases success with ⟨_, nonzero, rfl⟩
      simp [owned, nonzero]
  | reference kind handle =>
      simp only [destroy, Outcome.bind_eq_ok, Outcome.assertThat_eq_ok, Except.ok.injEq] at success
      rcases success with ⟨_, positive, rfl⟩
      simp [owned, Nat.ne_of_gt positive]
  | undefined => simpa [destroy, owned, eq_comm] using success
  | int value => simpa [destroy, owned, eq_comm] using success
  | float bits => simpa [destroy, owned, eq_comm] using success
  | function handle => simpa [destroy, owned, eq_comm] using success

end Scalar

end Dang
