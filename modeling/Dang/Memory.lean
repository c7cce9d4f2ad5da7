import Dang.Foundations.Outcome
import Mathlib.Algebra.Group.Int.Defs
import Mathlib.Algebra.Group.Nat.Defs
import Mathlib.Data.Int.Notation
import Mathlib.Data.Nat.Notation

/-!
# Machine words and storage

The sizes and limits the C code relies on, and the calls into the C library that
may fail for want of storage. Both `size_t` and `uintptr_t` are 64 bits wide. A
`handle_t` is a natural number: the index, from one, of an object in its pool.
-/

namespace Dang

/-- `SIZE_MAX` and `UINTPTR_MAX`. -/
def sizeMax : ℕ := 2 ^ 64 - 1

/-- Addition of two `size_t`. -/
def sizeAdd (first second : ℕ) : ℕ := (first + second) % 2 ^ 64

/-- Subtraction of two `size_t`. -/
def sizeSub (first second : ℕ) : ℕ := (first + (2 ^ 64 - second)) % 2 ^ 64

/-- An `intptr_t` converted to `size_t`. -/
def sizeOfInt (value : ℤ) : ℕ := (value % 2 ^ 64).toNat

theorem sizeOfInt_natCast {value : ℕ} (fits : value < 2 ^ 64) : sizeOfInt value = value := by
  unfold sizeOfInt
  omega

theorem sizeAdd_eq {first second : ℕ} (fits : first + second < 2 ^ 64) :
    sizeAdd first second = first + second :=
  Nat.mod_eq_of_lt fits

theorem sizeSub_eq {first second : ℕ} (le : second ≤ first) (fits : first < 2 ^ 64) :
    sizeSub first second = first - second := by
  unfold sizeSub
  omega

/-- An `intptr_t` or `size_t` converted to `int`. -/
def intOfSize (value : ℕ) : ℤ := Int.bmod value (2 ^ 32)

/-- An `intptr_t`, as it stands in a `size_t`, is in the range of an `int`. -/
def FitsInt (value : ℕ) : Prop := value < 2 ^ 31 ∨ 2 ^ 64 - 2 ^ 31 ≤ value

instance (value : ℕ) : Decidable (FitsInt value) := inferInstanceAs (Decidable (_ ∨ _))

/-- A distance that is returned as an `int` leads to where it was measured to if it fits. -/
theorem sizeOfInt_add_distance (source target : ℕ) (sourceFits : source < 2 ^ 64)
    (targetFits : target < 2 ^ 64) :
    sizeOfInt (source + intOfSize (sizeSub target source)) = target ↔
      FitsInt (sizeSub target source) := by
  have distance : (sizeSub target source : ℤ) % 2 ^ 64 = (target - source) % 2 ^ 64 := by
    unfold sizeSub
    omega
  have bounded : sizeSub target source < 2 ^ 64 := Nat.mod_lt _ (by decide)
  unfold sizeOfInt intOfSize FitsInt Int.bmod
  generalize sizeSub target source = apart at *
  dsimp only
  split
  case isTrue => omega
  case isFalse => omega

/-- `flags8_t`. -/
abbrev Flags8 := BitVec 8

/-- `flags32_t` -/
abbrev Flags32 := BitVec 32

/-- `sizeof(pthread_mutex_t)`. -/
def sizeofMutex : ℕ := 40

/-- `sizeof(scalar_t)` -/
def sizeofScalar : ℕ := 16

/-- `EDEADLK`: what locking an error-checking mutex again returns to its owner. -/
def EDEADLK : ℤ := 35

/-- The answers of the C library while an operation runs. -/
structure Memory where
  /-- `calloc(count, size)` returns storage, and not a null pointer. -/
  calloc : ℕ → ℕ → Bool
  /-- An object is never larger than `SIZE_MAX` bytes. -/
  calloc_fits : ∀ count size, calloc count size = true → count * size ≤ sizeMax
  /-- `pthread_mutex_init` succeeds. -/
  mutexInit : Bool

namespace Memory

/-- Storage never runs out before an object would exceed `SIZE_MAX` bytes. -/
def ample : Memory where
  calloc count size := decide (count * size ≤ sizeMax)
  calloc_fits count size success := by simpa using success
  mutexInit := true

/-- No storage is left. -/
def exhausted : Memory where
  calloc _ _ := false
  calloc_fits _ _ success := by cases success
  mutexInit := true

end Memory

/-- The two kinds of mutex that pools are set up with. -/
inductive MutexKind
  /-- `PTHREAD_MUTEX_ERRORCHECK` -/
  | errorcheck
  /-- `PTHREAD_MUTEX_RECURSIVE` -/
  | recursive
  deriving DecidableEq, Repr

/-- A `pthread_mutex_t`, as the thread running the operations sees it. -/
structure Mutex where
  kind : MutexKind
  /-- How many times the thread holds the mutex. -/
  depth : ℕ
  deriving DecidableEq, Repr

namespace Mutex

/-- `pthread_mutex_lock`: the error code, and the mutex afterwards. -/
def lock (mutex : Mutex) : ℤ × Mutex :=
  if mutex.depth = 0 ∨ mutex.kind = .recursive then
    (0, { mutex with depth := mutex.depth + 1 })
  else
    (EDEADLK, mutex)

/-- `pthread_mutex_unlock` by the thread holding the mutex. -/
def unlock (mutex : Mutex) : Mutex :=
  { mutex with depth := mutex.depth - 1 }

theorem unlock_lock {mutex : Mutex} (success : mutex.lock.1 = 0) : mutex.lock.2.unlock = mutex := by
  by_cases free : mutex.depth = 0 ∨ mutex.kind = .recursive
  · simp [lock, free, unlock]
  · simp [lock, free, EDEADLK] at success

theorem lock_failed {mutex : Mutex} (failed : mutex.lock.1 ≠ 0) :
    mutex.lock.2 = mutex ∧ mutex.depth ≠ 0 := by
  by_cases free : mutex.depth = 0 ∨ mutex.kind = .recursive
  · simp [lock, free] at failed
  · refine ⟨by simp [lock, free], fun zero => free (Or.inl zero)⟩

end Mutex

end Dang
