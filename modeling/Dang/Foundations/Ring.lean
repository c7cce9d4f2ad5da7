import Mathlib.Data.Nat.ModEq
import Mathlib.Data.List.Range

/-!
# Windows of a ring

The slots of a ring buffer of `size` slots that hold `count` queued items, the first
of them at `start`.
-/

namespace Dang

/-- The slots of the items queued in a ring, in order. -/
def window (size start count : ℕ) : List ℕ :=
  (List.range count).map fun i => (start + i) % size

namespace window

variable {size start count : ℕ}

theorem succ : window size start (count + 1) = window size start count ++ [(start + count) % size] := by
  simp [window, List.range_succ]

theorem cons : window size start (count + 1) =
    start % size :: window size ((start + 1) % size) count := by
  simp only [window, List.range_succ_eq_map, List.map_cons, List.map_map, Nat.add_zero,
    List.cons.injEq, true_and]
  apply List.map_congr_left
  intro i _
  simp only [Function.comp_apply, Nat.mod_add_mod, Nat.succ_eq_add_one]
  rw [Nat.add_right_comm, Nat.add_assoc]

theorem distinct {first second : ℕ} (firstInside : first < size) (secondInside : second < size)
    (same : (start + first) % size = (start + second) % size) : first = second :=
  Nat.ModEq.eq_of_lt_of_lt (Nat.ModEq.add_left_cancel' start same) firstInside secondInside

/-- The slot after the window lies outside it while the ring has room. -/
theorem next_not_mem (room : count < size) : (start + count) % size ∉ window size start count := by
  intro mem
  rcases List.mem_map.mp mem with ⟨i, inside, same⟩
  have small := List.mem_range.mp inside
  have equal := distinct (by omega) room same
  omega

/-- The first slot lies outside the window that remains when its item is taken. -/
theorem first_not_mem (start : ℕ) (room : count < size) :
    start % size ∉ window size ((start + 1) % size) count := by
  intro mem
  rcases List.mem_map.mp mem with ⟨i, inside, same⟩
  have small := List.mem_range.mp inside
  have slots : (start + (1 + i)) % size = (start + 0) % size := by
    simpa [Nat.mod_add_mod, Nat.add_assoc] using same
  have equal := distinct (by omega) (by omega) slots
  omega

end window

end Dang
