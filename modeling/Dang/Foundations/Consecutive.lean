import Mathlib.Data.List.Nodup
import Mathlib.Data.List.Sort

/-!
# Consecutive numbers

Runs of consecutive numbers in an ascending list. A run is one piece of the list, and it does not
reach over a number that is missing.
-/

namespace Dang

/-- So many numbers from `start` on are members. -/
def Consecutive (members : List ℕ) (start len : ℕ) : Prop := ∀ i < len, start + i ∈ members

/-- A run that none begins before, or zero where there is no run. -/
def LowestRun (members : List ℕ) (len start : ℕ) : Prop :=
  (Consecutive members start len ∧ ∀ other, Consecutive members other len → start ≤ other) ∨
    start = 0 ∧ ∀ other, ¬Consecutive members other len

instance (members : List ℕ) (start len : ℕ) : Decidable (Consecutive members start len) :=
  inferInstanceAs (Decidable (∀ i < len, start + i ∈ members))

theorem LowestRun.unique {members : List ℕ} {len first second : ℕ}
    (lowest : LowestRun members len first) (other : LowestRun members len second) :
    first = second := by
  rcases lowest with ⟨run, least⟩ | ⟨zero, none⟩
  · rcases other with ⟨otherRun, otherLeast⟩ | ⟨_, none⟩
    · exact Nat.le_antisymm (least second otherRun) (otherLeast first run)
    · exact absurd run (none first)
  · rcases other with ⟨otherRun, _⟩ | ⟨otherZero, _⟩
    · exact absurd otherRun (none second)
    · rw [zero, otherZero]

namespace Consecutive

variable {members front back : List ℕ} {start len : ℕ}

theorem start_mem (consecutive : Consecutive members start len) (positive : 0 < len) :
    start ∈ members :=
  consecutive 0 positive

/-- A run of an ascending list is a piece of it. -/
theorem split (ascending : members.Pairwise (· < ·)) (consecutive : Consecutive members start len) :
    members = members.filter (· < start) ++
      (List.range' start len ++ members.filter (start + len ≤ ·)) := by
  refine ascending.eq_of_mem_iff ?_ ?_
  · have pieces := List.pairwise_lt_range' (s := start) (n := len)
    rw [List.pairwise_append, List.pairwise_append]
    refine ⟨ascending.filter _, ⟨pieces, ascending.filter _, ?_⟩, ?_⟩
    · intro first firstMem second secondMem
      have inside := List.mem_range'_1.mp firstMem
      have above := of_decide_eq_true (List.mem_filter.mp secondMem).2
      omega
    · intro first firstMem second secondMem
      have below := of_decide_eq_true (List.mem_filter.mp firstMem).2
      rcases List.mem_append.mp secondMem with inside | above
      · have inside := List.mem_range'_1.mp inside
        omega
      · have above := of_decide_eq_true (List.mem_filter.mp above).2
        omega
  · intro member
    simp only [List.mem_append, List.mem_filter, List.mem_range'_1, decide_eq_true_eq]
    constructor
    · intro mem
      rcases Nat.lt_or_ge member start with below | least
      · exact Or.inl ⟨mem, below⟩
      · rcases Nat.lt_or_ge member (start + len) with inside | above
        · exact Or.inr (Or.inl ⟨least, inside⟩)
        · exact Or.inr (Or.inr ⟨mem, above⟩)
    · rintro (⟨mem, _⟩ | ⟨least, inside⟩ | ⟨mem, _⟩)
      · exact mem
      · have mem := consecutive (member - start) (by omega)
        rwa [Nat.add_sub_cancel' least] at mem
      · exact mem

/-- No run reaches over a number that is missing. -/
theorem not_of_missing {sequence found : ℕ} (missing : sequence + found ∉ members)
    (short : found < len) (inside : start ∈ List.range' sequence found) :
    ¬Consecutive members start len := by
  intro consecutive
  have bounds := List.mem_range'_1.mp inside
  have mem := consecutive (sequence + found - start) (by omega)
  rw [Nat.add_sub_cancel' (by omega)] at mem
  exact missing mem

end Consecutive

/-- Where an ascending list goes on behind a run, it goes on with larger numbers, and what is before
the run is smaller. -/
theorem bounds_of_split {members front back : List ℕ} {sequence found : ℕ}
    (ascending : members.Pairwise (· < ·)) (some : 0 < found)
    (split : members = front ++ (List.range' sequence found ++ back)) :
    (∀ member ∈ front, member < sequence) ∧ ∀ member ∈ back, sequence + found ≤ member := by
  rw [split, List.pairwise_append, List.pairwise_append] at ascending
  rcases ascending with ⟨_, ⟨_, _, above⟩, below⟩
  have first : sequence ∈ List.range' sequence found := List.mem_range'_1.mpr (by omega)
  have last : sequence + (found - 1) ∈ List.range' sequence found := List.mem_range'_1.mpr (by omega)
  constructor
  · intro member mem
    exact below member mem sequence (List.mem_append_left back first)
  · intro member mem
    have larger := above _ last member mem
    omega

end Dang
