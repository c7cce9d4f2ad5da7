import Mathlib.Tactic.Common
import Mathlib.Data.List.Basic
import Mathlib.Data.List.Nodup
import Mathlib.Logic.Function.Basic

/-!
# Chains

A singly linked list threaded through a successor function: `Chain null next head xs`
says that following `next` from `head` visits exactly the members of `xs`, in that
order, and then reaches `null`.
-/

namespace Dang

universe u

variable {α : Type u} {null : α} {next : α → α}

/-- Following `next` from `head` visits `members` in order and ends at `null`. -/
def Chain (null : α) (next : α → α) : α → List α → Prop
  | head, [] => head = null
  | head, first :: rest => head = first ∧ first ≠ null ∧ Chain null next (next first) rest

namespace Chain

/-- A chain is determined by its head. -/
theorem unique {head : α} {members others : List α} (chain : Chain null next head members)
    (other : Chain null next head others) : members = others := by
  induction members generalizing head others with
  | nil =>
      cases others with
      | nil => rfl
      | cons first rest => exact absurd (other.1.symm.trans chain) other.2.1
  | cons first rest ih =>
      cases others with
      | nil => exact absurd (chain.1.symm.trans other) chain.2.1
      | cons otherFirst otherRest =>
          have same : first = otherFirst := chain.1.symm.trans other.1
          subst same
          rw [ih chain.2.2 other.2.2]

/-- A chain reads the successors of its members only. -/
theorem congr {next' : α → α} {head : α} {members : List α}
    (chain : Chain null next head members)
    (agree : ∀ member ∈ members, next' member = next member) :
    Chain null next' head members := by
  induction members generalizing head with
  | nil => exact chain
  | cons first rest ih =>
      refine ⟨chain.1, chain.2.1, ?_⟩
      rw [agree first List.mem_cons_self]
      exact ih chain.2.2 (fun member mem => agree member (List.mem_cons_of_mem _ mem))

/-- Consecutive numbers, each the successor of the one before, form a chain. -/
theorem range' {next : ℕ → ℕ} {start length : ℕ} (positive : 0 < start)
    (succ : ∀ i, start ≤ i → i < start + length → next i = i + 1)
    (last : next (start + length) = 0) :
    Chain 0 next start (List.range' start (length + 1)) := by
  induction length generalizing start with
  | zero => exact ⟨rfl, by omega, last⟩
  | succ length ih =>
      rw [List.range'_succ]
      refine ⟨rfl, by omega, ?_⟩
      rw [succ start (Nat.le_refl start) (by omega)]
      apply ih (by omega)
      · intro i lower upper
        exact succ i (by omega) (by omega)
      · rw [show start + 1 + length = start + (length + 1) by omega]
        exact last

/-- From a member on a chain visits the members behind it. -/
theorem behind {head member : α} {front back : List α}
    (chain : Chain null next head (front ++ member :: back)) : Chain null next (next member) back := by
  induction front generalizing head with
  | nil => exact chain.2.2
  | cons first front ih => exact ih chain.2.2

/-- Members are taken out by a link from the one before them to the one behind them. -/
theorem unlink [DecidableEq α] {head member target : α} {front block back : List α}
    (chain : Chain null next head (front ++ member :: (block ++ back)))
    (nodup : (front ++ member :: (block ++ back)).Nodup) (rest : Chain null next target back) :
    Chain null (Function.update next member target) head (front ++ member :: back) := by
  induction front generalizing head with
  | nil =>
      refine ⟨chain.1, chain.2.1, ?_⟩
      rw [Function.update_self]
      apply rest.congr
      intro other mem
      apply Function.update_of_ne
      rintro rfl
      exact (List.nodup_cons.mp nodup).1 (List.mem_append_right block mem)
  | cons first front ih =>
      have apart : first ≠ member := by
        rintro rfl
        exact (List.nodup_cons.mp nodup).1 (List.mem_append_right front List.mem_cons_self)
      refine ⟨chain.1, chain.2.1, ?_⟩
      rw [Function.update_of_ne apart]
      exact ih chain.2.2 (List.nodup_cons.mp nodup).2

end Chain

end Dang
