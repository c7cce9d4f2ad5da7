import Dang.Array.Basic
import Dang.Stack
import Dang.Stream.Delimited

/-!
# Growth

Every buffer that grows asks `nextupow2` for its new size. Below half the range of a word that is
more than what was requested and at most twice as much, so a buffer that grows again and again
reaches any such size.
-/

namespace Dang

/-- The size is more than what was requested, and at most twice as much. -/
def Grows (requested size : ℕ) : Prop := requested < size ∧ size ≤ 2 * requested

variable {x : ℕ}

theorem grows_nextupow2 (positive : 0 < x) (small : x < 2 ^ 63) : Grows x (nextupow2 x) :=
  ⟨lt_nextupow2 small, nextupow2_le (Nat.ne_of_gt positive) small⟩

theorem nextupow2_is_power (positive : 0 < x) (small : x < 2 ^ 63) :
    ∃ k, nextupow2 x = 2 ^ k ∧ Grows x (2 ^ k) := by
  have power := nextupow2_eq (Nat.ne_of_gt positive) small
  refine ⟨x.log2 + 1, power, ?_⟩
  rw [← power]
  exact grows_nextupow2 positive small

section Sites

variable {α σ : Type} {functions : ItemFunctions α σ} {memory : Memory}

/-- `STACK_RESERVE` where it succeeds in growing. -/
theorem Stack.reserve_grows {stack after : Stack α} {requested : ℕ}
    (within : stack.count ≤ stack.items.length) (beyond : stack.items.length < requested)
    (small : requested < 2 ^ 63)
    (success : stack.reserve functions memory requested = (0, after)) :
    Grows requested after.items.length := by
  have larger := lt_nextupow2 small
  rw [Stack.reserve, if_neg (Nat.not_le.mpr beyond)] at success
  dsimp only at success
  split at success
  case isTrue =>
    cases success
    have size : (stack.items.take stack.count ++
        List.replicate (nextupow2 requested - stack.count) functions.zero).length =
          nextupow2 requested := by
      rw [List.length_append, List.length_take, List.length_replicate]
      omega
    rw [size]
    exact grows_nextupow2 (by omega) small
  case isFalse => cases success

/-- `string_reserve` where it succeeds in growing. -/
theorem StringT.allocatedSize_grows {string after : StringT} {requested : ℕ}
    (beyond : string.allocatedSize < requested) (small : requested < 2 ^ 63)
    (success : string.reserve memory requested = .ok (0, after)) :
    Grows requested after.allocatedSize := by
  unfold StringT.reserve at success
  rw [if_pos beyond] at success
  dsimp only at success
  split at success
  case isTrue =>
    rcases Outcome.bind_eq_ok.mp success with ⟨copied, _, later⟩
    rcases Outcome.bind_eq_ok.mp later with ⟨stored, written, result⟩
    cases result
    rw [StringT.allocatedSize, Buffer.length_of_store written, List.length_replicate]
    exact grows_nextupow2 (by omega) small
  case isFalse => cases success

/-- `string_alloc` with some length. -/
theorem StringT.alloc_grows {made : StringT} {requested : ℕ} {initialValue : Option Bytes}
    (positive : 0 < requested) (small : requested < 2 ^ 63)
    (success : StringT.alloc memory requested initialValue = .ok (some made)) :
    Grows requested made.allocatedSize := by
  rw [(StringT.alloc_eq_ok success).2.2]
  exact grows_nextupow2 positive small

/-- `_array_grow_back_unlocked` where it succeeds. -/
theorem ArrayT.growBack_grows {array after : ArrayT} {n : ℕ}
    (positive : 0 < array.allocatedCount + n) (small : array.allocatedCount + n < 2 ^ 63)
    (success : array.growBack memory n = .ok (0, after)) :
    Grows (array.allocatedCount + n) after.allocatedCount := by
  simp only [ArrayT.growBack, sizeAdd_eq (show array.allocatedCount + n < 2 ^ 64 by omega)]
    at success
  split at success
  case isTrue =>
    split at success
    case isTrue =>
      cases success
      exact grows_nextupow2 positive small
    case isFalse => cases success
  case isFalse => cases success

/-- `_array_grow_front_unlocked` where it succeeds. -/
theorem ArrayT.growFront_grows {array after : ArrayT} {n : ℕ} (positive : 0 < n)
    (small : n < 2 ^ 63) (success : array.growFront memory n = .ok (0, after)) :
    ∃ added, after.allocatedCount = array.allocatedCount + added ∧ Grows n added := by
  refine ⟨nextupow2 n, ?_, grows_nextupow2 positive small⟩
  simp only [ArrayT.growFront] at success
  split at success
  case isTrue =>
    split at success
    case isTrue room =>
      cases success
      have wrapped : sizeAdd array.allocatedCount (nextupow2 n) ≤
          array.allocatedCount + nextupow2 n := Nat.mod_le _ _
      dsimp only
      omega
    case isFalse => cases success
  case isFalse => cases success

/-- `getdelim_ext` where it makes room in a buffer with some size. -/
theorem LineBuffer.makeRoom_grows {line next : LineBuffer} {fresh : ℕ → Byte}
    (positive : 0 < line.buflen) (small : line.buflen < 2 ^ 63)
    (made : line.makeRoom memory fresh = some next) :
    next = line ∨ Grows line.buflen next.buflen := by
  unfold LineBuffer.makeRoom at made
  split at made
  case isTrue =>
    dsimp only at made
    split at made
    case isTrue =>
      cases made
      exact Or.inr (grows_nextupow2 positive small)
    case isFalse => cases made
  case isFalse =>
    cases made
    exact Or.inl rfl

end Sites

section Rounds

variable {start requested rounds : ℕ}

theorem two_pow_le_nextupow2 {k : ℕ} (least : 2 ^ k ≤ x) (small : x < 2 ^ 63) :
    2 ^ (k + 1) ≤ nextupow2 x := by
  have nonzero : x ≠ 0 := Nat.ne_of_gt (Nat.lt_of_lt_of_le (Nat.two_pow_pos k) least)
  rw [nextupow2_eq nonzero small]
  apply Nat.pow_le_pow_right (by decide)
  exact Nat.succ_le_succ ((Nat.le_log2 nonzero).mpr least)

/-- As long as a buffer is too small, each round doubles what its size is known to be. -/
theorem two_pow_le_iterate (large : requested ≤ 2 ^ 63)
    (early : ∀ earlier ≤ rounds, nextupow2^[earlier] start < requested) :
    2 ^ rounds ≤ nextupow2^[rounds + 1] start := by
  induction rounds with
  | zero =>
      have less := early 0 (Nat.le_refl 0)
      have larger := lt_nextupow2 (Nat.lt_of_lt_of_le less large)
      exact Nat.succ_le_of_lt (Nat.lt_of_le_of_lt (Nat.zero_le start) larger)
  | succ rounds ih =>
      have least := ih fun earlier below => early earlier (Nat.le_succ_of_le below)
      have less := early (rounds + 1) (Nat.le_refl _)
      rw [Function.iterate_succ_apply']
      exact two_pow_le_nextupow2 least (Nat.lt_of_lt_of_le less large)

/-- A buffer that grows to `nextupow2` of its size reaches a size in at most 64 rounds. -/
theorem exists_rounds (start : ℕ) (large : requested ≤ 2 ^ 63) :
    ∃ rounds ≤ 64, requested ≤ nextupow2^[rounds] start ∧
      ∀ earlier < rounds, nextupow2^[earlier] start < requested := by
  have reached : ∃ rounds ≤ 64, requested ≤ nextupow2^[rounds] start := by
    by_contra never
    have early : ∀ earlier ≤ 64, nextupow2^[earlier] start < requested := by
      intro earlier below
      by_contra enough
      exact never ⟨earlier, below, Nat.le_of_not_lt enough⟩
    have final := two_pow_le_iterate large fun earlier (below : earlier ≤ 63) =>
      early earlier (Nat.le_succ_of_le below)
    have last : nextupow2^[63 + 1] start < requested := early 64 (Nat.le_refl 64)
    omega
  rcases reached with ⟨bound, few, enough⟩
  have some : ∃ rounds, requested ≤ nextupow2^[rounds] start := ⟨bound, enough⟩
  refine ⟨Nat.find some, Nat.le_trans (Nat.find_min' some enough) few, Nat.find_spec some, ?_⟩
  intro earlier below
  exact Nat.lt_of_not_le (Nat.find_min some below)

end Rounds

/-- `nextupow2` rounds strictly up to a power of two, which is at most twice as much. So the new
size is more than what was requested and at most twice as much wherever a buffer grows, and a buffer
that grows again and again reaches any size below half the range of a word. -/
theorem nextupow2_growth :
    nextupow2 0 = 1 ∧
    (∀ x, 0 < x → x < 2 ^ 63 → ∃ k, nextupow2 x = 2 ^ k ∧ x < 2 ^ k ∧ 2 ^ k ≤ 2 * x) ∧
    (∀ {α σ : Type} (functions : ItemFunctions α σ) (memory : Memory) (stack after : Stack α)
      (requested : ℕ), stack.count ≤ stack.items.length → stack.items.length < requested →
        requested < 2 ^ 63 → stack.reserve functions memory requested = (0, after) →
          Grows requested after.items.length) ∧
    (∀ (memory : Memory) (string after : StringT) (requested : ℕ),
      string.allocatedSize < requested → requested < 2 ^ 63 →
        string.reserve memory requested = .ok (0, after) → Grows requested after.allocatedSize) ∧
    (∀ (memory : Memory) (array after : ArrayT) (n : ℕ), 0 < array.allocatedCount + n →
      array.allocatedCount + n < 2 ^ 63 → array.growBack memory n = .ok (0, after) →
        Grows (array.allocatedCount + n) after.allocatedCount) ∧
    (∀ (memory : Memory) (array after : ArrayT) (n : ℕ), 0 < n → n < 2 ^ 63 →
      array.growFront memory n = .ok (0, after) →
        ∃ added, after.allocatedCount = array.allocatedCount + added ∧ Grows n added) ∧
    (∀ (memory : Memory) (initialValue : Option Bytes) (made : StringT) (requested : ℕ),
      0 < requested → requested < 2 ^ 63 →
        StringT.alloc memory requested initialValue = .ok (some made) →
          Grows requested made.allocatedSize) ∧
    (∀ (memory : Memory) (fresh : ℕ → Byte) (line next : LineBuffer), 0 < line.buflen →
      line.buflen < 2 ^ 63 → line.makeRoom memory fresh = some next →
        next = line ∨ Grows line.buflen next.buflen) ∧
    ∀ start requested, requested < 2 ^ 63 → ∃ rounds ≤ 64,
      requested ≤ nextupow2^[rounds] start ∧ ∀ earlier < rounds,
        nextupow2^[earlier] start < requested ∧
          nextupow2^[earlier] start < nextupow2^[earlier + 1] start := by
  refine ⟨rfl, fun x => nextupow2_is_power, ?_, ?_, ?_, ?_, ?_, ?_, ?_⟩
  · intro α σ functions memory stack after requested within beyond small success
    exact Stack.reserve_grows within beyond small success
  · intro memory string after requested beyond small success
    exact StringT.allocatedSize_grows beyond small success
  · intro memory array after n positive small success
    exact ArrayT.growBack_grows positive small success
  · intro memory array after n positive small success
    exact ArrayT.growFront_grows positive small success
  · intro memory initialValue made requested positive small success
    exact StringT.alloc_grows positive small success
  · intro memory fresh line next positive small made
    exact LineBuffer.makeRoom_grows positive small made
  · intro start requested small
    rcases exists_rounds start (Nat.le_of_lt small) with ⟨rounds, few, enough, early⟩
    refine ⟨rounds, few, enough, ?_⟩
    intro earlier below
    refine ⟨early earlier below, ?_⟩
    rw [Function.iterate_succ_apply']
    exact lt_nextupow2 (Nat.lt_trans (early earlier below) small)

/-- The array of three items has room for more than five, and at most ten, after it grows. -/
theorem nextupow2_growth_array : ∃ after : ArrayT, ArrayT.growBack .ample ⟨3, 0, 3, fun _ => 1⟩ 2 =
    .ok (0, after) ∧ Grows 5 after.allocatedCount := by
  have back := nextupow2_growth.2.2.2.2.1
  have grown : ArrayT.growBack .ample ⟨3, 0, 3, fun _ => 1⟩ 2 =
      .ok (0, ⟨8, 0, 3, fun index => if index < 3 then 1 else 0⟩) := rfl
  exact ⟨_, grown, back _ _ _ _ (by decide) (by decide) grown⟩

end Dang
