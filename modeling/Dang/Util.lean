import Mathlib.Data.Nat.Bitwise
import Mathlib.Tactic.Common

/-!
# Rounding up to a power of two

`nextupow2` of `util.c` copies the highest bit of a word to all lower positions and
adds one, which gives the next power of two above it.
-/

namespace Dang

/-- The loop `for (i = 1; i < 64; i = i << 1) x = x | (x >> i)`, with its rounds. -/
def smear : ℕ → ℕ → ℕ → ℕ
  | 0, _, x => x
  | rounds + 1, i, x => smear rounds (i <<< 1) (x ||| x >>> i)

/-- `nextupow2`: the loop makes six rounds. -/
def nextupow2 (x : ℕ) : ℕ :=
  if x = 0 then 1 else (smear 6 1 x + 1) % 2 ^ 64

/-- Each bit of `y` tells whether one of the `width` bits of `x` from there up is set. -/
def Smeared (x width y : ℕ) : Prop :=
  ∀ position, y.testBit position = true ↔
    ∃ offset < width, x.testBit (position + offset) = true

theorem Smeared.step {x width y : ℕ} (smeared : Smeared x width y) :
    Smeared x (2 * width) (y ||| y >>> width) := by
  intro position
  rw [Nat.testBit_or, Nat.testBit_shiftRight, Bool.or_eq_true, smeared position,
    smeared (width + position)]
  constructor
  · rintro (⟨offset, small, set⟩ | ⟨offset, small, set⟩)
    · exact ⟨offset, by omega, set⟩
    · refine ⟨width + offset, by omega, ?_⟩
      rw [show position + (width + offset) = width + position + offset by omega]
      exact set
  · rintro ⟨offset, small, set⟩
    by_cases near : offset < width
    · exact Or.inl ⟨offset, near, set⟩
    · refine Or.inr ⟨offset - width, by omega, ?_⟩
      rw [show width + position + (offset - width) = position + offset by omega]
      exact set

theorem Smeared.smear {x width y : ℕ} (smeared : Smeared x width y) (rounds : ℕ) :
    Smeared x (2 ^ rounds * width) (smear rounds width y) := by
  induction rounds generalizing width y with
  | zero => simpa [Dang.smear] using smeared
  | succ rounds ih =>
      have next := ih smeared.step
      rw [show 2 ^ rounds * (2 * width) = 2 ^ (rounds + 1) * width by
        rw [Nat.pow_succ, Nat.mul_assoc]] at next
      simpa [Dang.smear, Nat.shiftLeft_eq, Nat.mul_comm width 2] using next

/-- The loop sets all bits up to the highest one. -/
theorem smear_eq {x : ℕ} (nonzero : x ≠ 0) (word : x < 2 ^ 64) :
    smear 6 1 x = 2 ^ (x.log2 + 1) - 1 := by
  have start : Smeared x 1 x := by
    intro position
    constructor
    · intro set
      exact ⟨0, by omega, set⟩
    · rintro ⟨offset, small, set⟩
      rw [show offset = 0 by omega] at set
      exact set
  have smeared := start.smear 6
  have top : x.log2 < 64 := (Nat.log2_lt nonzero).mpr word
  apply Nat.eq_of_testBit_eq
  intro position
  rw [Nat.testBit_two_pow_sub_one, Bool.eq_iff_iff, smeared position, decide_eq_true_eq]
  constructor
  · rintro ⟨offset, _, set⟩
    by_contra high
    have zero : x.testBit (position + offset) = false := by
      apply Nat.testBit_lt_two_pow
      exact Nat.lt_of_lt_of_le Nat.lt_log2_self (Nat.pow_le_pow_right (by omega) (by omega))
    simp [zero] at set
  · intro low
    refine ⟨x.log2 - position, by omega, ?_⟩
    rw [show position + (x.log2 - position) = x.log2 by omega]
    exact Nat.testBit_log2 nonzero

/-- Below half the range of a word, `nextupow2` is the next power of two. -/
theorem nextupow2_eq {x : ℕ} (nonzero : x ≠ 0) (small : x < 2 ^ 63) :
    nextupow2 x = 2 ^ (x.log2 + 1) := by
  have top : x.log2 < 63 := (Nat.log2_lt nonzero).mpr small
  have power : 2 ^ (x.log2 + 1) ≤ 2 ^ 63 := Nat.pow_le_pow_right (by omega) (by omega)
  have positive : 0 < 2 ^ (x.log2 + 1) := Nat.two_pow_pos _
  rw [nextupow2, if_neg nonzero, smear_eq nonzero (by omega), Nat.sub_add_cancel positive,
    Nat.mod_eq_of_lt (by omega)]

theorem lt_nextupow2 {x : ℕ} (small : x < 2 ^ 63) : x < nextupow2 x := by
  by_cases zero : x = 0
  · simp [zero, nextupow2]
  · rw [nextupow2_eq zero small]
    exact Nat.lt_log2_self

theorem nextupow2_le {x : ℕ} (nonzero : x ≠ 0) (small : x < 2 ^ 63) : nextupow2 x ≤ 2 * x := by
  rw [nextupow2_eq nonzero small, Nat.pow_succ, Nat.mul_comm]
  exact Nat.mul_le_mul_left 2 (Nat.log2_self_le nonzero)

/-- From half the range of a word on, the addition of one wraps around. -/
theorem nextupow2_of_large {x : ℕ} (large : 2 ^ 63 ≤ x) (word : x < 2 ^ 64) : nextupow2 x = 0 := by
  have nonzero : x ≠ 0 := by omega
  have top : x.log2 = 63 := by
    apply Nat.le_antisymm
    · exact Nat.le_of_lt_succ ((Nat.log2_lt nonzero).mpr word)
    · exact (Nat.le_log2 nonzero).mpr large
  rw [nextupow2, if_neg nonzero, smear_eq nonzero word, top]
  omega

theorem nextupow2_lt (x : ℕ) : nextupow2 x < 2 ^ 64 := by
  unfold nextupow2
  split
  case isTrue => decide
  case isFalse => exact Nat.mod_lt _ (Nat.two_pow_pos 64)

theorem nextupow2_le_half {x : ℕ} (word : x < 2 ^ 64) : nextupow2 x ≤ 2 ^ 63 := by
  rcases Nat.lt_or_ge x (2 ^ 63) with small | large
  · by_cases zero : x = 0
    · simp [zero, nextupow2]
    · have top : x.log2 < 63 := (Nat.log2_lt zero).mpr small
      rw [nextupow2_eq zero small]
      exact Nat.pow_le_pow_right (by omega) (by omega)
  · rw [nextupow2_of_large large word]
    exact Nat.zero_le _

end Dang
