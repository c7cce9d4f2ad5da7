import Dang.Foundations.Buffer
import Mathlib.Data.Int.Notation
import Mathlib.Data.List.Lex
import Mathlib.Order.Fin.Basic

/-!
# Byte strings

The contents of a `string_t`, and the order in which `string_cmp` puts them.
-/

namespace Dang

/-- A byte. -/
abbrev Byte := Fin 256

/-- The bytes `m_bytes[0]` to `m_bytes[m_length - 1]`. -/
abbrev Bytes := List Byte

/-- The bytes of a text in ASCII. -/
def ascii (text : String) : Bytes := text.toList.map fun char => Fin.ofNat 256 char.toNat

/-- `memcmp` of two blocks of one size. Of its result only the sign is used. -/
def memcmp : Bytes → Bytes → ℤ
  | first :: firsts, second :: seconds =>
      if first = second then memcmp firsts seconds
      else if first < second then -1
      else 1
  | _, _ => 0

/-- `string_cmp` -/
def stringCmp (a b : Bytes) : ℤ :=
  let cmp := memcmp (a.take (min a.length b.length)) (b.take (min a.length b.length))
  if cmp = 0 then
    if b.length < a.length then 1
    else if a.length < b.length then -1
    else cmp
  else cmp

/-- `string_cmp` compares byte by byte, and a prefix comes first. -/
theorem stringCmp_cons (first second : Byte) (firsts seconds : Bytes) :
    stringCmp (first :: firsts) (second :: seconds) =
      if first = second then stringCmp firsts seconds
      else if first < second then -1
      else 1 := by
  have smaller : min (firsts.length + 1) (seconds.length + 1) =
      min firsts.length seconds.length + 1 := by omega
  by_cases same : first = second
  · simp only [stringCmp, List.length_cons, smaller, List.take_succ_cons, memcmp, same, if_true,
      Nat.add_lt_add_iff_right]
  · by_cases less : first < second
    · simp [stringCmp, memcmp, same, less]
    · simp [stringCmp, memcmp, same, less]

/-- `string_cmp` decides the lexicographic order, which is total. -/
theorem stringCmp_eq (a b : Bytes) :
    stringCmp a b = if a < b then -1 else if a = b then 0 else 1 := by
  induction a generalizing b with
  | nil =>
      cases b with
      | nil => simp [stringCmp, memcmp]
      | cons second seconds => simp [stringCmp, memcmp]
  | cons first firsts ih =>
      cases b with
      | nil => simp [stringCmp, memcmp]
      | cons second seconds =>
          rw [stringCmp_cons, ih]
          by_cases same : first = second
          · subst same
            simp
          · by_cases less : first < second
            · simp [List.cons_lt_cons_iff, same, less]
            · simp [List.cons_lt_cons_iff, same, less]

theorem stringCmp_neg {a b : Bytes} : stringCmp a b < 0 ↔ a < b := by
  rw [stringCmp_eq]
  by_cases less : a < b
  · simp [less]
  · by_cases same : a = b
    · simp [same]
    · simp [less, same]

theorem stringCmp_zero {a b : Bytes} : stringCmp a b = 0 ↔ a = b := by
  rw [stringCmp_eq]
  by_cases less : a < b
  · simp [less, less.ne]
  · by_cases same : a = b
    · simp [same]
    · simp [less, same]

end Dang
