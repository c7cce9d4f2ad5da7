import Dang.Assembler.Numbers
import Dang.Machine.DataStack
import Dang.StringBuffer

/-!
# Integers as strings

`snprintf` prints an integer in decimal, and `strtol` with base 0 reads a number in the base that
its prefix tells. What is printed has no prefix but a sign, so it is read in decimal, and zero is
the same in every base.
-/

namespace Dang

/-- The base that `strtol` takes when it is given 0, and what it reads digits from. -/
def strtolBase (text : Bytes) : ℕ × Bytes :=
  if text.head? = some 48 then
    if (text[1]? = some 120 ∨ text[1]? = some 88) ∧ ∃ digit ∈ text[2]?, isxdigit digit then
      (16, text.drop 2)
    else (8, text)
  else (10, text)

/-- The number that `strtol` reads behind the sign. -/
def strtolUnsigned (text : Bytes) : ℕ :=
  Number.ofSpelled (strtolDigits (strtolBase text).1 (strtolBase text).2)

/-- The number that `strtol` reads, whether or not it is in the range of a `long`. -/
def strtolNumber (nptr : Bytes) : ℤ :=
  let text := nptr.dropWhile fun byte => decide (isspace byte)
  if text.head? = some 45 then -strtolUnsigned text.tail
  else if text.head? = some 43 then strtolUnsigned text.tail
  else strtolUnsigned text

/-- `strtol(nptr, NULL, 0)`. A number out of range is `LONG_MIN` or `LONG_MAX`. It reads nothing
behind a zero byte, which is neither white space nor a sign nor a digit. -/
def strtol (nptr : Bytes) : BitVec 64 :=
  BitVec.ofInt 64 (max (-2 ^ 63) (min (strtolNumber nptr) (2 ^ 63 - 1)))

/-- The conversions with `strtol`. -/
def standardConversions (truncate : BitVec 64 → BitVec 64) : Conversions := ⟨truncate, strtol⟩

/-- What `anon_scalar_get_string_value` prints for an integer. -/
def printed (i : BitVec 64) : Bytes := ascii (toString i.toInt)

variable {n : ℕ} {text : Bytes}

/-- The digits of a number in decimal are written by its last one, behind those of the rest. -/
theorem writtenDigits_ten (n : ℕ) :
    writtenDigits 10 n = if n < 10 then [n] else writtenDigits 10 (n / 10) ++ [n % 10] := by
  unfold writtenDigits
  by_cases zero : n = 0
  · subst zero
    rfl
  · rw [if_neg zero]
    by_cases small : n < 10
    · rw [if_pos small, Nat.digits_of_lt 10 n zero small]
      rfl
    · rw [if_neg small, if_neg (by omega), Nat.digits_def' (by decide) (Nat.pos_of_ne_zero zero),
        List.reverse_cons]

/-- A number is printed in decimal. -/
theorem isSpelling_repr (n : ℕ) : IsSpelling 10 n (ascii n.repr) := by
  unfold IsSpelling ascii
  rw [Nat.toList_repr]
  induction n using Nat.strongRecOn with
  | ind n ih =>
      have digit : ∀ value < 10, SpellsDigit value (Fin.ofNat 256 value.digitChar.toNat) := by
        intro value small
        refine Or.inl ⟨small, ?_⟩
        rw [Nat.toNat_digitChar_of_lt_ten small, Fin.val_ofNat]
        exact Nat.mod_eq_of_lt (by omega)
      rw [writtenDigits_ten, Nat.toDigits_eq_if (by decide)]
      split
      case isTrue small => exact List.Forall₂.cons (digit n small) List.Forall₂.nil
      case isFalse large =>
        rw [List.map_append]
        refine List.rel_append (ih (n / 10) (by omega)) ?_
        exact List.Forall₂.cons (digit (n % 10) (Nat.mod_lt n (by decide))) List.Forall₂.nil

/-- What is printed for a number begins with a digit, which is zero for zero only. -/
theorem exists_head (spelled : IsSpelling 10 n text) :
    ∃ first rest, text = first :: rest ∧ 48 ≤ first.val ∧ first.val ≤ 57 ∧
      (first = 48 → n = 0 ∧ rest = []) := by
  by_cases zero : n = 0
  · subst zero
    cases spelled with
    | cons first rest =>
        cases rest
        rcases first with ⟨_, same⟩ | ⟨large, _⟩
        · exact ⟨_, [], rfl, by omega, by omega, fun _ => ⟨rfl, rfl⟩⟩
        · omega
  · rcases writtenDigits_eq_cons 10 zero with ⟨value, values, written, nonzero⟩
    have small := writtenDigits_lt (n := n) (show 1 < 10 by decide) value
      (written ▸ List.mem_cons_self)
    unfold IsSpelling at spelled
    rw [written] at spelled
    cases spelled with
    | cons first rest =>
        rcases first with ⟨_, same⟩ | ⟨large, _⟩
        · refine ⟨_, _, rfl, by omega, by omega, ?_⟩
          rintro rfl
          change 48 = 48 + value at same
          omega
        · omega

/-- The digits that are printed for a number are read as the number. -/
theorem strtolUnsigned_of_spelled (spelled : IsSpelling 10 n text) : strtolUnsigned text = n := by
  rcases exists_head spelled with ⟨first, rest, rfl, _, _, zero⟩
  unfold strtolUnsigned strtolBase
  by_cases leading : first = 48
  · rcases zero leading with ⟨rfl, rfl⟩
    subst leading
    rfl
  · rw [List.head?_cons, if_neg (fun same => leading (Option.some.inj same))]
    have several : 1 < 10 := by decide
    have few : 10 ≤ 36 := by decide
    exact ofSpelled_strtolDigits spelled several few

/-- A number that is printed, with a sign or without, is read as it is. -/
theorem strtolNumber_of_spelled (spelled : IsSpelling 10 n text) :
    strtolNumber text = n ∧ strtolNumber (45 :: text) = -n := by
  have read := strtolUnsigned_of_spelled spelled
  rcases exists_head spelled with ⟨first, rest, rfl, least, _, _⟩
  constructor
  · have start : ((first :: rest).dropWhile fun byte => decide (isspace byte)) = first :: rest := by
      refine List.dropWhile_cons_of_neg ?_
      rw [decide_eq_true_eq, isspace, Fin.le_def, Fin.le_def, Fin.ext_iff]
      change ¬(first.val = 32 ∨ 9 ≤ first.val ∧ first.val ≤ 13)
      omega
    have unsigned : ∀ sign : Byte, sign.val < 48 → (first :: rest).head? ≠ some sign := by
      intro sign small same
      rw [List.head?_cons, Option.some.injEq] at same
      rw [same] at least
      omega
    have minus := unsigned 45 (by decide)
    have plus := unsigned 43 (by decide)
    simp only [strtolNumber, start, minus, plus, if_false, read]
  · have start : ((45 :: first :: rest : Bytes).dropWhile fun byte => decide (isspace byte)) =
        45 :: first :: rest := List.dropWhile_cons_of_neg (by decide)
    simp only [strtolNumber, start, List.head?_cons, List.tail_cons, if_true, read]

theorem printed_eq (i : BitVec 64) :
    printed i = if 0 ≤ i.toInt then ascii i.toInt.toNat.repr
      else 45 :: ascii (-i.toInt).toNat.repr := by
  rw [printed, Int.toString_eq_repr, Int.repr_eq_if]
  split
  case isTrue => rfl
  case isFalse =>
    unfold ascii
    rw [String.toList_append, List.map_append]
    rfl

/-- Every integer is printed as a number that is read as it. -/
theorem strtol_printed (i : BitVec 64) : strtol (printed i) = i := by
  have least := i.le_toInt
  have greatest := i.toInt_lt
  have number : strtolNumber (printed i) = i.toInt := by
    rw [printed_eq]
    split
    case isTrue positive =>
      rw [(strtolNumber_of_spelled (isSpelling_repr _)).1]
      omega
    case isFalse =>
      rw [(strtolNumber_of_spelled (isSpelling_repr _)).2]
      omega
  have within : max (-2 ^ 63) (min i.toInt (2 ^ 63 - 1)) = i.toInt := by omega
  rw [strtol, number, within, BitVec.ofInt_toInt]

theorem printed_injective : Function.Injective printed :=
  Function.LeftInverse.injective strtol_printed

end Dang
