import Dang.Assembler.Agreement
import Dang.Assembler.Lexer
import Mathlib.Data.Nat.Digits.Lemmas

/-!
# Integers in the bases the lexer reads

Three readers turn digits into the value of an `INTEGER` token. The decimal one counts in an
`intptr_t`; the other two return what `strtol` says as an `int`.
-/

namespace Dang

/-- The byte is the digit with this value, a letter in either case. -/
def SpellsDigit (value : ℕ) (byte : Byte) : Prop :=
  (value < 10 ∧ byte.val = 48 + value) ∨
    (10 ≤ value ∧ (byte.val = 87 + value ∨ byte.val = 55 + value))

instance (value : ℕ) (byte : Byte) : Decidable (SpellsDigit value byte) :=
  inferInstanceAs (Decidable (_ ∨ _))

section Digits

variable {base value n limit : ℕ} {byte : Byte} {bytes rest : Bytes} {values : List ℕ}
  {isDigit : Byte → Prop} [DecidablePred isDigit]

theorem isdigit_iff : isdigit byte ↔ 48 ≤ byte.val ∧ byte.val ≤ 57 := Iff.rfl

theorem isxdigit_iff : isxdigit byte ↔ (48 ≤ byte.val ∧ byte.val ≤ 57) ∨
    (65 ≤ byte.val ∧ byte.val ≤ 70) ∨ (97 ≤ byte.val ∧ byte.val ≤ 102) := Iff.rfl

theorem isalnum_iff : isalnum byte ↔ ((65 ≤ byte.val ∧ byte.val ≤ 90) ∨
    (97 ≤ byte.val ∧ byte.val ≤ 122)) ∨ (48 ≤ byte.val ∧ byte.val ≤ 57) := Iff.rfl

theorem SpellsDigit.isdigit (spells : SpellsDigit value byte) (small : value < 10) :
    Dang.isdigit byte := by
  rw [isdigit_iff]
  unfold SpellsDigit at spells
  omega

theorem SpellsDigit.isxdigit (spells : SpellsDigit value byte) (small : value < 16) :
    Dang.isxdigit byte := by
  rw [isxdigit_iff]
  unfold SpellsDigit at spells
  omega

theorem SpellsDigit.digitOf (spells : SpellsDigit value byte) (small : value < base)
    (few : base ≤ 36) : Dang.digitOf base byte = some ⟨value, small⟩ := by
  have worth : digitValue byte = some value := by
    unfold digitValue
    rcases spells with ⟨_, digit⟩ | ⟨_, lower | upper⟩
    · rw [if_pos (isdigit_iff.mpr (by omega)), digit, Nat.add_sub_cancel_left]
    · have letter : (97 : Byte) ≤ byte ∧ byte ≤ 122 :=
        ⟨Fin.le_def.mpr (by change 97 ≤ byte.val; omega),
          Fin.le_def.mpr (by change byte.val ≤ 122; omega)⟩
      rw [if_neg (by rw [isdigit_iff]; omega), if_pos letter, lower, Nat.add_sub_cancel_left]
    · have letter : (65 : Byte) ≤ byte ∧ byte ≤ 90 :=
        ⟨Fin.le_def.mpr (by change 65 ≤ byte.val; omega),
          Fin.le_def.mpr (by change byte.val ≤ 90; omega)⟩
      have notLower : ¬((97 : Byte) ≤ byte ∧ byte ≤ 122) := by
        intro both
        have lowest := Fin.le_def.mp both.1
        change 97 ≤ byte.val at lowest
        omega
      rw [if_neg (by rw [isdigit_iff]; omega), if_neg notLower, if_pos letter, upper,
        Nat.add_sub_cancel_left]
  unfold Dang.digitOf
  rw [worth]
  exact dif_pos small

/-- What holds of each digit that is small enough holds of the bytes. -/
theorem forall_of_spells {kind : Byte → Prop} (spelled : List.Forall₂ SpellsDigit values bytes)
    (small : ∀ value ∈ values, value < base)
    (digit : ∀ {value byte}, SpellsDigit value byte → value < base → kind byte) :
    ∀ byte ∈ bytes, kind byte := by
  induction spelled with
  | nil => exact fun byte mem => absurd mem List.not_mem_nil
  | cons first _ ih =>
      intro byte mem
      rcases List.mem_cons.mp mem with rfl | later
      · exact digit first (small _ List.mem_cons_self)
      · exact ih (fun value mem => small value (List.mem_cons_of_mem _ mem)) byte later

/-- `strtol` reads all of the digits. -/
theorem strtolDigits_of_spells (spelled : List.Forall₂ SpellsDigit values bytes)
    (small : ∀ value ∈ values, value < base) (few : base ≤ 36) :
    (strtolDigits base bytes).map Fin.val = values := by
  induction spelled with
  | nil => rfl
  | cons first _ ih =>
      have digit := first.digitOf (small _ List.mem_cons_self) few
      simp only [strtolDigits, digit, List.map_cons]
      rw [ih fun value mem => small value (List.mem_cons_of_mem _ mem)]

/-- A run of digits ends where something else comes. -/
theorem takeWhile_append_of_ends (digits : ∀ byte ∈ bytes, isDigit byte)
    (ends : ∀ byte ∈ rest.head?, ¬ isDigit byte) :
    ((bytes ++ rest).takeWhile fun byte => decide (isDigit byte)) = bytes ∧
      ((bytes ++ rest).dropWhile fun byte => decide (isDigit byte)) = rest := by
  have all : ∀ byte ∈ bytes, decide (isDigit byte) = true :=
    fun byte mem => decide_eq_true (digits byte mem)
  rw [List.takeWhile_append_of_pos all, List.dropWhile_append_of_pos all]
  cases rest with
  | nil => exact ⟨List.append_nil bytes, rfl⟩
  | cons byte rest =>
      have other := ends byte rfl
      simp [other]

/-- The digits are read to the last one, if what follows is none or there may be no more. -/
theorem readDigits_append (digits : ∀ byte ∈ bytes, isDigit byte) (short : bytes.length ≤ limit)
    (ends : bytes.length = limit ∨ ∀ byte ∈ rest.head?, ¬ isDigit byte) :
    readDigits limit isDigit (bytes ++ rest) = (bytes, rest) := by
  have taken : ((bytes ++ rest).takeWhile fun byte => decide (isDigit byte)).take limit = bytes := by
    rcases ends with full | ends
    · rw [List.takeWhile_append_of_pos fun byte mem => decide_eq_true (digits byte mem), ← full,
        List.take_left]
    · rw [(takeWhile_append_of_ends digits ends).1, List.take_of_length_le short]
  simp only [readDigits, taken, List.drop_left]

/-- The digits of a number, the most significant first. -/
def writtenDigits (base n : ℕ) : List ℕ := if n = 0 then [0] else (Nat.digits base n).reverse

/-- The bytes spell the number in the base. -/
def IsSpelling (base n : ℕ) (bytes : Bytes) : Prop :=
  List.Forall₂ SpellsDigit (writtenDigits base n) bytes

theorem writtenDigits_lt (several : 1 < base) : ∀ value ∈ writtenDigits base n, value < base := by
  intro value mem
  unfold writtenDigits at mem
  split at mem
  case isTrue =>
    rw [List.mem_singleton] at mem
    omega
  case isFalse => exact Nat.digits_lt_base several (List.mem_reverse.mp mem)

/-- A number other than zero begins with a digit other than zero. -/
theorem writtenDigits_eq_cons (base : ℕ) (nonzero : n ≠ 0) :
    ∃ value values, writtenDigits base n = value :: values ∧ value ≠ 0 := by
  have some := Nat.digits_ne_nil_iff_ne_zero (b := base).mpr nonzero
  have last := List.dropLast_append_getLast some
  refine ⟨(Nat.digits base n).getLast some, (Nat.digits base n).dropLast.reverse, ?_,
    Nat.getLast_digit_ne_zero base nonzero⟩
  unfold writtenDigits
  rw [if_neg nonzero]
  nth_rewrite 1 [← last]
  rw [List.reverse_append]
  rfl

theorem ofDigits_writtenDigits : Nat.ofDigits base (writtenDigits base n).reverse = n := by
  unfold writtenDigits
  split
  case isTrue zero => simp [zero]
  case isFalse => rw [List.reverse_reverse, Nat.ofDigits_digits]

theorem length_writtenDigits_le (several : 1 < base) (positive : 0 < limit)
    (small : n < base ^ limit) : (writtenDigits base n).length ≤ limit := by
  unfold writtenDigits
  split
  case isTrue => exact positive
  case isFalse =>
    rw [List.length_reverse]
    exact (Nat.digits_length_le_iff several n).mpr small

/-- The number that the digits of a spelling are read as. -/
theorem ofSpelled_strtolDigits (spelled : IsSpelling base n bytes) (several : 1 < base)
    (few : base ≤ 36) : Number.ofSpelled (strtolDigits base bytes) = n := by
  unfold Number.ofSpelled
  rw [List.map_reverse, strtolDigits_of_spells spelled (writtenDigits_lt several) few,
    ofDigits_writtenDigits]

theorem length_of_isSpelling (spelled : IsSpelling base n bytes) (several : 1 < base)
    (positive : 0 < limit) (small : n < base ^ limit) : bytes.length ≤ limit := by
  rw [← spelled.length_eq]
  exact length_writtenDigits_le several positive small

/-- Every number has a spelling in each base up to sixteen. -/
theorem exists_isSpelling (base n : ℕ) (several : 1 < base) (few : base ≤ 16) :
    ∃ bytes, IsSpelling base n bytes := by
  unfold IsSpelling
  have small := writtenDigits_lt (n := n) several
  generalize writtenDigits base n = values at small
  induction values with
  | nil => exact ⟨[], List.Forall₂.nil⟩
  | cons value values ih =>
      rcases ih (fun value mem => small value (List.mem_cons_of_mem _ mem)) with ⟨bytes, spelled⟩
      have digit := small value List.mem_cons_self
      rcases Nat.lt_or_ge value 10 with figure | letter
      · refine ⟨⟨48 + value, by omega⟩ :: bytes, List.Forall₂.cons ?_ spelled⟩
        exact Or.inl ⟨figure, rfl⟩
      · refine ⟨⟨87 + value, by omega⟩ :: bytes, List.Forall₂.cons ?_ spelled⟩
        exact Or.inr ⟨letter, Or.inl rfl⟩

end Digits

/-- Neither a digit nor a letter nor a point follows a number. -/
def EndsNumber (rest : Bytes) : Prop := ∀ byte ∈ rest.head?, ¬ isalnum byte ∧ byte ≠ 46

/-- `ass_lex` reads an `INTEGER` token with this value. -/
def LexesAs (unsettled : Unsettled) (input rest : Bytes) (n : ℤ) : Prop :=
  ∃ ival, assLex unsettled input = .ok (some (.integer ival), rest) ∧ ival.toInt = n

/-- The decimal, hexadecimal and octal spellings of the number all mean the number. -/
def BasesAgree (unsettled : Unsettled) (n : ℕ) : Prop :=
  ∀ bytes rest, EndsNumber rest →
    (IsSpelling 10 n bytes → LexesAs unsettled (bytes ++ rest) rest n) ∧
    (IsSpelling 16 n bytes → LexesAs unsettled (48 :: 120 :: (bytes ++ rest)) rest n) ∧
    (IsSpelling 8 n bytes → LexesAs unsettled (48 :: (bytes ++ rest)) rest n)

section Tokens

variable {unsettled : Unsettled} {n : ℕ} {bytes rest : Bytes} {values : List ℕ}

theorem EndsNumber.not_isxdigit (ends : EndsNumber rest) :
    ∀ byte ∈ rest.head?, ¬ isxdigit byte := by
  intro byte mem
  have other := (ends byte mem).1
  rw [isalnum_iff] at other
  rw [isxdigit_iff]
  omega

theorem EndsNumber.not_isdigit (ends : EndsNumber rest) :
    ∀ byte ∈ rest.head?, ¬ isdigit byte := by
  intro byte mem
  have other := (ends byte mem).1
  rw [isalnum_iff] at other
  rw [isdigit_iff]
  omega

/-- A zero with no point behind it begins a number in another base. -/
theorem assLex_zero (noPoint : rest.head? ≠ some 46) : assLex unsettled (48 :: rest) =
    .ok (some (lexPrefixed rest).1, (lexPrefixed rest).2) := by
  have started : ((48 : Byte) :: rest).dropWhile (fun byte => decide (byte = 32 ∨ byte = 9)) =
      48 :: rest := List.dropWhile_cons_of_neg (by decide)
  unfold assLex
  rw [started]
  exact if_pos ⟨rfl, noPoint⟩

theorem assLex_hexadecimal (spelled : IsSpelling 16 n bytes) (ends : EndsNumber rest)
    (short : bytes.length ≤ 63) : assLex unsettled (48 :: 120 :: (bytes ++ rest)) =
      .ok (some (.integer ((Number.strtol (strtolDigits 16 bytes)).signExtend 64)), rest) := by
  have digits : ∀ byte ∈ bytes, isxdigit byte :=
    forall_of_spells spelled (writtenDigits_lt (by decide)) SpellsDigit.isxdigit
  have read := readDigits_append digits short (Or.inr ends.not_isxdigit)
  rw [assLex_zero (by simp)]
  simp only [lexPrefixed, readHexValue, read]

/-- What does not begin with an `x` is read in octal. -/
theorem lexPrefixed_of_head (other : bytes.head? ≠ some 120) : lexPrefixed bytes =
    (.integer (readOctalValue bytes).1, (readOctalValue bytes).2) := by
  unfold lexPrefixed
  split
  case h_1 => exact absurd rfl other
  case h_2 => rfl

theorem assLex_octal (spelled : List.Forall₂ SpellsDigit values bytes)
    (small : ∀ value ∈ values, value < 8) (ends : EndsNumber rest) (short : bytes.length ≤ 63) :
    assLex unsettled (48 :: (bytes ++ rest)) =
      .ok (some (.integer ((Number.strtol (strtolDigits 8 bytes)).signExtend 64)), rest) := by
  have digits : ∀ byte ∈ bytes, isdigit byte :=
    forall_of_spells spelled small fun spells small => spells.isdigit (by omega)
  have read := readDigits_append digits short (Or.inr ends.not_isdigit)
  have first : ∀ byte ∈ (bytes ++ rest).head?, byte ≠ 46 ∧ byte ≠ 120 := by
    intro byte mem
    cases bytes with
    | nil =>
        have other := ends byte mem
        refine ⟨other.2, ?_⟩
        rintro rfl
        exact other.1 (by decide)
    | cons digit bytes =>
        rw [List.cons_append, List.head?_cons, Option.mem_some_iff] at mem
        subst mem
        have figure := digits digit List.mem_cons_self
        rw [isdigit_iff] at figure
        constructor
        · rintro rfl
          revert figure
          decide
        · rintro rfl
          revert figure
          decide
  rw [assLex_zero fun same => (first 46 same).1 rfl,
    lexPrefixed_of_head fun same => (first 120 same).2 rfl]
  simp only [readOctalValue, read]

/-- Digits of which the first is not a zero are read in decimal. -/
theorem assLex_digits {digit : Byte} (digits : ∀ byte ∈ digit :: bytes, isdigit byte)
    (nonzero : digit ≠ 48) (ends : EndsNumber rest) :
    assLex unsettled (digit :: bytes ++ rest) =
      .ok (some (.integer (Number.decimal (strtolDigits 10 (digit :: bytes))).ival), rest) := by
  have figure := digits digit List.mem_cons_self
  have notSpace : ¬ decide (digit = 32 ∨ digit = 9) = true := by
    rw [decide_eq_true_eq]
    rintro (rfl | rfl)
    · exact absurd figure (by decide)
    · exact absurd figure (by decide)
  have started : (digit :: (bytes ++ rest)).dropWhile (fun byte => decide (byte = 32 ∨ byte = 9)) =
      digit :: (bytes ++ rest) := List.dropWhile_cons_of_neg notSpace
  have run := takeWhile_append_of_ends digits ends.not_isdigit
  have read : lexDecimal unsettled (digit :: bytes ++ rest) =
      (.integer (Number.decimal (strtolDigits 10 (digit :: bytes))).ival, rest) := by
    simp only [lexDecimal, run]
    split
    case h_1 fraction => exact absurd rfl (ends 46 rfl).2
    case h_2 => rfl
  rw [List.cons_append] at read ⊢
  unfold assLex
  rw [started]
  dsimp only
  rw [if_neg fun zero => nonzero zero.1, if_pos figure, read]

/-- What goes through the `int` of `strtol` is right as far as an `int` goes. -/
theorem lexesAs_strtol {base : ℕ} {input : Bytes}
    (number : Number.ofSpelled (strtolDigits base bytes) = n)
    (lexed : assLex unsettled input =
      .ok (some (.integer ((Number.strtol (strtolDigits base bytes)).signExtend 64)), rest)) :
    LexesAs unsettled input rest n ↔ n < 2 ^ 31 := by
  have read := Number.read_strtol (strtolDigits base bytes) .int
  rw [number] at read
  refine Iff.trans ⟨?_, ?_⟩ read
  · rintro ⟨ival, lexed', value⟩
    rw [lexed] at lexed'
    cases lexed'
    exact value
  · intro value
    exact ⟨_, lexed, value⟩

/-- The decimal reader is right up to `INTPTR_MAX`. -/
theorem lexesAs_decimal (spelled : IsSpelling 10 n bytes) (ends : EndsNumber rest)
    (fits : n < 2 ^ 63) : LexesAs unsettled (bytes ++ rest) rest n := by
  have number := ofSpelled_strtolDigits spelled (by decide) (by decide)
  have digits : ∀ byte ∈ bytes, isdigit byte :=
    forall_of_spells spelled (writtenDigits_lt (by decide)) SpellsDigit.isdigit
  rcases Nat.eq_zero_or_pos n with rfl | positive
  · have zero : bytes = [48] := by
      cases spelled with
      | @cons _ byte _ _ first none =>
          cases none
          have value : byte.val = 48 + 0 := by
            rcases first with ⟨_, figure⟩ | ⟨letter, _⟩
            · exact figure
            · omega
          exact congrArg (fun byte => [byte]) (Fin.ext value)
    subst zero
    have small : ∀ value ∈ ([] : List ℕ), value < 8 := fun value mem => by cases mem
    have lexed : assLex unsettled (48 :: ([] ++ rest)) = _ :=
      assLex_octal List.Forall₂.nil small ends (Nat.zero_le _)
    exact (lexesAs_strtol rfl lexed).mpr (by decide)
  · rcases writtenDigits_eq_cons 10 positive.ne' with ⟨value, values, written, nonzero⟩
    unfold IsSpelling at spelled
    rw [written] at spelled
    cases spelled with
    | @cons _ digit _ bytes first others =>
        have notZero : digit ≠ 48 := by
          rintro rfl
          rcases first with ⟨_, figure⟩ | ⟨_, lower | upper⟩
          · change 48 = 48 + value at figure
            omega
          · change 48 = 87 + value at lower
            omega
          · change 48 = 55 + value at upper
            omega
        refine ⟨_, assLex_digits digits notZero ends, ?_⟩
        have read := Number.read_ival (.decimal (strtolDigits 10 (digit :: bytes))) .int
        simp only [Number.written, Number.Fits, number] at read
        exact read.mpr fits

/-- The three spellings agree exactly on what an `int` holds. -/
theorem basesAgree_iff (unsettled : Unsettled) (fits : n ≤ 2 ^ 63 - 1) :
    BasesAgree unsettled n ↔ n < 2 ^ 31 := by
  have hexadecimal : ∀ {bytes rest}, EndsNumber rest → IsSpelling 16 n bytes →
      (LexesAs unsettled (48 :: 120 :: (bytes ++ rest)) rest n ↔ n < 2 ^ 31) := by
    intro bytes rest ends spelled
    have short : bytes.length ≤ 16 := length_of_isSpelling spelled (by decide) (by decide)
      (Nat.lt_of_le_of_lt fits (by norm_num))
    have number := ofSpelled_strtolDigits spelled (by decide) (by decide)
    exact lexesAs_strtol number (assLex_hexadecimal spelled ends (by omega))
  constructor
  · intro agree
    have ends : EndsNumber [] := fun byte mem => by cases mem
    rcases exists_isSpelling 16 n (by decide) le_rfl with ⟨bytes, spelled⟩
    exact (hexadecimal ends spelled).mp ((agree bytes [] ends).2.1 spelled)
  · intro small bytes rest ends
    refine ⟨fun spelled => lexesAs_decimal spelled ends (by omega), fun spelled =>
      (hexadecimal ends spelled).mpr small, fun spelled => ?_⟩
    have short : bytes.length ≤ 21 := length_of_isSpelling spelled (by decide) (by decide)
      (Nat.lt_of_le_of_lt fits (by norm_num))
    have number := ofSpelled_strtolDigits spelled (by decide) (by decide)
    have lexed : assLex unsettled (48 :: (bytes ++ rest)) = _ :=
      assLex_octal spelled (writtenDigits_lt (by decide)) ends (by omega)
    exact (lexesAs_strtol number lexed).mpr small

end Tokens

section Sample

/-- Nothing is left over, and there are no floats. -/
def settled : Unsettled := ⟨fun _ => 0, fun _ _ => 0⟩

theorem basesAgree_iff_ten : BasesAgree settled 10 :=
  (basesAgree_iff settled (by norm_num)).mpr (by norm_num)

/-- `0x80000000` is read as a negative number. -/
theorem hexadecimal_not_lexesAs :
    IsSpelling 10 2147483648 (ascii "2147483648") ∧
      LexesAs settled (ascii "2147483648") [] 2147483648 ∧
      IsSpelling 16 2147483648 (ascii "80000000") ∧
      ¬ LexesAs settled (ascii "0x80000000") [] 2147483648 := by
  have decimal : IsSpelling 10 2147483648 (ascii "2147483648") := by
    have digits : writtenDigits 10 2147483648 = [2, 1, 4, 7, 4, 8, 3, 6, 4, 8] := by
      norm_num [writtenDigits]
    rw [IsSpelling, digits]
    decide
  have hexadecimal : IsSpelling 16 2147483648 (ascii "80000000") := by
    have digits : writtenDigits 16 2147483648 = [8, 0, 0, 0, 0, 0, 0, 0] := by
      norm_num [writtenDigits]
    rw [IsSpelling, digits]
    decide
  refine ⟨decimal, ⟨2147483648, rfl, rfl⟩, hexadecimal, ?_⟩
  rintro ⟨ival, lexed, value⟩
  have read : assLex settled (ascii "0x80000000") =
      .ok (some (.integer 0xffffffff80000000), []) := rfl
  rw [read] at lexed
  cases lexed
  revert value
  decide

end Sample

end Dang
