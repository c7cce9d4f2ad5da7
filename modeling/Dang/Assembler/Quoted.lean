import Dang.Assembler.Assemble
import Dang.Assembler.Numbers

/-!
# Quoted strings

Every byte but zero can be spelled in a quoted string, most of them in several ways. Whatever
spellings follow each other, `read_quoted` decodes them one by one and stops behind the closing
delimiter.
-/

namespace Dang

/-- The spellings of a byte within these delimiters. -/
inductive SpellsByte (delimiter : Byte) : Byte → Bytes → Prop
  | itself {byte : Byte} (notDelimiter : byte ≠ delimiter) (notBackslash : byte ≠ 92)
      (notNewline : byte ≠ 10) : SpellsByte delimiter byte [byte]
  | named {letter byte : Byte} (mem : (letter, byte) ∈ namedEscapes) :
      SpellsByte delimiter byte [92, letter]
  | hexadecimal {high low : Byte} {first second : ℕ} {byte : Byte} (highDigit : first < 16)
      (lowDigit : second < 16) (spellsHigh : SpellsDigit first high)
      (spellsLow : SpellsDigit second low) (value : byte.val = 16 * first + second) :
      SpellsByte delimiter byte [92, 120, high, low]
  | octal {high middle low : Byte} {first second third : ℕ} {byte : Byte} (highDigit : first < 8)
      (middleDigit : second < 8) (lowDigit : third < 8) (spellsHigh : SpellsDigit first high)
      (spellsMiddle : SpellsDigit second middle) (spellsLow : SpellsDigit third low)
      (value : byte.val = 64 * first + 8 * second + third) :
      SpellsByte delimiter byte [92, high, middle, low]

/-- The buffer has these bytes, and zeros behind them. -/
structure QuotedBuffer.Holds (buffer : QuotedBuffer) (text : Bytes) : Prop where
  bytes : ∃ spare, buffer.bytes = text ++ List.replicate spare 0
  i : buffer.i = text.length
  long : 64 ≤ buffer.bytes.length

namespace QuotedBuffer

variable {buffer : QuotedBuffer} {text : Bytes}

theorem holds_empty : Holds empty [] where
  bytes := ⟨64, rfl⟩
  i := rfl
  long := le_rfl

/-- There is space for a byte and more. -/
theorem Holds.reserve (holds : buffer.Holds text) :
    buffer.reserve.Holds text ∧ text.length + 2 < buffer.reserve.bytes.length := by
  rcases holds.bytes with ⟨spare, shape⟩
  have long := holds.long
  have total : buffer.bytes.length = text.length + spare := by
    rw [shape, List.length_append, List.length_replicate]
  unfold QuotedBuffer.reserve
  split
  case isTrue full =>
    rw [holds.i] at full
    have taken : buffer.bytes.take buffer.i = text := by rw [shape, holds.i, List.take_left]
    rw [taken]
    refine ⟨⟨⟨_, rfl⟩, holds.i, ?_⟩, ?_⟩
    · simp only [List.length_append, List.length_replicate, holds.i]
      omega
    · simp only [List.length_append, List.length_replicate, holds.i]
      omega
  case isFalse room =>
    rw [holds.i] at room
    exact ⟨holds, by omega⟩

/-- A byte that fits is stored behind the others. -/
theorem Holds.put (holds : buffer.Holds text) (room : text.length < buffer.bytes.length)
    (byte : Byte) : ∃ next, buffer.put byte = .ok next ∧ next.Holds (text ++ [byte]) := by
  rcases holds.bytes with ⟨spare, shape⟩
  have total : buffer.bytes.length = text.length + spare := by
    rw [shape, List.length_append, List.length_replicate]
  obtain ⟨left, rfl⟩ : ∃ left, spare = left + 1 := ⟨spare - 1, by omega⟩
  refine ⟨⟨buffer.bytes.set buffer.i byte, buffer.i + 1⟩, if_pos (holds.i ▸ room), ⟨left, ?_⟩, ?_, ?_⟩
  · rw [shape, holds.i, List.set_append_right _ _ le_rfl, Nat.sub_self, List.replicate_succ,
      List.set_cons_zero, List.append_assoc]
    rfl
  · rw [holds.i, List.length_append]
    rfl
  · rw [List.length_set]
    exact holds.long

end QuotedBuffer

section Decoding

variable {delimiter byte : Byte} {buffer : QuotedBuffer} {text bytes spelling rest : Bytes}
  {spellings : List Bytes}

theorem readEscape_named {letter : Byte} (mem : (letter, byte) ∈ namedEscapes) :
    readEscape (letter :: rest) = (byte, rest) := by
  have found : namedEscapes.lookup letter = some byte := by
    simp only [namedEscapes, List.mem_cons, Prod.mk.injEq, List.not_mem_nil, or_false] at mem
    rcases mem with ⟨rfl, rfl⟩ | ⟨rfl, rfl⟩ | ⟨rfl, rfl⟩ | ⟨rfl, rfl⟩ | ⟨rfl, rfl⟩ | ⟨rfl, rfl⟩ |
      ⟨rfl, rfl⟩ | ⟨rfl, rfl⟩ | ⟨rfl, rfl⟩ | ⟨rfl, rfl⟩ <;> rfl
  simp only [readEscape, found]

/-- The value of a few digits, which fits an `int`. -/
theorem strtol_of_spells {base : ℕ} {values : List ℕ} {digits : Bytes}
    (spelled : List.Forall₂ SpellsDigit values digits) (small : ∀ value ∈ values, value < base)
    (few : base ≤ 36) (fits : Nat.ofDigits base values.reverse < 2 ^ 31) :
    (Number.strtol (strtolDigits base digits)).toNat = Nat.ofDigits base values.reverse := by
  have number : Number.ofSpelled (strtolDigits base digits) = Nat.ofDigits base values.reverse := by
    rw [Number.ofSpelled, List.map_reverse, strtolDigits_of_spells spelled small few]
  rw [Number.strtol, number, BitVec.toNat_ofNat]
  omega

theorem readEscape_hexadecimal {high low : Byte} {first second : ℕ} (highDigit : first < 16)
    (lowDigit : second < 16) (spellsHigh : SpellsDigit first high)
    (spellsLow : SpellsDigit second low) (value : byte.val = 16 * first + second) :
    readEscape (120 :: high :: low :: rest) = (byte, rest) := by
  have spelled : List.Forall₂ SpellsDigit [first, second] [high, low] :=
    List.Forall₂.cons spellsHigh (List.Forall₂.cons spellsLow List.Forall₂.nil)
  have small : ∀ value ∈ [first, second], value < 16 := by simp [highDigit, lowDigit]
  have digits := forall_of_spells spelled small SpellsDigit.isxdigit
  have total : Nat.ofDigits 16 [first, second].reverse = byte.val := by
    simp [Nat.ofDigits_cons, value]
    omega
  have read : readDigits 2 isxdigit (high :: low :: rest) = ([high, low], rest) :=
    readDigits_append digits le_rfl (Or.inl rfl)
  have worth := strtol_of_spells spelled small (by decide) (by omega)
  rw [total] at worth
  change readHexByte (high :: low :: rest) = (byte, rest)
  simp only [readHexByte, read, worth, Fin.ofNat_eq_cast, Fin.cast_val_eq_self]

theorem readEscape_octal {high middle low : Byte} {first second third : ℕ}
    (highDigit : first < 8) (middleDigit : second < 8) (lowDigit : third < 8)
    (spellsHigh : SpellsDigit first high) (spellsMiddle : SpellsDigit second middle)
    (spellsLow : SpellsDigit third low) (value : byte.val = 64 * first + 8 * second + third) :
    readEscape (high :: middle :: low :: rest) = (byte, rest) := by
  have spelled : List.Forall₂ SpellsDigit [first, second, third] [high, middle, low] :=
    List.Forall₂.cons spellsHigh (List.Forall₂.cons spellsMiddle
      (List.Forall₂.cons spellsLow List.Forall₂.nil))
  have small : ∀ value ∈ [first, second, third], value < 8 := by
    simp [highDigit, middleDigit, lowDigit]
  have digits := forall_of_spells spelled small
    fun spells small => spells.isdigit (Nat.lt_trans small (by decide))
  have total : Nat.ofDigits 8 [first, second, third].reverse = byte.val := by
    simp [Nat.ofDigits_cons, value]
    omega
  have read : readDigits 3 isdigit (high :: middle :: low :: rest) = ([high, middle, low], rest) :=
    readDigits_append digits le_rfl (Or.inl rfl)
  have worth := strtol_of_spells spelled small (by decide) (by omega)
  rw [total] at worth
  have octal : readOctalByte (high :: middle :: low :: rest) = (byte, rest) := by
    simp only [readOctalByte, read, worth, Fin.ofNat_eq_cast, Fin.cast_val_eq_self]
  have leading : high.val = 48 + first := by
    unfold SpellsDigit at spellsHigh
    omega
  have few : first ≤ 3 := by
    have bound := byte.isLt
    omega
  obtain ⟨code, inside⟩ := high
  dsimp only at leading
  subst leading
  interval_cases first
  · exact octal
  · exact octal
  · exact octal
  · exact octal

/-- Storing a byte in one round. -/
theorem QuotedBuffer.Holds.putQuoted (holds : buffer.Holds text) (byte : Byte) (rest : Bytes) :
    ∃ next, Dang.putQuoted buffer.reserve byte rest = .more next rest ∧
      next.Holds (text ++ [byte]) := by
  rcases holds.reserve with ⟨reserved, room⟩
  rcases reserved.put (by omega) byte with ⟨next, put, stored⟩
  refine ⟨next, ?_, stored⟩
  rw [Dang.putQuoted, put]

/-- One spelling takes one round, which stores the byte. -/
theorem quotedRound_spelling (holds : buffer.Holds text)
    (spells : SpellsByte delimiter byte spelling) (rest : Bytes) :
    ∃ next, (quotedScanner delimiter).round buffer (spelling ++ rest) = .more next rest ∧
      next.Holds (text ++ [byte]) := by
  rcases holds.putQuoted byte rest with ⟨next, goes, stored⟩
  have escaped : ∀ {escape : Bytes}, readEscape escape = (byte, rest) →
      (quotedScanner delimiter).round buffer (92 :: escape) = .more next rest := by
    intro escape read
    change quotedRound delimiter buffer (92 :: escape) = _
    rw [quotedRound, if_pos rfl, read]
    exact goes
  refine ⟨next, ?_, stored⟩
  cases spells with
  | itself notDelimiter notBackslash notNewline =>
      change quotedRound delimiter buffer (byte :: rest) = _
      rw [quotedRound, if_neg notBackslash, if_neg notNewline, if_neg notDelimiter]
      exact goes
  | named mem => exact escaped (readEscape_named mem)
  | hexadecimal highDigit lowDigit spellsHigh spellsLow value =>
      exact escaped (readEscape_hexadecimal highDigit lowDigit spellsHigh spellsLow value)
  | octal highDigit middleDigit lowDigit spellsHigh spellsMiddle spellsLow value =>
      exact escaped (readEscape_octal highDigit middleDigit lowDigit spellsHigh spellsMiddle
        spellsLow value)

/-- The spellings are decoded one by one. -/
theorem scan_spellings (holds : buffer.Holds text)
    (spelled : List.Forall₂ (SpellsByte delimiter) bytes spellings) (rest : Bytes) :
    ∃ next, (quotedScanner delimiter).scan buffer (spellings.flatten ++ rest) =
        (quotedScanner delimiter).scan next rest ∧ next.Holds (text ++ bytes) := by
  induction spelled generalizing buffer text with
  | nil => exact ⟨buffer, rfl, by rwa [List.append_nil]⟩
  | @cons byte spelling bytes spellings spells _ ih =>
      rcases quotedRound_spelling holds spells (spellings.flatten ++ rest) with
        ⟨middle, round, stored⟩
      rcases ih stored with ⟨next, scanned, all⟩
      refine ⟨next, ?_, ?_⟩
      · rw [List.flatten_cons, List.append_assoc, Scanner.scan_of_more round, scanned]
      · rwa [List.append_assoc] at all

/-- A quoted string is decoded to the bytes that were spelled, with a zero behind them in the
buffer, and what follows the closing delimiter is left. -/
theorem readQuoted_spellings (notBackslash : delimiter ≠ 92) (notNewline : delimiter ≠ 10)
    (nonzero : ∀ byte ∈ bytes, byte ≠ 0)
    (spelled : List.Forall₂ (SpellsByte delimiter) bytes spellings) (rest : Bytes) :
    ∃ buffer, readQuoted delimiter (spellings.flatten ++ delimiter :: rest) =
        .ok (some buffer, rest) ∧
      buffer.take bytes.length = bytes ∧ buffer[bytes.length]? = some 0 ∧
      strlen buffer = bytes.length := by
  rcases scan_spellings QuotedBuffer.holds_empty spelled (delimiter :: rest) with
    ⟨last, scanned, holds⟩
  rw [List.nil_append] at holds
  rcases holds.reserve with ⟨reserved, room⟩
  rcases reserved.bytes with ⟨spare, shape⟩
  have total : last.reserve.bytes.length = bytes.length + spare := by
    rw [shape, List.length_append, List.length_replicate]
  obtain ⟨left, rfl⟩ : ∃ left, spare = left + 1 := ⟨spare - 1, by omega⟩
  rw [List.replicate_succ] at shape
  have closes : (quotedScanner delimiter).round last (delimiter :: rest) =
      .done (.ok (some last.reserve.bytes, rest)) := by
    change quotedRound delimiter last (delimiter :: rest) = _
    rw [quotedRound, if_neg notBackslash, if_neg notNewline, if_pos rfl]
  refine ⟨last.reserve.bytes, ?_, ?_, ?_, ?_⟩
  · rw [readQuoted, scanned, Scanner.scan_of_done closes]
  · rw [shape, List.take_left]
  · rw [shape, List.getElem?_append_right le_rfl, Nat.sub_self]
    rfl
  · have all : ∀ byte ∈ bytes, decide (byte ≠ 0) = true :=
      fun byte mem => decide_eq_true (nonzero byte mem)
    rw [shape, strlen, List.takeWhile_append_of_pos all, List.takeWhile_cons_of_neg (by decide),
      List.append_nil]

/-- The string `"\x41\n\042"`: three bytes, each spelled in another way. -/
theorem readQuoted_spellings_sample :
    ∃ buffer, readQuoted 34 [92, 120, 52, 49, 92, 110, 92, 48, 52, 50, 34] =
        .ok (some buffer, []) ∧
      buffer.take 3 = [65, 10, 34] ∧ buffer[3]? = some 0 ∧ strlen buffer = 3 := by
  have first : SpellsByte 34 65 [92, 120, 52, 49] := by
    have high : SpellsDigit 4 52 := by decide
    have low : SpellsDigit 1 49 := by decide
    exact .hexadecimal (by decide) (by decide) high low rfl
  have second : SpellsByte 34 10 [92, 110] := .named (by simp [namedEscapes])
  have third : SpellsByte 34 34 [92, 48, 52, 50] := by
    have high : SpellsDigit 0 48 := by decide
    have middle : SpellsDigit 4 52 := by decide
    have low : SpellsDigit 2 50 := by decide
    exact .octal (by decide) (by decide) (by decide) high middle low rfl
  have nonzero : ∀ byte ∈ ([65, 10, 34] : Bytes), byte ≠ 0 := by simp
  have spelled := List.Forall₂.cons first (List.Forall₂.cons second
    (List.Forall₂.cons third List.Forall₂.nil))
  exact readQuoted_spellings (by decide) (by decide) nonzero spelled []

end Decoding

end Dang
