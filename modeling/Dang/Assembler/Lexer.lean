import Dang.Assembler.Source
import Dang.Foundations.Outcome
import Dang.Foundations.Scanner
import Mathlib.Data.List.TakeWhile

/-!
# The lexer of the assembler

What `ass_lex` makes of the bytes of a source file. Where it peeks at the end of the file there is
no byte. A quoted string is decoded into a buffer that doubles, and the other tokens are what
stands at the front of the input.
-/

namespace Dang

/-- `isdigit` in the C locale. -/
def isdigit (byte : Byte) : Prop := 48 ≤ byte ∧ byte ≤ 57

/-- `isxdigit` in the C locale. -/
def isxdigit (byte : Byte) : Prop :=
  isdigit byte ∨ (65 ≤ byte ∧ byte ≤ 70) ∨ (97 ≤ byte ∧ byte ≤ 102)

instance (byte : Byte) : Decidable (isdigit byte) := inferInstanceAs (Decidable (_ ∧ _))
instance (byte : Byte) : Decidable (isxdigit byte) := inferInstanceAs (Decidable (_ ∨ _))

/-- What a digit or a letter is worth to `strtol`. -/
def digitValue (byte : Byte) : Option ℕ :=
  if isdigit byte then some (byte.val - 48)
  else if 97 ≤ byte ∧ byte ≤ 122 then some (byte.val - 87)
  else if 65 ≤ byte ∧ byte ≤ 90 then some (byte.val - 55)
  else none

/-- The digit of a base that a byte is. -/
def digitOf (base : ℕ) (byte : Byte) : Option (Fin base) :=
  match digitValue byte with
  | none => none
  | some value => if small : value < base then some ⟨value, small⟩ else none

/-- The digits that `strtol` reads, up to the first byte that is none. -/
def strtolDigits (base : ℕ) : Bytes → List (Fin base)
  | [] => []
  | byte :: rest =>
      match digitOf base byte with
      | none => []
      | some digit => digit :: strtolDigits base rest

/-- The bytes that a loop takes while they are digits and fewer than `limit`, and the others. -/
def readDigits (limit : ℕ) (isDigit : Byte → Prop) [DecidablePred isDigit] (input : Bytes) :
    Bytes × Bytes :=
  let digits := (input.takeWhile fun byte => decide (isDigit byte)).take limit
  (digits, input.drop digits.length)

/-- `read_hex_byte`, past the `x` -/
def readHexByte (input : Bytes) : Byte × Bytes :=
  let (digits, rest) := readDigits 2 isxdigit input
  (Fin.ofNat 256 (Number.strtol (strtolDigits 16 digits)).toNat, rest)

/-- `read_octal_byte` -/
def readOctalByte (input : Bytes) : Byte × Bytes :=
  let (digits, rest) := readDigits 3 isdigit input
  (Fin.ofNat 256 (Number.strtol (strtolDigits 8 digits)).toNat, rest)

/-- `read_hex_value`, as an `intptr_t` -/
def readHexValue (input : Bytes) : BitVec 64 × Bytes :=
  let (digits, rest) := readDigits 63 isxdigit input
  ((Number.strtol (strtolDigits 16 digits)).signExtend 64, rest)

/-- `read_octal_value`, as an `intptr_t` -/
def readOctalValue (input : Bytes) : BitVec 64 × Bytes :=
  let (digits, rest) := readDigits 63 isdigit input
  ((Number.strtol (strtolDigits 8 digits)).signExtend 64, rest)

/-- The bytes after a backslash that stand for one byte each: `\\`, `\'`, `\"`, `\a`, `\b`, `\f`,
`\n`, `\r`, `\t` and `\v`. -/
def namedEscapes : List (Byte × Byte) :=
  [(92, 92), (39, 39), (34, 34), (97, 7), (98, 8), (102, 12), (110, 10), (114, 13), (116, 9),
   (118, 11)]

/-- The byte that an escape sequence stands for, past the backslash. An unrecognised one stands
for the byte that follows, and the end of the file for `(char) EOF`. -/
def readEscape : Bytes → Byte × Bytes
  | [] => (255, [])
  | byte :: rest =>
      match namedEscapes.lookup byte with
      | some escaped => (escaped, rest)
      | none =>
          if byte = 120 then readHexByte rest
          else if 48 ≤ byte ∧ byte ≤ 51 then readOctalByte (byte :: rest)
          else (byte, rest)

/-- The `buffer` of `read_quoted`, and how many bytes it has stored there. -/
structure QuotedBuffer where
  bytes : Bytes
  i : ℕ
  deriving DecidableEq, Repr

namespace QuotedBuffer

/-- `calloc(1, 64)` -/
def empty : QuotedBuffer := ⟨List.replicate 64 0, 0⟩

/-- The buffer doubles when fewer than three bytes of it are left. -/
def reserve (buffer : QuotedBuffer) : QuotedBuffer :=
  if buffer.bytes.length - buffer.i ≤ 2 then
    ⟨buffer.bytes.take buffer.i ++ List.replicate (2 * buffer.bytes.length - buffer.i) 0, buffer.i⟩
  else buffer

/-- `buffer[i++] = byte` -/
def put (buffer : QuotedBuffer) (byte : Byte) : Outcome QuotedBuffer :=
  if buffer.i < buffer.bytes.length then
    .ok ⟨buffer.bytes.set buffer.i byte, buffer.i + 1⟩
  else .error .invalidAccess

end QuotedBuffer

/-- What `read_quoted` returns, and the bytes it leaves: the buffer, or a null pointer if the
string is not terminated. -/
abbrev Quoted := Outcome (Option Bytes × Bytes)

/-- A byte is stored and the loop in `read_quoted` goes on. -/
def putQuoted (buffer : QuotedBuffer) (byte : Byte) (rest : Bytes) :
    Round Byte QuotedBuffer Quoted :=
  match buffer.put byte with
  | .ok buffer => .more buffer rest
  | .error fault => .done (.error fault)

/-- The string is not terminated: it is, in the buffer, which is then freed. -/
def unterminated (buffer : QuotedBuffer) (rest : Bytes) : Round Byte QuotedBuffer Quoted :=
  match buffer.put 0 with
  | .ok _ => .done (.ok (none, rest))
  | .error fault => .done (.error fault)

/-- One round of the loop in `read_quoted`. -/
def quotedRound (delimiter : Byte) (buffer : QuotedBuffer) :
    Bytes → Round Byte QuotedBuffer Quoted
  | [] => unterminated buffer.reserve []
  | byte :: rest =>
      if byte = 92 then putQuoted buffer.reserve (readEscape rest).1 (readEscape rest).2
      else if byte = 10 then unterminated buffer.reserve rest
      else if byte = delimiter then .done (.ok (some buffer.reserve.bytes, rest))
      else putQuoted buffer.reserve byte rest

theorem length_readDigits_le (limit : ℕ) (isDigit : Byte → Prop) [DecidablePred isDigit]
    (input : Bytes) : (readDigits limit isDigit input).2.length ≤ input.length := by
  unfold readDigits
  rw [List.length_drop]
  exact Nat.sub_le _ _

theorem length_readEscape_le (input : Bytes) : (readEscape input).2.length ≤ input.length := by
  cases input with
  | nil => exact le_rfl
  | cons byte rest =>
      have shorter : rest.length ≤ (byte :: rest).length := Nat.le_succ _
      simp only [readEscape]
      split
      case h_1 => exact shorter
      case h_2 =>
        split
        case isTrue => exact (length_readDigits_le 2 isxdigit rest).trans shorter
        case isFalse =>
          split
          case isTrue => exact length_readDigits_le 3 isdigit (byte :: rest)
          case isFalse => exact shorter

theorem length_of_putQuoted {buffer next : QuotedBuffer} {byte : Byte} {rest left : Bytes}
    (came : putQuoted buffer byte rest = .more next left) : left = rest := by
  unfold putQuoted at came
  split at came
  case h_1 =>
    cases came
    rfl
  case h_2 => cases came

theorem not_more_of_unterminated {buffer next : QuotedBuffer} {rest left : Bytes} :
    unterminated buffer rest ≠ .more next left := by
  unfold unterminated
  split
  case h_1 => exact fun came => by cases came
  case h_2 => exact fun came => by cases came

/-- `read_quoted` -/
def quotedScanner (delimiter : Byte) : Scanner Byte QuotedBuffer Quoted where
  round := quotedRound delimiter
  consumes {buffer input next left} came := by
    cases input with
    | nil => exact absurd came not_more_of_unterminated
    | cons byte rest =>
        simp only [quotedRound] at came
        split at came
        case isTrue =>
          rw [length_of_putQuoted came]
          exact Nat.lt_succ_of_le (length_readEscape_le rest)
        case isFalse =>
          split at came
          case isTrue => exact absurd came not_more_of_unterminated
          case isFalse =>
            split at came
            case isTrue => cases came
            case isFalse =>
              rw [length_of_putQuoted came]
              exact Nat.lt_succ_self _

/-- `read_quoted`, past the opening delimiter -/
def readQuoted (delimiter : Byte) (input : Bytes) : Quoted :=
  (quotedScanner delimiter).scan .empty input

/-- `read_identifier`, past a letter -/
def readIdentifier (input : Bytes) : Bytes × Bytes :=
  (input.takeWhile fun byte => decide (byte = 95 ∨ isalnum byte),
    input.dropWhile fun byte => decide (byte = 95 ∨ isalnum byte))

theorem isalnum_of_mem_readIdentifier {input : Bytes} :
    ∀ byte ∈ (readIdentifier input).1, byte = 95 ∨ isalnum byte := by
  intro byte mem
  have taken := List.mem_takeWhile_imp mem
  exact of_decide_eq_true taken

/-- What `ass_lex` returns, with its `yylval`. -/
inductive Token
  | integer (ival : BitVec 64)
  | float (fval : BitVec 64)
  /-- The null pointer stands for a string that is not terminated. -/
  | string (sval : Option Bytes)
  | label (name : Name)
  | inst (instruction : Instruction)
  /-- The character itself. -/
  | char (byte : Byte)

/-- What the bytes of the file do not settle. -/
structure Unsettled where
  /-- What `yylval.ival` holds from before, when these bytes are still to be read. -/
  stale : Bytes → BitVec 64
  /-- The floating point number with these digits before and after the point. -/
  floatptr : Bytes → Bytes → BitVec 64

/-- A literal number in decimal, of which `digits` are read: an integer, or a float if a point
follows. -/
def lexDecimal (unsettled : Unsettled) (input : Bytes) : Token × Bytes :=
  let digits := input.takeWhile fun byte => decide (isdigit byte)
  match input.dropWhile fun byte => decide (isdigit byte) with
  | 46 :: rest =>
      (.float (unsettled.floatptr digits (rest.takeWhile fun byte => decide (isdigit byte))),
        rest.dropWhile fun byte => decide (isdigit byte))
  | rest => (.integer (Number.decimal (strtolDigits 10 digits)).ival, rest)

/-- A literal integer in either hex or octal, past the zero. -/
def lexPrefixed : Bytes → Token × Bytes
  | 120 :: rest => (.integer (readHexValue rest).1, (readHexValue rest).2)
  | rest => (.integer (readOctalValue rest).1, (readOctalValue rest).2)

/-- A literal string, past the quotation mark. -/
def lexString (input : Bytes) : Outcome (Option Token × Bytes) := do
  let (str, rest) ← readQuoted 34 input
  .ok (some (.string str), rest)

/-- A single-quoted character, past the quotation mark. -/
def lexCharacter (unsettled : Unsettled) (input : Bytes) : Outcome (Option Token × Bytes) := do
  let (str, rest) ← readQuoted 39 input
  match str with
  | some str => .ok (some (.integer (Number.character (str.headD 0)).ival), rest)
  | none => .ok (some (.integer (unsettled.stale input)), rest)

/-- The character read, unless the parser takes it for the end of the input: `EOF`, or zero. -/
def lexChar : Bytes → Option Token × Bytes
  | [] => (none, [])
  | c :: rest => if c = 0 then (none, rest) else (some (.char c), rest)

/-- `ass_lex`: a token, or the end of the input. -/
def assLex (unsettled : Unsettled) (input : Bytes) : Outcome (Option Token × Bytes) :=
  match input.dropWhile fun byte => decide (byte = 32 ∨ byte = 9) with
  | [] => .ok (none, [])
  | c :: rest =>
      if c = 48 ∧ rest.head? ≠ some 46 then
        .ok (some (lexPrefixed rest).1, (lexPrefixed rest).2)
      else if isdigit c then
        .ok (some (lexDecimal unsettled (c :: rest)).1, (lexDecimal unsettled (c :: rest)).2)
      else if letter : isalpha c then
        let name : Name := ⟨c, (readIdentifier rest).1, letter, isalnum_of_mem_readIdentifier⟩
        match Instruction.ofName name.text with
        | some instruction => .ok (some (.inst instruction), (readIdentifier rest).2)
        | none => .ok (some (.label name), (readIdentifier rest).2)
      else if c = 34 then lexString rest
      else if c = 39 then lexCharacter unsettled rest
      else if c = 59 ∨ c = 35 then
        .ok (lexChar (rest.dropWhile fun byte => decide (byte ≠ 10)))
      else .ok (lexChar (c :: rest))

/-- What is left after `read_quoted` was there before. -/
theorem length_le_of_quotedScanner {delimiter : Byte} {buffer : QuotedBuffer} {input rest : Bytes}
    {str : Option Bytes} (read : (quotedScanner delimiter).scan buffer input = .ok (str, rest)) :
    rest.length ≤ input.length := by
  induction buffer, input using (quotedScanner delimiter).induct with
  | more came ih =>
      rw [Scanner.scan_of_more came] at read
      exact (ih read).trans (Nat.le_of_lt ((quotedScanner delimiter).consumes came))
  | @done buffer input result came =>
      rw [Scanner.scan_of_done came] at read
      subst read
      have ended : ∀ {left : Bytes}, unterminated buffer.reserve left = .done (.ok (str, rest)) →
          rest = left := by
        intro left came
        unfold unterminated at came
        split at came
        case h_1 =>
          cases came
          rfl
        case h_2 => cases came
      have going : ∀ {byte : Byte} {left : Bytes},
          putQuoted buffer.reserve byte left ≠ .done (.ok (str, rest)) := by
        intro byte left
        unfold putQuoted
        split
        case h_1 => exact fun came => by cases came
        case h_2 => exact fun came => by cases came
      cases input with
      | nil => exact (congrArg List.length (ended came)).le
      | cons byte left =>
          have shorter : left.length ≤ (byte :: left).length := Nat.le_succ _
          simp only [quotedScanner, quotedRound] at came
          split at came
          case isTrue => exact absurd came going
          case isFalse =>
            split at came
            case isTrue => exact (congrArg List.length (ended came)).le.trans shorter
            case isFalse =>
              split at came
              case isTrue =>
                cases came
                exact shorter
              case isFalse => exact absurd came going

theorem length_lexPrefixed_le (input : Bytes) : (lexPrefixed input).2.length ≤ input.length := by
  unfold lexPrefixed
  split
  case h_1 rest => exact (length_readDigits_le 63 isxdigit rest).trans (Nat.le_succ _)
  case h_2 => exact length_readDigits_le 63 isdigit input

theorem length_lexDecimal_le {unsettled : Unsettled} {c : Byte} {rest : Bytes} (digit : isdigit c) :
    (lexDecimal unsettled (c :: rest)).2.length ≤ rest.length := by
  have skipped : (c :: rest).dropWhile (fun byte => decide (isdigit byte)) =
      rest.dropWhile (fun byte => decide (isdigit byte)) :=
    List.dropWhile_cons_of_pos (decide_eq_true digit)
  have shorter := List.length_dropWhile_le (fun byte : Byte => decide (isdigit byte)) rest
  simp only [lexDecimal, skipped]
  split
  case h_1 fraction point =>
    rw [point, List.length_cons] at shorter
    have last := List.length_dropWhile_le (fun byte : Byte => decide (isdigit byte)) fraction
    exact last.trans (Nat.le_of_succ_le shorter)
  case h_2 => exact shorter

theorem length_lt_of_lexChar {input rest : Bytes} {token : Token}
    (lexed : lexChar input = (some token, rest)) : rest.length < input.length := by
  unfold lexChar at lexed
  split at lexed
  case h_1 => cases lexed
  case h_2 =>
    split at lexed
    case isTrue => cases lexed
    case isFalse =>
      cases lexed
      exact Nat.lt_succ_self _

/-- Each token takes something of the input. -/
theorem length_lt_of_assLex {unsettled : Unsettled} {input rest : Bytes} {token : Token}
    (lexed : assLex unsettled input = .ok (some token, rest)) : rest.length < input.length := by
  unfold assLex at lexed
  have skipped := List.length_dropWhile_le (fun byte : Byte => decide (byte = 32 ∨ byte = 9)) input
  split at lexed
  case h_1 => cases lexed
  case h_2 c left opened =>
    rw [opened, List.length_cons] at skipped
    have enough : ∀ {bytes : Bytes}, bytes.length ≤ left.length → bytes.length < input.length :=
      fun fewer => Nat.lt_of_lt_of_le (Nat.lt_succ_of_le fewer) skipped
    split at lexed
    case isTrue =>
      cases lexed
      exact enough (length_lexPrefixed_le left)
    case isFalse =>
      split at lexed
      case isTrue digit =>
        cases lexed
        exact enough (length_lexDecimal_le digit)
      case isFalse =>
        split at lexed
        case isTrue =>
          have name := List.length_dropWhile_le
            (fun byte : Byte => decide (byte = 95 ∨ isalnum byte)) left
          dsimp only at lexed
          split at lexed
          case h_1 =>
            cases lexed
            exact enough name
          case h_2 =>
            cases lexed
            exact enough name
        case isFalse =>
          split at lexed
          case isTrue =>
            rcases Outcome.bind_eq_ok.mp lexed with ⟨⟨str, last⟩, read, same⟩
            cases same
            exact enough (length_le_of_quotedScanner read)
          case isFalse =>
            split at lexed
            case isTrue =>
              rcases Outcome.bind_eq_ok.mp lexed with ⟨⟨str, last⟩, read, same⟩
              dsimp only at same
              split at same
              case h_1 =>
                cases same
                exact enough (length_le_of_quotedScanner read)
              case h_2 =>
                cases same
                exact enough (length_le_of_quotedScanner read)
            case isFalse =>
              split at lexed
              case isTrue =>
                have comment := List.length_dropWhile_le
                  (fun byte : Byte => decide (byte ≠ 10)) left
                have ended := length_lt_of_lexChar (Except.ok.inj lexed)
                exact enough (ended.le.trans comment)
              case isFalse =>
                have ended := length_lt_of_lexChar (Except.ok.inj lexed)
                rw [List.length_cons] at ended
                exact enough (Nat.le_of_lt_succ ended)

/-- The tokens up to the end of the input, after these. -/
def tokensRound (unsettled : Unsettled) (tokens : List Token) (input : Bytes) :
    Round Byte (List Token) (Outcome (List Token)) :=
  match assLex unsettled input with
  | .ok (some token, rest) => .more (tokens ++ [token]) rest
  | .ok (none, _) => .done (.ok tokens)
  | .error fault => .done (.error fault)

def tokenScanner (unsettled : Unsettled) : Scanner Byte (List Token) (Outcome (List Token)) where
  round := tokensRound unsettled
  consumes {tokens input next left} came := by
    unfold tokensRound at came
    split at came
    case h_1 lexed =>
      cases came
      exact length_lt_of_assLex lexed
    case h_2 => cases came
    case h_3 => cases came

/-- The tokens that the parser gets from `ass_lex`, one call after another. -/
def lex (unsettled : Unsettled) (input : Bytes) : Outcome (List Token) :=
  (tokenScanner unsettled).scan [] input

end Dang
