import Dang.Assembler.Labels
import Dang.Assembler.Quoted

/-!
# Which texts the assembler answers

Reading a text always comes to an end, and where it is a program whose output can be allocated the
passes over its lines stay within that output and follow no null pointer, but for two: the last
line of a program without lines, and a string that is not terminated where its length is measured.
-/

namespace Dang

section Lexing

variable {unsettled : Unsettled} {delimiter : Byte} {buffer : QuotedBuffer} {text : Bytes}

theorem QuotedBuffer.Holds.unterminated (holds : buffer.Holds text) (rest : Bytes) :
    Dang.unterminated buffer.reserve rest = .done (.ok (none, rest)) := by
  rcases holds.reserve with ⟨reserved, room⟩
  rcases reserved.put (by omega) 0 with ⟨next, put, _⟩
  rw [Dang.unterminated, put]

/-- A round stores a byte within the buffer, or is the last one. -/
theorem QuotedBuffer.Holds.round (holds : buffer.Holds text) (delimiter : Byte) (input : Bytes) :
    (∃ next rest byte, (quotedScanner delimiter).round buffer input = .more next rest ∧
        next.Holds (text ++ [byte])) ∨
      ∃ result, (quotedScanner delimiter).round buffer input = .done (.ok result) := by
  change (∃ next rest byte, quotedRound delimiter buffer input = .more next rest ∧ _) ∨
    ∃ result, quotedRound delimiter buffer input = .done (.ok result)
  cases input with
  | nil => exact Or.inr ⟨_, holds.unterminated []⟩
  | cons byte rest =>
      simp only [quotedRound]
      split
      case isTrue =>
        rcases holds.putQuoted (readEscape rest).1 (readEscape rest).2 with ⟨next, put, stored⟩
        exact Or.inl ⟨next, _, _, put, stored⟩
      case isFalse =>
        split
        case isTrue => exact Or.inr ⟨_, holds.unterminated rest⟩
        case isFalse =>
          split
          case isTrue => exact Or.inr ⟨_, rfl⟩
          case isFalse =>
            rcases holds.putQuoted byte rest with ⟨next, put, stored⟩
            exact Or.inl ⟨next, _, _, put, stored⟩

/-- Whatever there is to read, `read_quoted` returns. -/
theorem exists_readQuoted (delimiter : Byte) (input : Bytes) :
    ∃ result, readQuoted delimiter input = .ok result := by
  have initially : ∃ text, QuotedBuffer.empty.Holds text := ⟨[], QuotedBuffer.holds_empty⟩
  refine (quotedScanner delimiter).scan_of_invariant (fun buffer => ∃ text, buffer.Holds text)
    (fun read => ∃ result, read = .ok result) ?_ ?_ initially
  · rintro buffer input next rest came ⟨text, holds⟩
    rcases holds.round delimiter input with ⟨_, _, byte, goes, stored⟩ | ⟨result, ends⟩
    · cases came.symm.trans goes
      exact ⟨_, stored⟩
    · cases came.symm.trans ends
  · rintro buffer input read came ⟨text, holds⟩
    rcases holds.round delimiter input with ⟨_, _, byte, goes, stored⟩ | ⟨result, ends⟩
    · cases came.symm.trans goes
    · cases came.symm.trans ends
      exact ⟨result, rfl⟩

theorem exists_assLex (unsettled : Unsettled) (input : Bytes) :
    ∃ result, assLex unsettled input = .ok result := by
  unfold assLex
  split
  case h_1 => exact ⟨_, rfl⟩
  case h_2 c rest _ =>
    split
    case isTrue => exact ⟨_, rfl⟩
    case isFalse =>
      split
      case isTrue => exact ⟨_, rfl⟩
      case isFalse =>
        split
        case isTrue =>
          dsimp only
          split
          case h_1 => exact ⟨_, rfl⟩
          case h_2 => exact ⟨_, rfl⟩
        case isFalse =>
          split
          case isTrue =>
            rcases exists_readQuoted 34 rest with ⟨⟨str, left⟩, read⟩
            exact ⟨_, by rw [lexString, read]; rfl⟩
          case isFalse =>
            split
            case isTrue =>
              rcases exists_readQuoted 39 rest with ⟨⟨str, left⟩, read⟩
              rw [lexCharacter, read]
              cases str with
              | none => exact ⟨_, rfl⟩
              | some str => exact ⟨_, rfl⟩
            case isFalse =>
              split
              case isTrue => exact ⟨_, rfl⟩
              case isFalse => exact ⟨_, rfl⟩

theorem exists_lex (unsettled : Unsettled) (text : Bytes) :
    ∃ tokens, lex unsettled text = .ok tokens := by
  refine (tokenScanner unsettled).scan_of_invariant (fun _ => True)
    (fun read => ∃ tokens, read = .ok tokens) (fun _ _ => trivial) ?_ trivial
  intro tokens input read came _
  rcases exists_assLex unsettled input with ⟨⟨token, rest⟩, lexed⟩
  change tokensRound unsettled tokens input = _ at came
  unfold tokensRound at came
  rw [lexed] at came
  cases token with
  | none =>
      cases came
      exact ⟨_, rfl⟩
  | some token => cases came

end Lexing

section Storing

variable {placed : List Placed} {entry : Placed} {bytecode : Bytes} {instruction : Instruction}
  {size : ℕ}

/-- What is stored within the buffer is stored. -/
theorem exists_store {position : ℕ} {block : Bytes}
    (inside : position + block.length ≤ bytecode.length) :
    ∃ stored, Buffer.store bytecode position block = .ok stored :=
  ⟨_, Buffer.store_of_le inside⟩

theorem exists_map_store {position : ℕ} {block : Bytes}
    (inside : position + block.length ≤ bytecode.length) :
    ∃ result, some <$> Buffer.store bytecode position block = .ok result := by
  rw [Buffer.store_of_le inside]
  exact ⟨_, rfl⟩

theorem exists_storeInteger (inside : entry.position + 1 + size ≤ bytecode.length) :
    ∃ result, storeInteger entry size bytecode = .ok result := by
  unfold storeInteger
  split
  case h_1 => exact exists_map_store (by rwa [length_littleEndian])
  case h_2 => exact ⟨_, rfl⟩

theorem exists_storeFloat (inside : entry.position + 1 + 8 ≤ bytecode.length) :
    ∃ result, storeFloat entry bytecode = .ok result := by
  unfold storeFloat
  split
  case h_1 => exact exists_map_store (by rwa [length_littleEndian])
  case h_2 => exact ⟨_, rfl⟩

/-- Every label that a parameter of the line refers to is defined. -/
def Followed (placed : List Placed) (entry : Placed) : Prop :=
  ∀ param ∈ entry.line.params, ∀ label ∈ param.label,
    ∃ position, followLabel placed label = .ok position

theorem exists_storeLabelLoc (inside : entry.position + 1 + 8 ≤ bytecode.length)
    (followed : Followed placed entry) :
    ∃ result, storeLabelLoc placed entry bytecode = .ok result := by
  unfold storeLabelLoc
  split
  case h_1 label rest params =>
    have mem : Param.labelLoc label ∈ entry.line.params := params ▸ List.mem_cons_self
    rcases followed _ mem label rfl with ⟨handle, found⟩
    rw [found]
    exact exists_map_store (by rwa [length_littleEndian])
  case h_2 => exact ⟨_, rfl⟩

theorem exists_storeLabelOff (inside : entry.position + 1 + 8 ≤ bytecode.length)
    (followed : Followed placed entry) :
    ∃ result, storeLabelOff placed entry bytecode = .ok result := by
  unfold storeLabelOff
  split
  case h_1 label rest params =>
    have mem : Param.labelOff label ∈ entry.line.params := params ▸ List.mem_cons_self
    rcases followed _ mem label rfl with ⟨target, found⟩
    rw [found]
    exact exists_map_store (by rwa [length_littleEndian])
  case h_2 => exact ⟨_, rfl⟩

/-- Two stores one after the other. -/
theorem exists_store_twice {first second : ℕ} {block other : Bytes}
    (inside : first + block.length ≤ bytecode.length)
    (inside' : second + other.length ≤ bytecode.length) :
    ∃ result, (Buffer.store bytecode first block >>= fun bytecode =>
      some <$> Buffer.store bytecode second other) = .ok result := by
  rcases exists_store inside with ⟨stored, done⟩
  rw [done]
  exact exists_map_store (by rwa [Buffer.length_of_store done])

theorem exists_storeString (inside : entry.position + entry.length ≤ bytecode.length)
    (fits : instruction.size ≤ entry.length) :
    ∃ result, storeString entry instruction bytecode = .ok result := by
  have positive := instruction.size_pos
  unfold storeString
  split
  case h_1 text rest params =>
    refine exists_store_twice ?_ ?_
    · rw [length_littleEndian]
      omega
    · have fewer := Nat.mod_le (entry.length - instruction.size) (256 ^ (instruction.size - 1))
      have taken := List.length_take_le
        ((entry.length - instruction.size) % 256 ^ (instruction.size - 1)) text
      omega
  case h_2 => exact ⟨_, rfl⟩

theorem exists_storeSymdef (inside : entry.position + 1 + 4 + 8 ≤ bytecode.length) :
    ∃ result, storeSymdef entry bytecode = .ok result := by
  unfold storeSymdef
  split
  case h_1 =>
    refine exists_store_twice ?_ ?_
    · rw [length_littleEndian]
      omega
    · rwa [length_littleEndian]
  case h_2 => exact ⟨_, rfl⟩

/-- The operands of a line are stored within the line. -/
theorem exists_storeOperands (inside : entry.position + entry.length ≤ bytecode.length)
    (fits : instruction.size ≤ entry.length) (followed : Followed placed entry) :
    ∃ result, storeOperands placed entry instruction bytecode = .ok result := by
  have within : entry.position + instruction.size ≤ bytecode.length := by omega
  unfold storeOperands
  split
  case h_1 => exact exists_storeInteger within
  case h_2 => exact exists_storeInteger within
  case h_3 => exact exists_storeLabelLoc within followed
  case h_4 => exact exists_storeLabelLoc within followed
  case h_5 => exact exists_storeLabelLoc within followed
  case h_6 => exact exists_storeInteger within
  case h_7 => exact exists_storeFloat within
  case h_8 => exact exists_storeString inside fits
  case h_9 => exact exists_storeString inside fits
  case h_10 => exact exists_storeLabelOff within followed
  case h_11 => exact exists_storeLabelOff within followed
  case h_12 => exact exists_storeLabelOff within followed
  case h_13 => exact exists_storeSymdef within
  case h_14 => exact exists_storeInteger within
  case h_15 => exact exists_storeInteger within
  case h_16 => exact ⟨_, rfl⟩

/-- A line is stored within the buffer. -/
theorem exists_storeLine (measured : entry.length = entry.line.length)
    (inside : entry.position + entry.length ≤ bytecode.length)
    (followed : Followed placed entry) :
    ∃ result, storeLine placed entry bytecode = .ok result := by
  unfold storeLine
  split
  case h_1 => exact ⟨_, rfl⟩
  case h_2 instruction given =>
    have fits := size_le_length given
    have positive := instruction.size_pos
    rw [← measured] at fits
    have opcode : entry.position + [instruction.opcode].length ≤ bytecode.length := by
      rw [List.length_singleton]
      omega
    rcases exists_store opcode with ⟨stored, first⟩
    rw [first, Outcome.ok_bind]
    split
    case isTrue =>
      exact exists_storeOperands (by rwa [Buffer.length_of_store first]) fits followed
    case isFalse => exact ⟨_, rfl⟩

theorem exists_storeLines {entries : List Placed}
    (measured : ∀ entry ∈ entries, entry.length = entry.line.length)
    (inside : ∀ entry ∈ entries, entry.position + entry.length ≤ bytecode.length)
    (followed : ∀ entry ∈ entries, Followed placed entry) :
    ∃ result, storeLines placed entries bytecode = .ok result := by
  induction entries generalizing bytecode with
  | nil => exact ⟨_, rfl⟩
  | cons entry rest ih =>
      rcases exists_storeLine (measured entry List.mem_cons_self) (inside entry List.mem_cons_self)
        (followed entry List.mem_cons_self) with ⟨result, stored⟩
      rw [storeLines, stored, Outcome.ok_bind]
      cases result with
      | none => exact ⟨_, rfl⟩
      | some after =>
          have long := length_of_storeLine stored (measured entry List.mem_cons_self)
          apply ih
          · exact fun entry mem => measured entry (List.mem_cons_of_mem _ mem)
          · intro entry mem
            rw [long]
            exact inside entry (List.mem_cons_of_mem _ mem)
          · exact fun entry mem => followed entry (List.mem_cons_of_mem _ mem)

/-- The passes over the lines of a program whose output can be allocated come to an answer. -/
theorem exists_assemble {lines : List Line} (nonempty : lines ≠ [])
    (fits : outputSize lines ≤ sizeMax) : ∃ result, assemble lines = .ok result := by
  by_cases checked : (defined lines).Nodup ∧ ∀ label ∈ labels lines, label ∈ defined lines
  · rcases exists_getLast?_place nonempty with ⟨last, isLast⟩
    have object : ¬ sizeMax < sizeofAssemblerOutput + (last.position + last.length + 1) := by
      rw [outputSize, isLast] at fits
      exact Nat.not_lt.mpr fits
    have followed : ∀ entry ∈ place 1 lines, Followed (place 1 lines) entry := by
      intro entry mem param paramMem label names
      have lineMem : entry.line ∈ lines := by
        rw [← map_line_place 1 lines]
        exact List.mem_map_of_mem mem
      have used : label ∈ labels lines := by
        refine List.mem_flatMap.mpr ⟨entry.line, lineMem, List.mem_append_right _ ?_⟩
        exact List.mem_filterMap.mpr ⟨param, paramMem, names⟩
      rcases List.mem_filterMap.mp (checked.2 label used) with ⟨line, definedMem, labelled⟩
      rw [← map_line_place 1 lines] at definedMem
      rcases List.mem_map.mp definedMem with ⟨other, otherMem, rfl⟩
      rcases exists_followLabel otherMem labelled with ⟨first, _, _, follows⟩
      exact ⟨first.position, follows⟩
    have stored : ∃ result, storeLines (place 1 lines) (place 1 lines)
        (blankBytecode (last.position + last.length + 1)) = .ok result := by
      apply exists_storeLines (fun entry mem => length_of_mem_place mem) ?_ followed
      intro entry mem
      rw [length_blankBytecode]
      exact Nat.le_succ_of_le (end_le_of_mem (pairwise_place 1 lines) isLast mem)
    rcases stored with ⟨result, done⟩
    simp only [assemble, isLast, if_neg object, if_pos checked, done, Outcome.ok_bind]
    cases result with
    | none => exact ⟨_, rfl⟩
    | some bytecode => exact ⟨_, rfl⟩
  · exact ⟨none, (assemble_of_not_checked checked).2 nonempty fits⟩

/-- Without a last line, or without storage for the output, a null pointer is followed. -/
theorem assemble_error {lines : List Line} (refused : lines = [] ∨ sizeMax < outputSize lines) :
    assemble lines = .error .nullPointer := by
  rcases refused with rfl | large
  · rfl
  · cases isLast : (place 1 lines).getLast? with
    | none => simp only [assemble, isLast]
    | some last =>
        rw [outputSize, isLast] at large
        simp only [assemble, isLast, if_pos large]

end Storing

section Texts

variable {unsettled : Unsettled} {text : Bytes}

/-- The assembler answers exactly the texts that are no program, or a program with a line, with no
unterminated string as the first parameter of a `str` or `string`, and of a size to allocate. -/
theorem assembleText_answers_iff (unsettled : Unsettled) (text : Bytes) :
    (∃ answer, assembleText unsettled text = .ok answer) ↔
      ∀ tokens lines, lex unsettled text = .ok tokens → Grammar.Program tokens lines →
        lines ≠ [] ∧ (∀ line ∈ lines, line.measuresNull = false) ∧
          outputSize (getLines none lines) ≤ sizeMax := by
  rcases exists_lex unsettled text with ⟨tokens, lexed⟩
  cases parsed : yyparse tokens with
  | none =>
      constructor
      · intro _ other lines lexed' derives
        cases lexed.symm.trans lexed'
        cases parsed.symm.trans (yyparse_eq_some_iff.mpr derives)
      · intro _
        exact ⟨none, by simp only [assembleText, lexed, Outcome.ok_bind, parsed]⟩
  | some lines =>
      have derives := yyparse_eq_some_iff.mp parsed
      have assembled : assembleText unsettled text =
          if lines.any ParsedLine.measuresNull then .error .nullPointer
          else assemble (getLines none lines) := by
        simp only [assembleText, lexed, Outcome.ok_bind, parsed]
      rw [assembled]
      constructor
      · rintro ⟨answer, answered⟩ other lines' lexed' derives'
        cases lexed.symm.trans lexed'
        cases derives.unique derives'
        split at answered
        case isTrue => cases answered
        case isFalse measured =>
          have refused : ¬ (getLines none lines = [] ∨ sizeMax < outputSize (getLines none lines)) := by
            intro refused
            cases (assemble_error refused).symm.trans answered
          rw [getLines_eq_nil_iff] at refused
          refine ⟨fun none => refused (Or.inl none), ?_, Nat.not_lt.mp fun large =>
            refused (Or.inr large)⟩
          intro line mem
          exact eq_false_of_ne_true fun null => measured (List.any_eq_true.mpr ⟨line, mem, null⟩)
      · intro condition
        rcases condition tokens lines lexed derives with ⟨nonempty, measured, fits⟩
        have terminated : ¬ lines.any ParsedLine.measuresNull = true := by
          rw [List.any_eq_true]
          rintro ⟨line, mem, null⟩
          rw [measured line mem] at null
          cases null
        rw [if_neg terminated]
        exact exists_assemble ((getLines_eq_nil_iff none).not.mpr nonempty) fits

/-- An empty file has no last line, and a string that a newline cuts off no length. -/
theorem assembleText_not_answers :
    assembleText settled [] = .error .nullPointer ∧
      assembleText settled (ascii "; nothing but a comment") = .error .nullPointer ∧
      assembleText settled (ascii "str " ++ 34 :: ascii "a" ++ [10, 10]) = .error .nullPointer :=
  ⟨rfl, rfl, rfl⟩

end Texts

end Dang
