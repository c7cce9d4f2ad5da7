import Dang.Assembler.Meaning

/-!
# Getting to a line

The bytes through which control gets to a line: the padding before it, which is `NOOP`s, and the
lines without an instruction, which have no bytes. Behind the last line is the guard.
-/

namespace Dang

/-- Where the line at an index may start: behind the line before it. -/
def startOf (next : ℕ) : List Line → ℕ → ℕ
  | line :: rest, index + 1 => startOf (line.position next + line.length) rest index
  | _, _ => next

/-- Where the line at an index starts. Behind the last line that is the guard. -/
def positionOf (lines : List Line) (index : ℕ) : ℕ :=
  ((place 1 lines)[index]?.map Placed.position).getD (startOf 1 lines index)

/-- From this position control gets to the line at an index, or to the guard at the front. -/
def Approaches (lines : List Line) : Option ℕ → ℕ → Prop
  | none, counter => counter = 0
  | some index, counter => startOf 1 lines index ≤ counter ∧ counter ≤ positionOf lines index

/-- The line whose instruction is executed next, where control gets to a line. Behind the last one
it is the guard. -/
def settle (source : List SourceLine) : Option ℕ → Option ℕ
  | none => none
  | some index => some (((nextInstruction source index).map Prod.fst).getD source.length)

section Layout

variable {lines : List Line} {next index counter : ℕ} {entry : Placed}

@[simp]
theorem startOf_nil (next index : ℕ) : startOf next [] index = next := by
  cases index with
  | zero => rfl
  | succ index => rfl

@[simp]
theorem startOf_zero (next : ℕ) (lines : List Line) : startOf next lines 0 = next := by
  cases lines with
  | nil => rfl
  | cons line rest => rfl

theorem le_startOf (next : ℕ) (lines : List Line)
    (index : ℕ) : next ≤ startOf next lines index := by
  induction lines generalizing next index with
  | nil => rw [startOf_nil]
  | cons line rest ih =>
      cases index with
      | zero => exact Nat.le_refl next
      | succ index =>
          have start := line.le_position next
          have later := ih (line.position next + line.length) index
          rw [startOf]
          omega

/-- A line is put at the first position that is aligned for it. -/
theorem position_of_place (found : (place next lines)[index]? = some entry) :
    entry.position = entry.line.position (startOf next lines index) := by
  induction lines generalizing next index with
  | nil => simp [place] at found
  | cons line rest ih =>
      cases index with
      | zero =>
          simp only [place, List.getElem?_cons_zero, Option.some.injEq] at found
          subst found
          rfl
      | succ index => exact ih found

/-- A line starts behind the line before it. -/
theorem startOf_succ (found : (place next lines)[index]? = some entry) :
    startOf next lines (index + 1) = entry.position + entry.length := by
  induction lines generalizing next index with
  | nil => simp [place] at found
  | cons line rest ih =>
      cases index with
      | zero =>
          simp only [place, List.getElem?_cons_zero, Option.some.injEq] at found
          subst found
          cases rest <;> rfl
      | succ index => exact ih found

theorem startOf_le (found : (place next lines)[index]? = some entry) :
    startOf next lines index ≤ entry.position := by
  rw [position_of_place found]
  exact entry.line.le_position _

/-- No line has the bytes of the padding before a line. -/
theorem not_covers_of_gap (found : (place next lines)[index]? = some entry)
    (start : startOf next lines index ≤ counter) (before : counter < entry.position) :
    ∀ other ∈ place next lines, ¬ other.Covers counter := by
  induction lines generalizing next index with
  | nil => simp [place] at found
  | cons line rest ih =>
      intro other mem covers
      rcases List.mem_cons.mp mem with rfl | later
      · cases index with
        | zero =>
            simp only [place, List.getElem?_cons_zero, Option.some.injEq] at found
            subst found
            exact absurd covers.1 (Nat.not_le_of_lt before)
        | succ index =>
            have start' := le_startOf (line.position next + line.length) rest index
            exact absurd covers.2 (Nat.not_lt_of_le (Nat.le_trans start' start))
      · cases index with
        | zero =>
            simp only [place, List.getElem?_cons_zero, Option.some.injEq] at found
            subst found
            have behind := le_position_of_mem_place later
            have inside := covers.1
            simp only at before
            omega
        | succ index => exact ih found start other later covers

/-- Behind the last line there is nothing to align. -/
theorem startOf_of_length_le (le : lines.length ≤ index) :
    startOf next lines index = startOf next lines lines.length := by
  induction lines generalizing next index with
  | nil => rw [startOf_nil, startOf_nil]
  | cons line rest ih =>
      cases index with
      | zero => simp at le
      | succ index => exact ih (Nat.le_of_succ_le_succ le)

theorem positionOf_of_getElem? (found : (place 1 lines)[index]? = some entry) :
    positionOf lines index = entry.position := by
  rw [positionOf, found]
  rfl

theorem length_place (next : ℕ) (lines : List Line) : (place next lines).length = lines.length := by
  rw [← List.length_map Placed.line, map_line_place]

/-- A line that control gets to through no padding. -/
theorem approaches_positionOf (lines : List Line) (index : ℕ) :
    Approaches lines (some index) (positionOf lines index) := by
  refine ⟨?_, Nat.le_refl _⟩
  cases found : (place 1 lines)[index]? with
  | some entry =>
      rw [positionOf_of_getElem? found]
      exact startOf_le found
  | none => rw [positionOf, found, Option.map_none, Option.getD_none]

/-- Control gets to a line from the end of the line before it. -/
theorem approaches_succ (found : (place 1 lines)[index]? = some entry) :
    Approaches lines (some (index + 1)) (entry.position + entry.length) := by
  rw [← startOf_succ found]
  exact ⟨Nat.le_refl _, (approaches_positionOf lines (index + 1)).1⟩

/-- Control does not stop at a line without an instruction. -/
theorem Approaches.skip (approaches : Approaches lines (some index) counter)
    (found : (place 1 lines)[index]? = some entry) (none : entry.line.instruction = none) :
    Approaches lines (some (index + 1)) counter := by
  have measured := length_of_mem_place (List.mem_of_getElem? found)
  have short : entry.line.length = 0 := by
    rw [Line.length, none]
  have unpadded : entry.position = startOf 1 lines index := by
    rw [position_of_place found, Line.position, if_neg]
    rw [short]
    omega
  rcases approaches with ⟨start, finish⟩
  rw [positionOf_of_getElem? found] at finish
  have here : counter = entry.position + entry.length := by omega
  rw [here]
  exact approaches_succ found

end Layout

section Accepted

variable {source : List SourceLine} {output : AssemblerOutput} {len index counter line : ℕ}
  {instruction : Instruction} {params : List SourceParam}

theorem length_parse (last : Option Bytes) (source : List SourceLine) :
    (parse last source).length = source.length := by
  induction source generalizing last with
  | nil => rfl
  | cons line rest ih => rw [parse, List.length_cons, List.length_cons, ih]

/-- Control gets to the line of the next instruction. -/
theorem Approaches.next (approaches : Approaches (parse none source) (some index) counter)
    (reads : nextInstruction source index = some (line, instruction, params)) :
    Approaches (parse none source) (some line) counter ∧
      ∃ sourceLine, source[line]? = some sourceLine ∧
        sourceLine.inst = some (instruction, params) := by
  rw [nextInstruction] at reads
  generalize rest : source.drop index = lines at reads
  induction lines generalizing index with
  | nil => simp [findInstruction] at reads
  | cons head tail ih =>
      have here : source[index]? = some head := by
        rw [← List.head?_drop, rest]
        rfl
      unfold findInstruction at reads
      split at reads
      case h_1 inst given =>
        simp only [Option.some.injEq, Prod.mk.injEq] at reads
        rcases reads with ⟨rfl, rfl⟩
        exact ⟨approaches, head, here, given⟩
      case h_2 absent =>
        rcases getElem?_place 1 (getElem?_parse none here) with ⟨entry, found, parsed⟩
        have noInstruction : entry.line.instruction = none := by
          rw [parsed]
          simp [SourceLine.parse, absent]
        have onwards : source.drop (index + 1) = tail := by
          rw [← List.drop_drop, rest]
          rfl
        exact ih (approaches.skip found noInstruction) onwards reads

/-- Where no instruction comes any more, control gets to the guard behind the last line. -/
theorem Approaches.behind (approaches : Approaches (parse none source) (some index) counter)
    (reads : nextInstruction source index = none) :
    counter = startOf 1 (parse none source) (parse none source).length := by
  rw [nextInstruction] at reads
  generalize rest : source.drop index = lines at reads
  induction lines generalizing index with
  | nil =>
      have beyond : (parse none source).length ≤ index := by
        rw [length_parse]
        exact List.drop_eq_nil_iff.mp rest
      have nothing : (place 1 (parse none source))[index]? = none := by
        rw [List.getElem?_eq_none_iff, length_place]
        exact beyond
      rcases approaches with ⟨start, finish⟩
      rw [positionOf, nothing, Option.map_none, Option.getD_none] at finish
      rw [Nat.le_antisymm finish start, startOf_of_length_le beyond]
  | cons head tail ih =>
      have here : source[index]? = some head := by
        rw [← List.head?_drop, rest]
        rfl
      unfold findInstruction at reads
      split at reads
      case h_1 => contradiction
      case h_2 absent =>
        rcases getElem?_place 1 (getElem?_parse none here) with ⟨entry, found, parsed⟩
        have noInstruction : entry.line.instruction = none := by
          rw [parsed]
          simp [SourceLine.parse, absent]
        have onwards : source.drop (index + 1) = tail := by
          rw [← List.drop_drop, rest]
          rfl
        exact ih (approaches.skip found noInstruction) onwards reads

/-- Control does not stop before the line that is executed next. -/
theorem Approaches.settle {next : Option ℕ}
    (approaches : Approaches (parse none source) next counter) :
    Approaches (parse none source) (settle source next) counter := by
  cases next with
  | none => exact approaches
  | some index =>
      rw [Dang.settle]
      cases reads : nextInstruction source index with
      | none =>
          rw [approaches.behind reads, length_parse, Option.map_none, Option.getD_none]
          refine ⟨Nat.le_refl _, ?_⟩
          exact (approaches_positionOf (parse none source) source.length).1
      | some inst =>
          rcases inst with ⟨line, instruction, params⟩
          exact (approaches.next reads).1

/-- The instruction that is executed next is the own one of its line. -/
theorem nextInstruction_self {sourceLine : SourceLine} (here : source[line]? = some sourceLine)
    (inst : sourceLine.inst = some (instruction, params)) :
    nextInstruction source line = some (line, instruction, params) := by
  rcases List.getElem?_eq_some_iff.mp here with ⟨inside, rfl⟩
  rw [nextInstruction, List.drop_eq_getElem_cons inside, findInstruction, inst]

variable {lines : List Line}

/-- The lines end where the last guard is. -/
theorem Accepted.startOf_length (accepted : Accepted lines output len) :
    startOf 1 lines lines.length = len := by
  rcases accepted.last with ⟨last, isLast, rfl⟩
  rw [List.getLast?_eq_getElem?, length_place] at isLast
  cases lines with
  | nil => simp [place] at isLast
  | cons line rest =>
      rw [List.length_cons, Nat.add_sub_cancel] at isLast
      exact startOf_succ isLast

/-- The bytes of no line are as they were before the lines were stored. -/
theorem Accepted.getElem?_of_not_covers (accepted : Accepted lines output len)
    (outside : ∀ entry ∈ place 1 lines, ¬ entry.Covers counter) :
    output.bytecode[counter]? = (blankBytecode (len + 1))[counter]? :=
  getElem?_of_storeLines_of_not_covers Accepted.measured accepted.stored outside

/-- The guards are `END`s. -/
theorem Accepted.guard (accepted : Accepted lines output len)
    (guard : counter = 0 ∨ counter = len) :
    output.bytecode[counter]? = some Instruction.END.opcode := by
  rw [accepted.getElem?_of_not_covers, getElem?_blankBytecode_guard guard]
  rintro entry mem ⟨first, last⟩
  have inside := accepted.inside mem
  omega

/-- The padding before a line is `NOOP`s. -/
theorem Accepted.padding (accepted : Accepted lines output len) {entry : Placed}
    (found : (place 1 lines)[index]? = some entry) (start : startOf 1 lines index ≤ counter)
    (before : counter < entry.position) :
    output.bytecode[counter]? = some Instruction.NOOP.opcode := by
  have inside := accepted.inside (List.mem_of_getElem? found)
  have positive := le_startOf 1 lines index
  rw [accepted.getElem?_of_not_covers (not_covers_of_gap found start before)]
  exact getElem?_blankBytecode (by omega) (by omega)

end Accepted

end Dang
