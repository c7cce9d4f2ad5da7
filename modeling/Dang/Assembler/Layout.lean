import Dang.Assembler.Assemble
import Mathlib.Data.List.Pairwise

/-!
# Layout of the lines

Where the first pass puts the lines. Each line starts where the line before it
ends or after some padding, so that the lines lie one after the other, from the
byte after the first guard to the byte before the last one.
-/

namespace Dang

/-- The first line ends before the second one starts. -/
def Placed.Before (first second : Placed) : Prop :=
  first.position + first.length ≤ second.position

/-- The position is one of the line's bytes. -/
def Placed.Covers (entry : Placed) (index : ℕ) : Prop :=
  entry.position ≤ index ∧ index < entry.position + entry.length

namespace Line

theorem le_position (line : Line) (next : ℕ) : next ≤ line.position next := by
  unfold position
  split
  · omega
  · omega

/-- A long line other than a `STR` starts one byte before a multiple of four. -/
theorem position_mod_four {line : Line} (next : ℕ) (long : 2 < line.length)
    (other : line.instruction ≠ some .STR) : line.position next % 4 = 3 := by
  unfold position
  rw [if_pos ⟨long, other⟩]
  omega

/-- A line takes up bytes exactly when it has an instruction. -/
theorem length_pos_iff (line : Line) : 0 < line.length ↔ line.instruction ≠ none := by
  rcases line with ⟨label, instruction, params⟩
  cases instruction with
  | none => simp [length]
  | some instruction =>
      have positive : 0 < length ⟨label, some instruction, params⟩ := by
        unfold length
        split
        case h_1 => contradiction
        case h_2 => exact Nat.add_pos_left (Instruction.size_pos _) _
        case h_3 => exact Nat.add_pos_left (Instruction.size_pos _) _
        case h_4 => exact Instruction.size_pos _
      simp [positive]

end Line

theorem map_line_place (next : ℕ) (lines : List Line) :
    (place next lines).map Placed.line = lines := by
  induction lines generalizing next with
  | nil => rfl
  | cons line rest ih => simp [place, ih]

/-- A program with a line has a last one. -/
theorem exists_getLast?_place {lines : List Line} (nonempty : lines ≠ []) :
    ∃ last, (place 1 lines).getLast? = some last := by
  cases isLast : (place 1 lines).getLast? with
  | none =>
      have empty := map_line_place 1 lines
      rw [List.getLast?_eq_none_iff.mp isLast] at empty
      exact absurd empty.symm nonempty
  | some last => exact ⟨last, rfl⟩

theorem length_of_mem_place {next : ℕ} {lines : List Line} {entry : Placed}
    (mem : entry ∈ place next lines) : entry.length = entry.line.length := by
  induction lines generalizing next with
  | nil => simp [place] at mem
  | cons line rest ih =>
      rcases List.mem_cons.mp mem with rfl | later
      · rfl
      · exact ih later

theorem exists_position_of_mem_place {next : ℕ} {lines : List Line} {entry : Placed}
    (mem : entry ∈ place next lines) :
    ∃ before, next ≤ before ∧ entry.position = entry.line.position before := by
  induction lines generalizing next with
  | nil => simp [place] at mem
  | cons line rest ih =>
      rcases List.mem_cons.mp mem with rfl | later
      · exact ⟨next, Nat.le_refl next, rfl⟩
      · rcases ih later with ⟨before, le, position⟩
        have start := line.le_position next
        exact ⟨before, by omega, position⟩

theorem le_position_of_mem_place {next : ℕ} {lines : List Line} {entry : Placed}
    (mem : entry ∈ place next lines) : next ≤ entry.position := by
  rcases exists_position_of_mem_place mem with ⟨before, le, position⟩
  rw [position]
  exact Nat.le_trans le (entry.line.le_position before)

/-- The lines lie one after the other, in source order. -/
theorem pairwise_place (next : ℕ) (lines : List Line) :
    (place next lines).Pairwise Placed.Before := by
  induction lines generalizing next with
  | nil => exact List.Pairwise.nil
  | cons line rest ih =>
      refine List.Pairwise.cons ?_ (ih _)
      intro entry mem
      exact le_position_of_mem_place mem

/-- No line ends after the last one does. -/
theorem end_le_of_mem {entries : List Placed} {entry last : Placed}
    (ordered : entries.Pairwise Placed.Before) (isLast : entries.getLast? = some last)
    (mem : entry ∈ entries) :
    entry.position + entry.length ≤ last.position + last.length := by
  rcases List.getLast?_eq_some_iff.mp isLast with ⟨front, rfl⟩
  rcases List.mem_append.mp mem with earlier | final
  · have before : entry.position + entry.length ≤ last.position :=
      (List.pairwise_append.mp ordered).2.2 entry earlier last (List.mem_singleton_self last)
    omega
  · rw [List.mem_singleton.mp final]

/-- Two lines that share a byte are the same line. -/
theorem covers_unique {entries : List Placed} {first second : Placed} {index : ℕ}
    (ordered : entries.Pairwise Placed.Before) (memFirst : first ∈ entries)
    (memSecond : second ∈ entries) (coversFirst : first.Covers index)
    (coversSecond : second.Covers index) : first = second := by
  induction entries with
  | nil => simp at memFirst
  | cons head rest ih =>
      rcases List.pairwise_cons.mp ordered with ⟨ahead, orderedRest⟩
      rcases coversFirst with ⟨fromFirst, toFirst⟩
      rcases coversSecond with ⟨fromSecond, toSecond⟩
      rcases List.mem_cons.mp memFirst with rfl | laterFirst
      · rcases List.mem_cons.mp memSecond with rfl | laterSecond
        · rfl
        · have before : first.position + first.length ≤ second.position :=
            ahead second laterSecond
          omega
      · rcases List.mem_cons.mp memSecond with rfl | laterSecond
        · have before : second.position + second.length ≤ first.position :=
            ahead first laterFirst
          omega
        · exact ih orderedRest laterFirst laterSecond

end Dang
