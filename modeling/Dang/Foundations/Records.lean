import Mathlib.Data.List.Basic
import Mathlib.Data.Nat.Notation
import Mathlib.Tactic.Common

/-!
# Records with terminators

A list cut after each of its terminators. The first record goes up to and including the
first terminator, or to the end of the list if there is none.
-/

namespace Dang

universe u

variable {α : Type u}

section FirstRecord

variable (ends : α → Prop) [DecidablePred ends]

/-- The list up to and including its first terminator. -/
def firstRecord : List α → List α
  | [] => []
  | item :: rest => if ends item then [item] else item :: firstRecord rest

/-- What follows the first terminator. -/
def afterRecord : List α → List α
  | [] => []
  | item :: rest => if ends item then rest else afterRecord rest

end FirstRecord

/-- The list is cut into records: none is empty, each but possibly the last one has a terminator
at its end, and no record has one before its end. -/
structure CutInto (ends : α → Prop) (list : List α) (records : List (List α)) : Prop where
  flatten_eq : records.flatten = list
  nonempty : ∀ record ∈ records, record ≠ []
  ended : ∀ record ∈ records.dropLast, ∃ last, record.getLast? = some last ∧ ends last
  inner : ∀ record ∈ records, ∀ item ∈ record.dropLast, ¬ends item

theorem CutInto.nil (ends : α → Prop) : CutInto ends [] [] where
  flatten_eq := rfl
  nonempty _ mem := absurd mem List.not_mem_nil
  ended _ mem := absurd mem List.not_mem_nil
  inner _ mem := absurd mem List.not_mem_nil

section Lemmas

variable {ends : α → Prop} [DecidablePred ends]

@[simp]
theorem firstRecord_append_afterRecord (list : List α) :
    firstRecord ends list ++ afterRecord ends list = list := by
  induction list with
  | nil => rfl
  | cons item rest ih =>
      simp only [firstRecord, afterRecord]
      split
      case isTrue => rfl
      case isFalse => rw [List.cons_append, ih]

theorem afterRecord_eq_drop (list : List α) :
    afterRecord ends list = list.drop (firstRecord ends list).length := by
  induction list with
  | nil => rfl
  | cons item rest ih =>
      simp only [firstRecord, afterRecord]
      split
      case isTrue => rfl
      case isFalse =>
        rw [List.length_cons, List.drop_succ_cons]
        exact ih

/-- A list without terminators is one record. -/
theorem firstRecord_eq_self {list : List α} (none : ∀ item ∈ list, ¬ends item) :
    firstRecord ends list = list := by
  induction list with
  | nil => rfl
  | cons item rest ih =>
      rw [firstRecord, if_neg (none item List.mem_cons_self)]
      rw [ih fun other mem => none other (List.mem_cons_of_mem _ mem)]

theorem firstRecord_ne_nil {list : List α} (nonempty : list ≠ []) :
    firstRecord ends list ≠ [] := by
  cases list with
  | nil => exact nonempty
  | cons item rest =>
      rw [firstRecord]
      split
      case isTrue => exact List.cons_ne_nil _ _
      case isFalse => exact List.cons_ne_nil _ _

theorem take_length_firstRecord (list : List α) :
    list.take (firstRecord ends list).length = firstRecord ends list := by
  induction list with
  | nil => rfl
  | cons item rest ih =>
      rw [firstRecord]
      split
      case isTrue => rfl
      case isFalse => rw [List.length_cons, List.take_succ_cons, ih]

/-- What follows a record is shorter. -/
theorem length_afterRecord_lt {list : List α} (nonempty : list ≠ []) :
    (afterRecord ends list).length < list.length := by
  have split : (firstRecord ends list ++ afterRecord ends list).length = list.length := by
    rw [firstRecord_append_afterRecord]
  have some : 0 < (firstRecord ends list).length :=
    List.length_pos_iff.mpr (firstRecord_ne_nil nonempty)
  rw [List.length_append] at split
  omega

theorem not_ends_of_mem_dropLast {list : List α} :
    ∀ item ∈ (firstRecord ends list).dropLast, ¬ends item := by
  induction list with
  | nil => exact fun item mem => absurd mem List.not_mem_nil
  | cons first rest ih =>
      rw [firstRecord]
      split
      case isTrue => exact fun item mem => absurd mem List.not_mem_nil
      case isFalse other =>
        intro item mem
        cases record : firstRecord ends rest with
        | nil =>
            rw [record] at mem
            exact absurd mem List.not_mem_nil
        | cons second others =>
            rw [record, List.dropLast_cons_cons] at mem
            rcases List.mem_cons.mp mem with rfl | later
            · exact other
            · exact ih item (record ▸ later)

/-- A record that something follows has a terminator at its end. -/
theorem exists_getLast?_firstRecord {list : List α} (more : afterRecord ends list ≠ []) :
    ∃ last, (firstRecord ends list).getLast? = some last ∧ ends last := by
  induction list with
  | nil => exact absurd rfl more
  | cons first rest ih =>
      rw [firstRecord]
      rw [afterRecord] at more
      split
      case isTrue terminates => exact ⟨first, rfl, terminates⟩
      case isFalse other =>
        rw [if_neg other] at more
        rcases ih more with ⟨last, found, terminates⟩
        refine ⟨last, ?_, terminates⟩
        rw [List.getLast?_cons, found]
        rfl

/-- What follows the first record is cut, and so is the list. -/
theorem CutInto.cons {list : List α} {records : List (List α)} (nonempty : list ≠ [])
    (later : CutInto ends (afterRecord ends list) records) :
    CutInto ends list (firstRecord ends list :: records) where
  flatten_eq := by rw [List.flatten_cons, later.flatten_eq, firstRecord_append_afterRecord]
  nonempty := by
    intro record mem
    rcases List.mem_cons.mp mem with rfl | other
    · exact firstRecord_ne_nil nonempty
    · exact later.nonempty record other
  ended := by
    intro record mem
    cases records with
    | nil => exact absurd mem List.not_mem_nil
    | cons second others =>
        rw [List.dropLast_cons_cons] at mem
        rcases List.mem_cons.mp mem with rfl | other
        · apply exists_getLast?_firstRecord
          rw [← later.flatten_eq, List.flatten_cons]
          have some := later.nonempty second List.mem_cons_self
          exact fun none => some (List.append_eq_nil_iff.mp none).1
        · exact later.ended record other
  inner := by
    intro record mem
    rcases List.mem_cons.mp mem with rfl | other
    · exact not_ends_of_mem_dropLast
    · exact later.inner record other

end Lemmas

end Dang
