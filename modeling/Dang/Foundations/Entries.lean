import Mathlib.Data.List.Basic
import Mathlib.Data.List.TakeWhile
import Mathlib.Order.Basic
import Mathlib.Order.Lattice
import Mathlib.Tactic.Common

/-!
# Sorted lists of entries

A map as a list of entries in strictly increasing order of their keys. A walk from
the front passes the smaller keys and stops at the place of the wanted one, where
it is found, put in or taken out.
-/

namespace Dang

namespace Entries

variable {κ ν : Type} [LinearOrder κ]

/-- The keys increase strictly. -/
def Sorted (entries : List (κ × ν)) : Prop :=
  entries.Pairwise fun first second => first.1 < second.1

/-- The entries with smaller keys. -/
def passed (key : κ) (entries : List (κ × ν)) : List (κ × ν) :=
  entries.takeWhile fun entry => entry.1 < key

/-- The entries from the place of the key on. -/
def reached (key : κ) (entries : List (κ × ν)) : List (κ × ν) :=
  entries.dropWhile fun entry => entry.1 < key

/-- The value at a key. -/
def find (key : κ) (entries : List (κ × ν)) : Option ν :=
  (entries.find? fun entry => entry.1 = key).map Prod.snd

variable {key other : κ} {value : ν} {entries rest : List (κ × ν)}

theorem passed_append_reached (key : κ) (entries : List (κ × ν)) :
    passed key entries ++ reached key entries = entries :=
  List.takeWhile_append_dropWhile

theorem lt_of_mem_passed {entry : κ × ν} (mem : entry ∈ passed key entries) : entry.1 < key := by
  simpa using List.mem_takeWhile_imp mem

theorem le_of_mem_reached {entry : κ × ν} (sorted : Sorted entries)
    (mem : entry ∈ reached key entries) : key ≤ entry.1 := by
  cases place : reached key entries with
  | nil => simp [place] at mem
  | cons first rest =>
      have stops : ¬first.1 < key := by
        have head := List.head?_dropWhile_not (fun entry => decide (entry.1 < key)) entries
        rw [← reached, place] at head
        simpa using head
      have ordered : Sorted (first :: rest) := by
        rw [← place]
        exact List.Pairwise.sublist (List.dropWhile_sublist _) sorted
      rw [place] at mem
      rcases List.mem_cons.mp mem with rfl | later
      · exact not_lt.mp stops
      · exact (not_lt.mp stops).trans (le_of_lt ((List.pairwise_cons.mp ordered).1 entry later))

theorem find_append {front back : List (κ × ν)} :
    find key (front ++ back) = (find key front).or (find key back) := by
  simp [find, List.find?_append, Option.map_or]

theorem find_cons : find key ((other, value) :: entries) =
    if other = key then some value else find key entries := by
  by_cases same : other = key
  · simp [find, same]
  · simp [find, same]

theorem find_eq_none (absent : ∀ entry ∈ entries, entry.1 ≠ key) : find key entries = none := by
  simpa [find] using absent

theorem find_passed : find key (passed key entries) = none :=
  find_eq_none fun _ mem => (lt_of_mem_passed mem).ne

/-- A key is bound in the entries reached, if at all. -/
theorem find_reached : find key entries = find key (reached key entries) := by
  conv_lhs => rw [← passed_append_reached key entries]
  rw [find_append, find_passed, Option.none_or]

theorem mem_of_find (found : find key entries = some value) : (key, value) ∈ entries := by
  simp only [find, Option.map_eq_some_iff] at found
  rcases found with ⟨entry, found, rfl⟩
  have same : entry.1 = key := by simpa using List.find?_some found
  rw [← same]
  exact List.mem_of_find?_eq_some found

theorem find_of_mem (sorted : Sorted entries) (mem : (key, value) ∈ entries) :
    find key entries = some value := by
  induction entries with
  | nil => simp at mem
  | cons first rest ih =>
      rcases first with ⟨firstKey, firstValue⟩
      rcases List.pairwise_cons.mp sorted with ⟨before, restSorted⟩
      rcases List.mem_cons.mp mem with same | later
      · rcases Prod.mk.inj same with ⟨rfl, rfl⟩
        rw [find_cons, if_pos rfl]
      · rw [find_cons, if_neg (before _ later).ne, ih restSorted later]

/-- At the place of a key there is its entry. -/
theorem find_of_reached (place : reached key entries = (key, value) :: rest) :
    find key entries = some value := by
  rw [find_reached, place, find_cons, if_pos rfl]

/-- If there is another entry at the place of a key, or none, the key is not bound. -/
theorem find_of_beyond (sorted : Sorted entries)
    (beyond : ∀ entry ∈ (reached key entries).head?, entry.1 ≠ key) :
    find key entries = none := by
  rw [find_reached]
  apply find_eq_none
  cases place : reached key entries with
  | nil => simp
  | cons first rest =>
      have ordered : Sorted (first :: rest) := by
        rw [← place]
        exact List.Pairwise.sublist (List.dropWhile_sublist _) sorted
      have least : key ≤ first.1 :=
        le_of_mem_reached sorted (by rw [place]; exact List.mem_cons_self)
      intro entry mem
      rcases List.mem_cons.mp mem with rfl | later
      · exact beyond entry (by rw [place]; rfl)
      · exact (least.trans_lt ((List.pairwise_cons.mp ordered).1 entry later)).ne'

/-- A new entry at the place of its key. -/
theorem sorted_insert (sorted : Sorted entries) (absent : find key entries = none) :
    Sorted (passed key entries ++ (key, value) :: reached key entries) := by
  have split := sorted
  rw [← passed_append_reached key entries, Sorted,
    List.pairwise_append] at split
  refine List.pairwise_append.mpr ⟨split.1, List.pairwise_cons.mpr ⟨?_, split.2.1⟩, ?_⟩
  · intro entry mem
    refine lt_of_le_of_ne (le_of_mem_reached sorted mem) ?_
    intro same
    have inEntries : (key, entry.2) ∈ entries := by
      rw [← passed_append_reached key entries]
      refine List.mem_append_right _ ?_
      rw [show (key, entry.2) = entry from Prod.ext same rfl]
      exact mem
    simp [find_of_mem sorted inEntries] at absent
  · intro entry mem later laterMem
    rcases List.mem_cons.mp laterMem with rfl | inReached
    · exact lt_of_mem_passed mem
    · exact split.2.2 entry mem later inReached

theorem find_insert (absent : find key entries = none) :
    find other (passed key entries ++ (key, value) :: reached key entries) =
      if other = key then some value else find other entries := by
  rw [find_append, find_cons]
  by_cases same : other = key
  · subst same
    rw [if_pos rfl, if_pos rfl, find_passed, Option.none_or]
  · rw [if_neg (Ne.symm same), if_neg same, ← find_append, passed_append_reached]

/-- The list without the entry at the place of its key. -/
theorem sorted_erase (sorted : Sorted entries)
    (place : reached key entries = (key, value) :: rest) :
    Sorted (passed key entries ++ rest) := by
  have split := sorted
  rw [← passed_append_reached key entries, place] at split
  refine List.Pairwise.sublist ?_ split
  exact List.Sublist.append_left (List.sublist_cons_self _ _) _

theorem find_erase (sorted : Sorted entries) (place : reached key entries = (key, value) :: rest) :
    find other (passed key entries ++ rest) =
      if other = key then none else find other entries := by
  by_cases same : other = key
  · subst same
    rw [if_pos rfl, find_append, find_passed, Option.none_or]
    apply find_eq_none
    intro entry mem
    have split := sorted
    rw [← passed_append_reached other entries, place, Sorted,
      List.pairwise_append] at split
    exact ((List.pairwise_cons.mp split.2.1).1 entry mem).ne'
  · rw [if_neg same]
    conv_rhs => rw [← passed_append_reached key entries, place]
    rw [find_append, find_append, find_cons, if_neg (Ne.symm same)]

end Entries

end Dang
