import Dang.Foundations.PointerTree
import Mathlib.Logic.Function.Basic

/-!
# Trees whose nodes point up

A tree in storage whose nodes also know the node above them. Hanging a subtree
somewhere else changes one of these pointers, the one of its root.
-/

namespace Dang

universe u

namespace Tree

variable {α : Type u} {parents parents' : ℕ → Option ℕ}

/-- Each node points to the node above it, and the root to `above`. -/
def Parented (parents : ℕ → Option ℕ) : ℕ → Tree (ℕ × α) → Prop
  | _, .leaf => True
  | above, .node left element right => parents element.1 = some above ∧
      Parented parents element.1 left ∧ Parented parents element.1 right

/-- Each node on a path and beside it points to the node above it. -/
def ParentedPath (parents : ℕ → Option ℕ) : List (Frame (ℕ × α)) → Prop
  | [] => True
  | frame :: rest => parents frame.element.1 = some (headAddress rest) ∧
      Parented parents frame.element.1 frame.sibling ∧ ParentedPath parents rest

theorem parented_join {above : ℕ} {side : Side} {near far : Tree (ℕ × α)} {element : ℕ × α} :
    Parented parents above (join side near element far) ↔ parents element.1 = some above ∧
      Parented parents element.1 near ∧ Parented parents element.1 far := by
  cases side with
  | left => exact Iff.rfl
  | right => simp only [join, Parented, and_comm (a := Parented _ _ far)]

theorem parented_plug {path : List (Frame (ℕ × α))} {tree : Tree (ℕ × α)} :
    Parented parents 0 (plug path tree) ↔
      ParentedPath parents path ∧ Parented parents (headAddress path) tree := by
  induction path generalizing tree with
  | nil => simp [plug, ParentedPath, headAddress]
  | cons frame rest ih =>
      simp only [plug, ih, parented_join, ParentedPath, headAddress]
      constructor
      · rintro ⟨above, parent, near, far⟩
        exact ⟨⟨parent, far, above⟩, near⟩
      · rintro ⟨⟨parent, far, above⟩, near⟩
        exact ⟨above, parent, near, far⟩

theorem Parented.congr {above : ℕ} {tree : Tree (ℕ × α)} (parented : Parented parents above tree)
    (agree : ∀ address ∈ tree.addresses, parents' address = parents address) :
    Parented parents' above tree := by
  induction tree generalizing above with
  | leaf => trivial
  | node left element right ihLeft ihRight =>
      rcases parented with ⟨parent, leftParented, rightParented⟩
      simp only [addresses, inorder, List.map_append, List.map_cons, List.mem_append,
        List.mem_cons] at agree
      refine ⟨?_, ihLeft leftParented ?_, ihRight rightParented ?_⟩
      · exact (agree _ (Or.inr (Or.inl rfl))).trans parent
      · intro address mem
        exact agree address (Or.inl mem)
      · intro address mem
        exact agree address (Or.inr (Or.inr mem))

theorem ParentedPath.congr {path : List (Frame (ℕ × α))} (parented : ParentedPath parents path)
    (agree : ∀ address ∈ pathAddresses path, parents' address = parents address) :
    ParentedPath parents' path := by
  induction path with
  | nil => trivial
  | cons frame rest ih =>
      rcases parented with ⟨parent, sibling, above⟩
      refine ⟨?_, sibling.congr ?_, ih above ?_⟩
      · exact (agree _ (mem_pathAddresses_cons.mpr (Or.inl rfl))).trans parent
      · intro address mem
        exact agree address (mem_pathAddresses_cons.mpr (Or.inr (Or.inl mem)))
      · intro address mem
        exact agree address (mem_pathAddresses_cons.mpr (Or.inr (Or.inr mem)))

/-- Hanging a subtree under another node, its root gets a new pointer and the rest keep theirs. -/
theorem Parented.rehang {above : ℕ} (other : ℕ) {left right : Tree (ℕ × α)} {element : ℕ × α}
    (parented : Parented parents above (.node left element right))
    (nodup : (Tree.node left element right).addresses.Nodup) :
    Parented (Function.update parents element.1 (some other)) other
      (.node left element right) := by
  rcases parented with ⟨_, leftParented, rightParented⟩
  simp only [addresses, inorder, List.map_append, List.map_cons] at nodup
  have apart := (List.nodup_cons.mp (List.perm_middle.nodup_iff.mp nodup)).1
  rw [List.mem_append, not_or] at apart
  refine ⟨Function.update_self _ _ _, leftParented.congr ?_, rightParented.congr ?_⟩
  · intro address mem
    apply Function.update_of_ne
    rintro rfl
    exact apart.1 mem
  · intro address mem
    apply Function.update_of_ne
    rintro rfl
    exact apart.2 mem

end Tree

end Dang
