import Dang.Foundations.Tree
import Mathlib.Data.Nat.Basic

/-!
# Binary trees in storage

A binary tree whose nodes are cells at addresses, linked by the addresses of their
children, with zero for no child. `Rep` relates the storage to the tree it holds,
whose elements are the addresses with the values there; `Hole` does so for the path
above a subtree, and changing the one link at the end of the path changes the
subtree.
-/

namespace Dang

universe u

/-- A cell: its links to the two children, and a value. -/
structure Cell (α : Type u) where
  left : ℕ
  right : ℕ
  value : α

namespace Cell

variable {α : Type u}

def child (cell : Cell α) : Side → ℕ
  | .left => cell.left
  | .right => cell.right

def setChild (cell : Cell α) (target : ℕ) : Side → Cell α
  | .left => { cell with left := target }
  | .right => { cell with right := target }

@[simp]
theorem child_setChild (cell : Cell α) (target : ℕ) (side : Side) :
    (cell.setChild target side).child side = target := by
  cases side with
  | left => rfl
  | right => rfl

/-- Setting both links leaves neither of the old ones. -/
theorem child_setBoth (cell : Cell α) (targets : Side → ℕ) (side : Side) :
    ((cell.setChild (targets .left) .left).setChild (targets .right) .right).child side =
      targets side := by
  cases side with
  | left => rfl
  | right => rfl

end Cell

namespace Tree

variable {α : Type u} {store store' : ℕ → Option (Cell α)}

/-- The tree at the address `root`. -/
def Rep (store : ℕ → Option (Cell α)) : ℕ → Tree (ℕ × α) → Prop
  | root, .leaf => root = 0
  | root, .node left element right => root = element.1 ∧ root ≠ 0 ∧
      ∃ cell, store root = some cell ∧ cell.value = element.2 ∧
        Rep store cell.left left ∧ Rep store cell.right right

/-- The path from the address `hole` up to the address `root`. -/
def Hole (store : ℕ → Option (Cell α)) : List (Frame (ℕ × α)) → ℕ → ℕ → Prop
  | [], hole, root => root = hole
  | frame :: rest, hole, root => frame.element.1 ≠ 0 ∧
      ∃ cell, store frame.element.1 = some cell ∧ cell.value = frame.element.2 ∧
        cell.child frame.side = hole ∧ Rep store (cell.child frame.side.opposite) frame.sibling ∧
        Hole store rest frame.element.1 root

/-- The address of the node at the end of a path, or zero above the root. -/
def headAddress : List (Frame (ℕ × α)) → ℕ
  | [] => 0
  | frame :: _ => frame.element.1

/-- The addresses of the nodes, from left to right. -/
def addresses (tree : Tree (ℕ × α)) : List ℕ := tree.inorder.map Prod.fst

/-- The addresses of the nodes on a path and beside it. -/
def pathAddresses (path : List (Frame (ℕ × α))) : List ℕ :=
  (before path ++ after path).map Prod.fst

theorem rep_join {root : ℕ} {side : Side} {near far : Tree (ℕ × α)} {element : ℕ × α} :
    Rep store root (join side near element far) ↔ root = element.1 ∧ root ≠ 0 ∧
      ∃ cell, store root = some cell ∧ cell.value = element.2 ∧
        Rep store (cell.child side) near ∧ Rep store (cell.child side.opposite) far := by
  cases side with
  | left => exact Iff.rfl
  | right => simp only [join, Rep, Cell.child, Side.opposite, and_comm (a := Rep _ _ far)]

theorem rep_plug {path : List (Frame (ℕ × α))} {tree : Tree (ℕ × α)} {root : ℕ} :
    Rep store root (plug path tree) ↔ ∃ hole, Hole store path hole root ∧ Rep store hole tree := by
  induction path generalizing tree with
  | nil => simp [plug, Hole]
  | cons frame rest ih =>
      simp only [plug, ih, rep_join, Hole]
      constructor
      · rintro ⟨_, above, rfl, nonzero, cell, found, value, near, far⟩
        exact ⟨_, ⟨nonzero, cell, found, value, rfl, far, above⟩, near⟩
      · rintro ⟨_, ⟨nonzero, cell, found, value, rfl, far, above⟩, near⟩
        exact ⟨_, above, rfl, nonzero, cell, found, value, near, far⟩

/-- Storage holds one tree at an address. -/
theorem Rep.unique {root : ℕ} {tree other : Tree (ℕ × α)} (rep : Rep store root tree)
    (otherRep : Rep store root other) : tree = other := by
  induction tree generalizing root other with
  | leaf =>
      cases other with
      | leaf => rfl
      | node left element right => exact absurd rep otherRep.2.1
  | node left element right ihLeft ihRight =>
      rcases rep with ⟨rfl, nonzero, cell, found, value, leftRep, rightRep⟩
      cases other with
      | leaf => exact absurd otherRep nonzero
      | node left' element' right' =>
          rcases otherRep with ⟨same, _, cell', found', value', leftRep', rightRep'⟩
          have sameCell : cell' = cell := Option.some.inj (found'.symm.trans found)
          subst sameCell
          have sameElement : element = element' := Prod.ext same (value.symm.trans value')
          rw [ihLeft leftRep leftRep', ihRight rightRep rightRep', sameElement]

/-- Storage that agrees on the nodes of a tree holds the same tree. -/
theorem Rep.congr {root : ℕ} {tree : Tree (ℕ × α)} (rep : Rep store root tree)
    (agree : ∀ address ∈ tree.addresses, store' address = store address) :
    Rep store' root tree := by
  induction tree generalizing root with
  | leaf => exact rep
  | node left element right ihLeft ihRight =>
      rcases rep with ⟨rfl, nonzero, cell, found, value, leftRep, rightRep⟩
      simp only [addresses, inorder, List.map_append, List.map_cons, List.mem_append,
        List.mem_cons] at agree
      refine ⟨rfl, nonzero, cell, ?_, value, ihLeft leftRep ?_, ihRight rightRep ?_⟩
      · exact (agree _ (Or.inr (Or.inl rfl))).trans found
      · intro address mem
        exact agree address (Or.inl mem)
      · intro address mem
        exact agree address (Or.inr (Or.inr mem))

theorem mem_pathAddresses_cons {frame : Frame (ℕ × α)} {rest : List (Frame (ℕ × α))}
    {address : ℕ} : address ∈ pathAddresses (frame :: rest) ↔ address = frame.element.1 ∨
      address ∈ frame.sibling.addresses ∨ address ∈ pathAddresses rest := by
  rcases frame with ⟨side, element, sibling⟩
  cases side with
  | left =>
      simp only [pathAddresses, before, after, addresses, List.map_append, List.map_cons,
        List.mem_append, List.mem_cons, List.cons_append]
      tauto
  | right =>
      simp only [pathAddresses, before, after, addresses, List.map_append, List.map_cons,
        List.map_nil, List.mem_append, List.mem_cons, List.not_mem_nil, or_false]
      tauto

theorem Hole.congr {path : List (Frame (ℕ × α))} {hole root : ℕ}
    (above : Hole store path hole root)
    (agree : ∀ address ∈ pathAddresses path, store' address = store address) :
    Hole store' path hole root := by
  induction path generalizing hole with
  | nil => exact above
  | cons frame rest ih =>
      rcases above with ⟨nonzero, cell, found, value, child, sibling, above⟩
      refine ⟨nonzero, cell, ?_, value, child, sibling.congr ?_, ih above ?_⟩
      · exact (agree _ (mem_pathAddresses_cons.mpr (Or.inl rfl))).trans found
      · intro address mem
        exact agree address (mem_pathAddresses_cons.mpr (Or.inr (Or.inl mem)))
      · intro address mem
        exact agree address (mem_pathAddresses_cons.mpr (Or.inr (Or.inr mem)))

/-- Changing the link at the end of a path changes what hangs there. -/
theorem Hole.refill {frame : Frame (ℕ × α)} {rest : List (Frame (ℕ × α))}
    {hole other root : ℕ} {cell : Cell α} (above : Hole store (frame :: rest) hole root)
    (found : store frame.element.1 = some cell)
    (changed : store' frame.element.1 = some (cell.setChild other frame.side))
    (fresh : frame.element.1 ∉ frame.sibling.addresses ∧
      frame.element.1 ∉ pathAddresses rest)
    (agree : ∀ address ∈ pathAddresses (frame :: rest), address ≠ frame.element.1 →
      store' address = store address) :
    Hole store' (frame :: rest) other root := by
  rcases frame with ⟨side, element, tree⟩
  rcases above with ⟨nonzero, cell', found', value, child, sibling, above⟩
  have same : cell' = cell := Option.some.inj (found'.symm.trans found)
  subst same
  have siblingRep : Rep store' (cell'.child side.opposite) tree := by
    apply sibling.congr
    intro address mem
    apply agree address (mem_pathAddresses_cons.mpr (Or.inr (Or.inl mem)))
    exact fun equal => fresh.1 (equal ▸ mem)
  have aboveHole : Hole store' rest element.1 root := by
    apply above.congr
    intro address mem
    apply agree address (mem_pathAddresses_cons.mpr (Or.inr (Or.inr mem)))
    exact fun equal => fresh.2 (equal ▸ mem)
  cases side with
  | left => exact ⟨nonzero, _, changed, value, rfl, siblingRep, aboveHole⟩
  | right => exact ⟨nonzero, _, changed, value, rfl, siblingRep, aboveHole⟩

theorem addresses_plug_perm (path : List (Frame (ℕ × α))) (tree : Tree (ℕ × α)) :
    (plug path tree).addresses.Perm (tree.addresses ++ pathAddresses path) := by
  simp only [addresses, inorder_plug, pathAddresses, ← List.map_append]
  apply List.Perm.map
  rw [← List.append_assoc, ← List.append_assoc]
  exact List.perm_append_comm.append_right _

theorem addresses_join_perm (side : Side) (near far : Tree (ℕ × α)) (element : ℕ × α) :
    (join side near element far).addresses.Perm
      (element.1 :: (near.addresses ++ far.addresses)) := by
  cases side with
  | left =>
      simp only [join, addresses, inorder, List.map_append, List.map_cons]
      exact List.perm_middle
  | right =>
      simp only [join, addresses, inorder, List.map_append, List.map_cons]
      exact List.perm_middle.trans (List.perm_append_comm.cons _)

theorem mem_addresses {tree : Tree (ℕ × α)} {address : ℕ} :
    address ∈ tree.addresses ↔ ∃ element ∈ tree.inorder, element.1 = address := by
  simp [addresses]

/-- The addresses at the end of a path, on the path and beside it are distinct. -/
theorem nodup_plug {path : List (Frame (ℕ × α))} {tree : Tree (ℕ × α)} :
    (plug path tree).addresses.Nodup ↔ (tree.addresses ++ pathAddresses path).Nodup :=
  (addresses_plug_perm path tree).nodup_iff

theorem nodup_pathAddresses_cons {frame : Frame (ℕ × α)} {rest : List (Frame (ℕ × α))}
    (nodup : (pathAddresses (frame :: rest)).Nodup) :
    frame.element.1 ∉ frame.sibling.addresses ∧ frame.element.1 ∉ pathAddresses rest := by
  have perm : (pathAddresses (frame :: rest)).Perm
      (frame.element.1 :: (frame.sibling.addresses ++ pathAddresses rest)) := by
    have whole := addresses_plug_perm (frame :: rest) (leaf : Tree (ℕ × α))
    have parts := addresses_plug_perm rest (join frame.side leaf frame.element frame.sibling)
    have node := addresses_join_perm frame.side leaf frame.sibling frame.element
    simp only [plug, addresses, inorder, List.map_nil, List.nil_append] at whole parts node
    have same := whole.symm.trans parts
    exact same.trans (node.append_right _)
  have distinct := (perm.nodup_iff.mp nodup)
  simp only [List.nodup_cons, List.mem_append, not_or] at distinct
  exact distinct.1

end Tree

end Dang
