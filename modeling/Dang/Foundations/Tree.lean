import Mathlib.Data.List.Basic
import Mathlib.Data.List.Induction
import Mathlib.Data.List.Nodup
import Mathlib.Order.Basic
import Mathlib.Order.Defs.LinearOrder
import Mathlib.Order.Lattice

/-!
# Binary trees and their contexts

Binary trees with an element at each node, the path from a subtree up to the root,
and search trees: those whose elements in order have increasing keys.
-/

namespace Dang

universe u

/-- The two sides of a node. -/
inductive Side
  | left
  | right
  deriving DecidableEq, Repr

namespace Side

def opposite : Side → Side
  | .left => .right
  | .right => .left

@[simp]
theorem opposite_opposite (side : Side) : side.opposite.opposite = side := by
  cases side with
  | left => rfl
  | right => rfl

theorem eq_or_opposite (side other : Side) : other = side ∨ other = side.opposite := by
  cases side with
  | left =>
      cases other with
      | left => exact Or.inl rfl
      | right => exact Or.inr rfl
  | right =>
      cases other with
      | left => exact Or.inr rfl
      | right => exact Or.inl rfl

/-- Of two things, the one on this side. -/
def pick {β : Type} (side : Side) (left right : β) : β :=
  match side with
  | .left => left
  | .right => right

end Side

/-- A binary tree with an element at each node. -/
inductive Tree (α : Type u)
  | leaf
  | node (left : Tree α) (element : α) (right : Tree α)

namespace Tree

variable {α : Type u}

/-- The elements from left to right. -/
def inorder : Tree α → List α
  | .leaf => []
  | .node left element right => left.inorder ++ element :: right.inorder

/-- The node whose child on the given side is `near`. -/
def join (side : Side) (near : Tree α) (element : α) (far : Tree α) : Tree α :=
  match side with
  | .left => .node near element far
  | .right => .node far element near

/-- A step up from a subtree: it is the child on `side` of a node with the given element
and other child. -/
structure Frame (α : Type u) where
  side : Side
  element : α
  sibling : Tree α

/-- The tree with the given subtree at the end of a path, its last step first. -/
def plug : List (Frame α) → Tree α → Tree α
  | [], tree => tree
  | frame :: rest, tree => plug rest (join frame.side tree frame.element frame.sibling)

/-- The elements a path leaves to the left of its end. -/
def before : List (Frame α) → List α
  | [] => []
  | frame :: rest =>
      match frame.side with
      | .left => before rest
      | .right => before rest ++ (frame.sibling.inorder ++ [frame.element])

/-- The elements a path leaves to the right of its end. -/
def after : List (Frame α) → List α
  | [] => []
  | frame :: rest =>
      match frame.side with
      | .left => frame.element :: frame.sibling.inorder ++ after rest
      | .right => after rest

theorem inorder_plug (path : List (Frame α)) (tree : Tree α) :
    (plug path tree).inorder = before path ++ (tree.inorder ++ after path) := by
  induction path generalizing tree with
  | nil => simp [plug, before, after]
  | cons frame rest ih =>
      rcases frame with ⟨side, element, sibling⟩
      cases side with
      | left => simp [plug, join, before, after, ih, inorder]
      | right => simp [plug, join, before, after, ih, inorder]

theorem plug_append (inner outer : List (Frame α)) (tree : Tree α) :
    plug (inner ++ outer) tree = plug outer (plug inner tree) := by
  induction inner generalizing tree with
  | nil => rfl
  | cons frame rest ih => exact ih _

theorem before_append (inner outer : List (Frame α)) :
    before (inner ++ outer) = before outer ++ before inner := by
  induction inner with
  | nil => simp [before]
  | cons frame rest ih =>
      rcases frame with ⟨side, element, sibling⟩
      cases side with
      | left => simp [before, ih]
      | right => simp [before, ih]

theorem after_append (inner outer : List (Frame α)) :
    after (inner ++ outer) = after inner ++ after outer := by
  induction inner with
  | nil => simp [after]
  | cons frame rest ih =>
      rcases frame with ⟨side, element, sibling⟩
      cases side with
      | left => simp [after, ih]
      | right => simp [after, ih]

theorem length_path_le (path : List (Frame α)) :
    path.length ≤ (before path ++ after path).length := by
  induction path with
  | nil => simp
  | cons frame rest ih =>
      rcases frame with ⟨side, element, sibling⟩
      cases side with
      | left =>
          simp only [before, after, List.length_append, List.length_cons] at ih ⊢
          omega
      | right =>
          simp only [before, after, List.length_append, List.length_cons] at ih ⊢
          omega

/-- Every element sits at the end of some path. -/
theorem exists_plug_of_mem {tree : Tree α} {element : α} (mem : element ∈ tree.inorder) :
    ∃ path left right, tree = plug path (.node left element right) := by
  induction tree with
  | leaf => simp [inorder] at mem
  | node left root right ihLeft ihRight =>
      simp only [inorder, List.mem_append, List.mem_cons] at mem
      rcases mem with inLeft | here | inRight
      · rcases ihLeft inLeft with ⟨path, below, above, rfl⟩
        refine ⟨path ++ [⟨.left, root, right⟩], below, above, ?_⟩
        rw [plug_append]
        rfl
      · exact ⟨[], left, right, by rw [here]; rfl⟩
      · rcases ihRight inRight with ⟨path, below, above, rfl⟩
        refine ⟨path ++ [⟨.right, root, left⟩], below, above, ?_⟩
        rw [plug_append]
        rfl

theorem mem_inorder_plug (path : List (Frame α)) (left right : Tree α) (element : α) :
    element ∈ (plug path (.node left element right)).inorder := by
  simp [inorder_plug, inorder]

/-- An element that occurs once is neither below itself nor on both sides of another one. -/
theorem nodup_node {left right : Tree α} {element : α}
    (nodup : (node left element right).inorder.Nodup) :
    left.inorder.Nodup ∧ right.inorder.Nodup ∧ element ∉ left.inorder ∧ element ∉ right.inorder ∧
      ∀ other ∈ left.inorder, other ∉ right.inorder := by
  rw [inorder, List.nodup_middle, List.nodup_cons, List.mem_append, not_or,
    List.nodup_append] at nodup
  rcases nodup with ⟨⟨notLeft, notRight⟩, leftNodup, rightNodup, apart⟩
  exact ⟨leftNodup, rightNodup, notLeft, notRight,
    fun other mem mem' => apart other mem other mem' rfl⟩

/-- The path to an element that occurs once. -/
theorem plug_injective {path other : List (Frame α)} {left right left' right' : Tree α}
    {element : α} (nodup : (plug path (.node left element right)).inorder.Nodup)
    (same : plug path (.node left element right) = plug other (.node left' element right')) :
    path = other ∧ left = left' ∧ right = right' := by
  induction path using List.reverseRecOn generalizing other with
  | nil =>
      rcases List.eq_nil_or_concat other with rfl | ⟨inner, ⟨side, above, sibling⟩, rfl⟩
      · simp only [plug, node.injEq, true_and] at same
        exact ⟨rfl, same⟩
      · rw [List.concat_eq_append, plug_append] at same
        have below := mem_inorder_plug inner left' right' element
        rcases nodup_node nodup with ⟨_, _, notLeft, notRight, _⟩
        cases side with
        | left =>
            simp only [plug, join, node.injEq] at same
            exact absurd (same.1 ▸ below) notLeft
        | right =>
            simp only [plug, join, node.injEq] at same
            exact absurd (same.2.2 ▸ below) notRight
  | append_singleton path frame ih =>
      rcases frame with ⟨side, above, sibling⟩
      rw [plug_append] at same nodup
      have here := mem_inorder_plug path left right element
      rcases List.eq_nil_or_concat other with rfl | ⟨inner, ⟨side', above', sibling'⟩, rfl⟩
      · cases side with
        | left =>
            rcases nodup_node nodup with ⟨_, _, notLeft, _, _⟩
            simp only [plug, join, node.injEq] at same
            exact absurd here (same.2.1 ▸ notLeft)
        | right =>
            rcases nodup_node nodup with ⟨_, _, _, notRight, _⟩
            simp only [plug, join, node.injEq] at same
            exact absurd here (same.2.1 ▸ notRight)
      · rw [List.concat_eq_append, plug_append] at same
        have there := mem_inorder_plug inner left' right' element
        cases side with
        | left =>
            rcases nodup_node nodup with ⟨within, _, _, _, apart⟩
            cases side' with
            | left =>
                simp only [plug, join, node.injEq] at same
                rcases ih within same.1 with ⟨rfl, rfl, rfl⟩
                rw [same.2.1, same.2.2]
                exact ⟨List.concat_eq_append.symm ▸ rfl, rfl, rfl⟩
            | right =>
                simp only [plug, join, node.injEq] at same
                exact absurd (same.2.2 ▸ there) (apart element here)
        | right =>
            rcases nodup_node nodup with ⟨_, within, _, _, apart⟩
            cases side' with
            | left =>
                simp only [plug, join, node.injEq] at same
                exact absurd here (apart element (same.1 ▸ there))
            | right =>
                simp only [plug, join, node.injEq] at same
                rcases ih within same.2.2 with ⟨rfl, rfl, rfl⟩
                rw [same.1, same.2.1]
                exact ⟨List.concat_eq_append.symm ▸ rfl, rfl, rfl⟩

/-- A path of steps to one side leaves nothing beyond its end. -/
theorem after_eq_nil {path : List (Frame α)} (same : ∀ frame ∈ path, frame.side = .right) :
    after path = [] := by
  induction path with
  | nil => rfl
  | cons frame rest ih =>
      have side := same frame List.mem_cons_self
      simp only [after, side]
      exact ih (fun other mem => same other (List.mem_cons_of_mem _ mem))

theorem before_eq_nil {path : List (Frame α)} (same : ∀ frame ∈ path, frame.side = .left) :
    before path = [] := by
  induction path with
  | nil => rfl
  | cons frame rest ih =>
      have side := same frame List.mem_cons_self
      simp only [before, side]
      exact ih (fun other mem => same other (List.mem_cons_of_mem _ mem))

/-- The keys of the elements increase from left to right. -/
def Sorted {κ : Type} [LT κ] (key : α → κ) (tree : Tree α) : Prop :=
  tree.inorder.Pairwise fun first second => key first < key second

/-- The element with the given key, if there is one. -/
def lookup {κ : Type} [DecidableEq κ] (key : α → κ) (tree : Tree α) (wanted : κ) : Option α :=
  tree.inorder.find? fun element => key element = wanted

section Search

variable {κ : Type} [LinearOrder κ] {key : α → κ} {left right : Tree α} {element : α} {wanted : κ}

theorem Sorted.parts (sorted : Sorted key (.node left element right)) :
    Sorted key left ∧ Sorted key right ∧ (∀ other ∈ left.inorder, key other < key element) ∧
      ∀ other ∈ right.inorder, key element < key other := by
  simp only [Sorted, inorder, List.pairwise_append, List.pairwise_cons, List.mem_cons] at sorted
  rcases sorted with ⟨leftSorted, ⟨above, rightSorted⟩, below⟩
  exact ⟨leftSorted, rightSorted, fun other mem => below other mem element (Or.inl rfl), above⟩

theorem lookup_eq_none {tree : Tree α} (absent : ∀ element ∈ tree.inorder, key element ≠ wanted) :
    tree.lookup key wanted = none := by
  simpa [lookup] using absent

theorem lookup_eq (sorted : Sorted key (.node left element right)) :
    (Tree.node left element right).lookup key wanted =
      if wanted < key element then left.lookup key wanted
      else if key element < wanted then right.lookup key wanted
      else some element := by
  rcases sorted.parts with ⟨_, _, below, above⟩
  have split : (Tree.node left element right).lookup key wanted =
      (left.lookup key wanted).or ((element :: right.inorder).find? fun other =>
        key other = wanted) := by
    simp [lookup, inorder, List.find?_append]
  rw [split]
  by_cases less : wanted < key element
  · have absent : (element :: right.inorder).find? (fun other => decide (key other = wanted)) =
        none := by
      simp only [List.find?_eq_none, List.mem_cons, decide_eq_true_eq]
      rintro other (rfl | mem)
      · exact less.ne'
      · exact (less.trans (above other mem)).ne'
    simp only [less, if_true, absent, Option.or_none]
  · have leftAbsent : left.lookup key wanted = none := by
      apply lookup_eq_none
      intro other mem same
      exact less (same ▸ below other mem)
    by_cases greater : key element < wanted
    · have skip : (element :: right.inorder).find? (fun other => decide (key other = wanted)) =
          right.lookup key wanted := by
        rw [lookup, List.find?_cons_of_neg]
        simpa using greater.ne
      simp only [less, if_false, greater, if_true, leftAbsent, Option.none_or, skip]
    · have same : key element = wanted := le_antisymm (not_lt.mp less) (not_lt.mp greater)
      simp only [less, if_false, greater, leftAbsent, Option.none_or]
      rw [List.find?_cons_of_pos]
      simpa using same

variable {tree : Tree α} {early late : List α}

/-- In a search tree an element is found by its key. -/
theorem lookup_key (sorted : Sorted key tree) (inorder : tree.inorder = early ++ element :: late) :
    tree.lookup key (key element) = some element := by
  simp only [Sorted, inorder, List.pairwise_append, List.mem_cons] at sorted
  have absent : early.find? (fun other => decide (key other = key element)) = none := by
    simp only [List.find?_eq_none, decide_eq_true_eq]
    intro other mem
    exact (sorted.2.2 other mem element (Or.inl rfl)).ne
  simp [lookup, inorder, List.find?_append, absent]

/-- In a search tree an element is given by its key, and so is the path to it. -/
theorem Sorted.plug_injective {path other : List (Frame α)} {left right left' right' : Tree α}
    {element element' : α} (sorted : Sorted key (plug path (.node left element right)))
    (same : plug path (.node left element right) = plug other (.node left' element' right'))
    (equal : key element = key element') :
    path = other ∧ left = left' ∧ element = element' ∧ right = right' := by
  have nodup : (plug path (.node left element right)).inorder.Nodup :=
    List.Pairwise.imp (fun less => ne_of_apply_ne key (ne_of_lt less)) sorted
  have mem := mem_inorder_plug path left right element
  have mem' := mem_inorder_plug other left' right' element'
  rw [← same] at mem'
  rcases List.append_of_mem mem with ⟨early, late, order⟩
  rcases List.append_of_mem mem' with ⟨early', late', order'⟩
  have found := lookup_key sorted order
  rw [equal, lookup_key sorted order'] at found
  cases found
  rcases Tree.plug_injective nodup same with ⟨pathSame, leftSame, rightSame⟩
  exact ⟨pathSame, leftSame, rfl, rightSame⟩

/-- Without an element, lookups find the others and not that one. -/
theorem lookup_removed {smaller : Tree α} (sorted : Sorted key tree)
    (inorder : tree.inorder = early ++ element :: late) (removed : smaller.inorder = early ++ late)
    (wanted : κ) :
    smaller.lookup key wanted = if wanted = key element then none else tree.lookup key wanted := by
  simp only [Sorted, inorder, List.pairwise_append, List.pairwise_cons, List.mem_cons] at sorted
  rcases sorted with ⟨_, ⟨above, _⟩, below⟩
  by_cases same : wanted = key element
  · rw [if_pos same]
    apply lookup_eq_none
    intro other mem
    rw [removed, List.mem_append] at mem
    rcases mem with inEarly | inLate
    · rw [same]
      exact (below other inEarly element (Or.inl rfl)).ne
    · rw [same]
      exact (above other inLate).ne'
  · have skip : (element :: late).find? (fun other => decide (key other = wanted)) =
        late.find? (fun other => decide (key other = wanted)) := by
      apply List.find?_cons_of_neg
      simpa using Ne.symm same
    rw [if_neg same, lookup, lookup, removed, inorder, List.find?_append, List.find?_append, skip]

/-- With one element more, lookups find that one, and the others as before. -/
theorem lookup_inserted {larger : Tree α} (sorted : Sorted key larger)
    (inorder : tree.inorder = early ++ late) (inserted : larger.inorder = early ++ element :: late)
    (wanted : κ) :
    larger.lookup key wanted =
      if wanted = key element then some element else tree.lookup key wanted := by
  have removed := lookup_removed sorted inserted inorder wanted
  by_cases same : wanted = key element
  · rw [if_pos same, same]
    exact lookup_key sorted inserted
  · rw [if_neg same] at removed ⊢
    exact removed.symm

end Search

end Tree

end Dang
