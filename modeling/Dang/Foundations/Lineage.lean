import Mathlib.Data.List.Basic
import Mathlib.Data.List.Nodup
import Mathlib.Data.Nat.Notation

/-!
# Members that hold their parents

A list of members, the newest first, each with a parent that is older, or zero for none.
Something holds a member if it holds the member itself or one of its descendants. A
member without children that nothing holds can be taken out, and the rest are held as
before.
-/

namespace Dang

/-- The members, the newest first, each with its parent. -/
abbrev Lineage := List (ℕ × ℕ)

/-- The member is held: it is a root, or a member whose parent it is, is held. -/
inductive Held (parentOf : ℕ → ℕ → Prop) (root : ℕ → Prop) : ℕ → Prop
  | root {member : ℕ} (isRoot : root member) : Held parentOf root member
  | child {child member : ℕ} (isParent : parentOf child member)
      (held : Held parentOf root child) : Held parentOf root member

/-- What is held depends on what the parents and the roots are. -/
theorem Held.mono {parentOf parentOf' : ℕ → ℕ → Prop} {root root' : ℕ → Prop} {member : ℕ}
    (held : Held parentOf root member)
    (parents : ∀ child member, Held parentOf root child → parentOf child member →
      parentOf' child member)
    (roots : ∀ member, root member → root' member) : Held parentOf' root' member := by
  induction held with
  | root isRoot => exact .root (roots _ isRoot)
  | child isParent held ih => exact .child (parents _ _ held isParent) ih

namespace Lineage

variable {lineage newer older : Lineage} {member parent other : ℕ}

def members (lineage : Lineage) : List ℕ := lineage.map Prod.fst

/-- The number of children of a member. -/
def children (lineage : Lineage) (member : ℕ) : ℕ :=
  lineage.countP fun entry => entry.2 = member

/-- The lineage without a member. -/
def without (lineage : Lineage) (member : ℕ) : Lineage :=
  lineage.filter fun entry => entry.1 ≠ member

/-- The lineage without some members. -/
def withoutAll (lineage : Lineage) (taken : List ℕ) : Lineage :=
  lineage.filter fun entry => entry.1 ∉ taken

/-- The number of children of a member among some members. -/
def childrenAmong (lineage : Lineage) (taken : List ℕ) (member : ℕ) : ℕ :=
  taken.countP fun child => (child, member) ∈ lineage

/-- The members are distinct and not zero, and the parent of each is older. -/
def Ordered : Lineage → Prop
  | [] => True
  | (member, parent) :: older => member ≠ 0 ∧ member ∉ members older ∧
      (parent ≠ 0 → parent ∈ members older) ∧ Ordered older

theorem mem_members : member ∈ lineage.members ↔ ∃ parent, (member, parent) ∈ lineage := by
  simp [members]

theorem children_cons : children ((member, parent) :: older) other =
    older.children other + if parent = other then 1 else 0 := by
  simp [children, List.countP_cons]

theorem children_eq_zero : lineage.children member = 0 ↔
    ∀ child, (child, member) ∉ lineage := by
  simp only [children, List.countP_eq_zero, decide_eq_true_eq]
  constructor
  · intro none child mem
    exact none (child, member) mem rfl
  · rintro none ⟨child, parent⟩ mem rfl
    exact none child mem

theorem children_pos : 0 < lineage.children member ↔ ∃ child, (child, member) ∈ lineage := by
  rw [Nat.pos_iff_ne_zero, ne_eq, children_eq_zero]
  simp

theorem mem_without : (other, parent) ∈ lineage.without member ↔
    (other, parent) ∈ lineage ∧ other ≠ member := by
  simp [without]

theorem mem_members_without : other ∈ (lineage.without member).members ↔
    other ∈ lineage.members ∧ other ≠ member := by
  simp only [mem_members, mem_without]
  constructor
  · rintro ⟨parent, mem, different⟩
    exact ⟨⟨parent, mem⟩, different⟩
  · rintro ⟨⟨parent, mem⟩, different⟩
    exact ⟨parent, mem, different⟩

theorem without_of_not_mem (absent : member ∉ lineage.members) :
    lineage.without member = lineage := by
  apply List.filter_eq_self.mpr
  rintro ⟨other, parent⟩ mem
  simp only [decide_eq_true_eq]
  rintro rfl
  exact absent (mem_members.mpr ⟨parent, mem⟩)

theorem withoutAll_nil : lineage.withoutAll [] = lineage := by
  simp [withoutAll]

theorem withoutAll_cons (lineage : Lineage) (member : ℕ) (taken : List ℕ) :
    (lineage.without member).withoutAll taken = lineage.withoutAll (member :: taken) := by
  rw [withoutAll, without, List.filter_filter, withoutAll]
  apply List.filter_congr
  rintro ⟨other, parent⟩ _
  simp [Bool.and_comm]

theorem mem_members_withoutAll {taken : List ℕ} : other ∈ (lineage.withoutAll taken).members ↔
    other ∈ lineage.members ∧ other ∉ taken := by
  simp [members, withoutAll]

theorem children_withoutAll_le (lineage : Lineage) (taken : List ℕ) (member : ℕ) :
    (lineage.withoutAll taken).children member ≤ lineage.children member :=
  List.Sublist.countP_le List.filter_sublist

namespace Ordered

theorem ne_zero (ordered : lineage.Ordered) (mem : member ∈ lineage.members) : member ≠ 0 := by
  induction lineage with
  | nil => simp [members] at mem
  | cons entry older ih =>
      rcases List.mem_cons.mp mem with rfl | later
      · exact ordered.1
      · exact ih ordered.2.2.2 later

theorem nodup (ordered : lineage.Ordered) : lineage.members.Nodup := by
  induction lineage with
  | nil => exact List.nodup_nil
  | cons entry older ih => exact List.nodup_cons.mpr ⟨ordered.2.1, ih ordered.2.2.2⟩

/-- A parent is a member, and not its own child. -/
theorem parent_mem (ordered : lineage.Ordered) (mem : (member, parent) ∈ lineage)
    (nonzero : parent ≠ 0) : parent ∈ lineage.members ∧ parent ≠ member := by
  induction lineage with
  | nil => simp at mem
  | cons entry older ih =>
      rcases ordered with ⟨_, fresh, isOlder, later⟩
      rcases List.mem_cons.mp mem with rfl | inOlder
      · refine ⟨List.mem_cons_of_mem _ (isOlder nonzero), ?_⟩
        rintro rfl
        exact fresh (isOlder nonzero)
      · rcases ih later inOlder with ⟨isMember, different⟩
        exact ⟨List.mem_cons_of_mem _ isMember, different⟩

/-- A member has one parent. -/
theorem parent_unique (ordered : lineage.Ordered) (mem : (member, parent) ∈ lineage)
    (same : (member, other) ∈ lineage) : parent = other := by
  have pairs := List.inj_on_of_nodup_map ordered.nodup mem same rfl
  exact (Prod.mk.inj pairs).2

/-- Taking out a member takes it from the children of its parent. -/
theorem children_without (ordered : lineage.Ordered) (mem : (member, parent) ∈ lineage)
    (other : ℕ) : (lineage.without member).children other + (if parent = other then 1 else 0) =
      lineage.children other := by
  induction lineage with
  | nil => simp at mem
  | cons entry older ih =>
      rcases entry with ⟨first, firstParent⟩
      rcases ordered with ⟨_, fresh, _, later⟩
      rcases List.mem_cons.mp mem with same | inOlder
      · rcases Prod.mk.inj same with ⟨rfl, rfl⟩
        have gone : without ((member, parent) :: older) member = without older member := by
          simp [without]
        rw [gone, without_of_not_mem fresh, children_cons]
      · have different : first ≠ member := by
          rintro rfl
          exact fresh (mem_members.mpr ⟨parent, inOlder⟩)
        have kept : without ((first, firstParent) :: older) member =
            (first, firstParent) :: without older member := by
          simp [without, different]
        have others := ih later inOlder
        rw [kept, children_cons, children_cons]
        omega

theorem childrenAmong_cons {taken : List ℕ} (ordered : lineage.Ordered)
    (mem : (member, parent) ∈ lineage) (absent : member ∉ taken) (other : ℕ) :
    lineage.childrenAmong (member :: taken) other =
      (lineage.without member).childrenAmong taken other + if parent = other then 1 else 0 := by
  have first : (member, other) ∈ lineage ↔ parent = other := by
    constructor
    · exact ordered.parent_unique mem
    · rintro rfl
      exact mem
  have rest : taken.countP (fun child => decide ((child, other) ∈ lineage)) =
      taken.countP (fun child => decide ((child, other) ∈ lineage.without member)) := by
    apply List.countP_congr
    intro child inTaken
    have different : child ≠ member := by
      rintro rfl
      exact absent inTaken
    simp [mem_without, different]
  simp only [childrenAmong, List.countP_cons, first, rest, decide_eq_true_eq]

/-- Without a member that has no children, the parents are still members. -/
theorem without (ordered : lineage.Ordered) (childless : lineage.children member = 0) :
    (lineage.without member).Ordered := by
  induction lineage with
  | nil => trivial
  | cons entry older ih =>
      rcases entry with ⟨first, firstParent⟩
      rcases ordered with ⟨nonzero, fresh, isOlder, later⟩
      rw [children_cons] at childless
      have others := ih later (by omega)
      by_cases same : first = member
      · have gone : Lineage.without ((first, firstParent) :: older) member =
            Lineage.without older member := by
          simp [Lineage.without, same]
        rw [gone]
        exact others
      · have kept : Lineage.without ((first, firstParent) :: older) member =
            (first, firstParent) :: Lineage.without older member := by
          simp [Lineage.without, same]
        have notParent : firstParent ≠ member := by
          rintro rfl
          simp at childless
        rw [kept]
        refine ⟨nonzero, ?_, ?_, others⟩
        · intro mem
          exact fresh (mem_members_without.mp mem).1
        · intro some
          exact mem_members_without.mpr ⟨isOlder some, notParent⟩

/-- The children of a member are newer. -/
theorem child_newer (ordered : Ordered (newer ++ (member, parent) :: older))
    (mem : (other, member) ∈ newer ++ (member, parent) :: older) : other ∈ newer.members := by
  induction newer with
  | nil =>
      rcases ordered with ⟨nonzero, fresh, isOlder, later⟩
      rcases List.mem_cons.mp mem with same | inOlder
      · rcases Prod.mk.inj same with ⟨rfl, rfl⟩
        exact absurd (isOlder nonzero) fresh
      · exact absurd (later.parent_mem inOlder nonzero).1 fresh
  | cons entry newer ih =>
      rcases List.mem_cons.mp mem with rfl | later
      · exact List.mem_cons_self
      · exact List.mem_cons_of_mem _ (ih ordered.2.2.2 later)

/-- If each member is a root or has a child, all are held. -/
theorem forall_held {root : ℕ → Prop} (ordered : lineage.Ordered)
    (supported : ∀ member ∈ lineage.members, root member ∨ 0 < lineage.children member) :
    ∀ member ∈ lineage.members,
      Held (fun child parent => (child, parent) ∈ lineage) root member := by
  have fromNewer : ∀ newer rest : Lineage, lineage = newer ++ rest →
      (∀ member ∈ newer.members,
        Held (fun child parent => (child, parent) ∈ lineage) root member) →
      ∀ member ∈ rest.members,
        Held (fun child parent => (child, parent) ∈ lineage) root member := by
    intro newer rest
    induction rest generalizing newer with
    | nil =>
        intro _ _ member mem
        simp [members] at mem
    | cons entry older ih =>
        rcases entry with ⟨first, parent⟩
        intro split held
        have here : Held (fun child parent => (child, parent) ∈ lineage) root first := by
          rcases supported first (by simp [split, members]) with isRoot | hasChild
          · exact .root isRoot
          · rcases children_pos.mp hasChild with ⟨child, mem⟩
            have isNewer := child_newer (split ▸ ordered) (split ▸ mem)
            exact .child mem (held child isNewer)
        intro member mem
        rcases List.mem_cons.mp mem with rfl | later
        · exact here
        · apply ih (newer ++ [(first, parent)]) (by simp [split]) _ member later
          intro other inNewer
          simp only [members, List.map_append, List.map_cons, List.map_nil, List.mem_append,
            List.mem_singleton] at inNewer
          rcases inNewer with before | rfl
          · exact held other before
          · exact here
  exact fromNewer [] lineage rfl (by simp [members])

end Ordered

/-- Taking out a member without children that is no root leaves what is held. -/
theorem held_without {root : ℕ → Prop} (childless : lineage.children member = 0)
    (notRoot : ¬root member) :
    Held (fun child parent => (child, parent) ∈ lineage.without member) root other ↔
      Held (fun child parent => (child, parent) ∈ lineage) root other := by
  have notHeld : ¬Held (fun child parent => (child, parent) ∈ lineage) root member := by
    intro held
    cases held with
    | root isRoot => exact notRoot isRoot
    | child mem _ => exact children_eq_zero.mp childless _ mem
  constructor
  · intro held
    exact held.mono (fun child parent _ mem => (mem_without.mp mem).1) (fun _ isRoot => isRoot)
  · intro held
    apply held.mono _ (fun _ isRoot => isRoot)
    rintro child parent childHeld mem
    apply mem_without.mpr
    refine ⟨mem, ?_⟩
    rintro rfl
    exact notHeld childHeld

end Lineage

end Dang
