import Dang.Foundations.ParentPointers
import Dang.SymbolTable.Undefine

/-!
# Parent pointers across removals

Defining a symbol keeps every parent pointer right, and so does removing a symbol
without children. A removal that promotes an only child to a node other than the
root leaves that child pointing at the freed symbol, which its own removal follows.
-/

namespace Dang

namespace SymbolHeap

/-- The table holds a search tree in which each parent pointer is the node whose link leads
there, and the root's is null. -/
def Consistent (table : ℕ) (heap : SymbolHeap) : Prop :=
  ∃ tree, heap.Holds table tree ∧ Tree.Parented heap.parentAt 0 tree

/-- Removing any symbol with at most one child reads no freed symbol, and puts the child where
the symbol hung. -/
def TakesOut (table : ℕ) (heap : SymbolHeap) : Prop :=
  ∀ path left element right, heap.Holds table (Tree.plug path (.node left element right)) →
    left = .leaf ∨ right = .leaf →
      ∃ after new, (∀ fuel random, heap.detach fuel random table element.1 = .ok after) ∧
        Detached heap after table element.1 path new ∧
        new.inorder = left.inorder ++ right.inorder

/-- A call that removes a symbol finds it with one child or none. -/
def RemovesSingle (table : ℕ) (heap : SymbolHeap) (call : SymbolCall) : Prop :=
  match call with
  | .define _ _ _ => True
  | .undefine identifier _ => ∀ path left element right,
      heap.Holds table (Tree.plug path (.node left element right)) →
        nodeIdentifier element = identifier → left = .leaf ∨ right = .leaf

/-- A call that removes a symbol finds it at the root or without children. -/
def KeepsParents (table : ℕ) (heap : SymbolHeap) (call : SymbolCall) : Prop :=
  match call with
  | .define _ _ _ => True
  | .undefine identifier _ => ∀ path left element right,
      heap.Holds table (Tree.plug path (.node left element right)) →
        nodeIdentifier element = identifier → path = [] ∨ (left = .leaf ∧ right = .leaf)

theorem Holds.unique {heap : SymbolHeap} {table : ℕ} {tree other : Tree (ℕ × Binding)}
    (holds : heap.Holds table tree) (otherHolds : heap.Holds table other) : tree = other := by
  rcases holds.root with ⟨self, atTable, rep⟩
  rcases otherHolds.root with ⟨self', atTable', rep'⟩
  have same : self = self' := Option.some.inj (atTable.symm.trans atTable')
  subst same
  exact rep.unique rep'

/-- Symbols that are not in the tree can change. -/
theorem parented_set {heap : SymbolHeap} {address above : ℕ} {tree : Tree (ℕ × Binding)}
    (parented : Tree.Parented heap.parentAt above tree) (outside : address ∉ tree.addresses)
    (symbol : Option Symbol) : Tree.Parented (heap.set address symbol).parentAt above tree := by
  apply parented.congr
  intro other mem
  have different : other ≠ address := by
    rintro rfl
    exact outside mem
  simp [parentAt, set, different]

/-- Inserting a symbol whose parent pointer is null keeps the parent pointers right. -/
theorem Holds.insert_parented {heap after : SymbolHeap} {fuel table address : ℕ} {symbol : Symbol}
    {status : ℤ} {tree : Tree (ℕ × Binding)} (holds : heap.Holds table tree)
    (parented : Tree.Parented heap.parentAt 0 tree) (outside : address ∉ tree.addresses)
    (new : heap.symbols address = some symbol)
    (childless : symbol.leftChild = 0 ∧ symbol.rightChild = 0) (orphan : symbol.parent = 0)
    (success : heap.insert fuel table address = .ok (status, after)) :
    status = -1 ∧ after = heap ∨ status = 0 ∧ Consistent table after := by
  rcases holds.root with ⟨self, atTable, rep⟩
  simp only [SymbolHeap.insert, Outcome.bind_eq_ok, Outcome.assertThat_eq_ok,
    readTable_of holds.nonzero atTable, Except.ok.injEq] at success
  rcases success with ⟨_, _, _, nonzero, _, rfl, rest⟩
  split_ifs at rest with empty
  · simp only [setSymbols, Outcome.bind_eq_ok, readTable_of holds.nonzero atTable,
      Except.ok.injEq, Prod.mk.injEq] at rest
    rcases rest with ⟨_, ⟨_, rfl, rfl⟩, rfl, rfl⟩
    refine Or.inr ⟨rfl, .node .leaf (address, symbol.cell.value) .leaf, ⟨holds.nonzero,
      ⟨{ self with symbols := address }, Function.update_self _ _ _, ?_⟩, ?_, ?_⟩, ?_, trivial,
      trivial⟩
    · exact ⟨rfl, nonzero, symbol.cell, links_eq_some.mpr ⟨symbol, new, rfl⟩, rfl, childless.1,
        childless.2⟩
    · simp [Tree.addresses, Tree.inorder]
    · simp [Tree.Sorted, Tree.inorder]
    · simp [parentAt, setTable, new, orphan]
  · simp only [Outcome.bind_eq_ok, read_of nonzero new, Except.ok.injEq] at rest
    rcases rest with ⟨_, rfl, below⟩
    rcases insertBelow_eq_ok rep holds.sorted below with ⟨failed, same, _⟩ | ⟨done, inserted⟩
    · exact Or.inl ⟨failed, same⟩
    · rcases inserted with ⟨frame, above, rfl, smaller, larger, linked, linking, parenting⟩
      have held := (holds.linked nonzero outside new childless smaller larger linking parenting).1
      refine Or.inr ⟨done, _, held, ?_⟩
      have pointers : after.parentAt =
          Function.update heap.parentAt address (some frame.element.1) := by
        rw [parentAt_setParent parenting, parentAt_setChild linking]
      rw [pointers]
      apply Tree.parented_plug.mpr
      refine ⟨(Tree.parented_plug.mp parented).1.congr ?_, ?_, trivial, trivial⟩
      · intro other onPath
        apply Function.update_of_ne
        rintro rfl
        apply outside
        rw [(Tree.addresses_plug_perm _ _).mem_iff]
        exact List.mem_append_right _ onPath
      · exact Function.update_self _ _ _

/-- Defining a symbol keeps the parent pointers right. -/
theorem Consistent.define {heap after : SymbolHeap}
    {fuel address table identifier handle result : ℕ} {referents : Referents} {flags : Flags32}
    {released : List Owned} (consistent : Consistent table heap)
    (fresh : address ≠ 0 → heap.symbols address = none)
    (success : heap.define fuel referents address table identifier flags handle =
      .ok (result, released, after)) :
    Consistent table after := by
  rcases consistent with ⟨tree, holds, parented⟩
  simp only [SymbolHeap.define, Outcome.bind_eq_ok] at success
  rcases success with ⟨_, _, rest⟩
  split_ifs at rest with null
  · simp only [Except.ok.injEq, Prod.mk.injEq] at rest
    rcases rest with ⟨_, _, rfl⟩
    exact ⟨tree, holds, parented⟩
  · have outside := holds.not_mem (fresh null)
    simp only [Outcome.bind_eq_ok] at rest
    rcases rest with ⟨⟨type, referent⟩, _, ⟨status, inserted⟩, inserting, rest⟩
    have placed := parented_set parented outside
    rcases Holds.insert_parented (holds.set outside _) (placed _) outside
      (Function.update_self _ _ _) ⟨rfl, rfl⟩ rfl inserting with ⟨rfl, rfl⟩ | ⟨rfl, extended⟩
    · have failed : ¬(-1 : ℤ) = 0 := by decide
      simp only [failed, if_false, dispose, Outcome.bind_eq_ok, Except.ok.injEq,
        Prod.mk.injEq] at rest
      rcases rest with ⟨⟨units, disposed⟩, ⟨_, _, _, _, _, rfl⟩, _, _, rfl⟩
      exact ⟨tree, (holds.set outside _).set outside _, parented_set (placed _) outside _⟩
    · simp only [if_true, Except.ok.injEq, Prod.mk.injEq] at rest
      rcases rest with ⟨_, _, rfl⟩
      exact extended

section Removal

variable {heap after : SymbolHeap} {fuel table : ℕ} {random : BitVec 32}
  {path : List (Tree.Frame (ℕ × Binding))} {side : Side} {near : Tree (ℕ × Binding)}
  {element : ℕ × Binding}

/-- Taking out a symbol below the root, or one without children, leaves the parent pointers. -/
theorem parentAt_detach_below
    (holds : heap.Holds table (Tree.plug path (Tree.join side near element .leaf)))
    (parent : heap.parentAt element.1 = some (Tree.headAddress path))
    (below : path ≠ [] ∨ near = .leaf)
    (detaching : heap.detach fuel random table element.1 = .ok after) :
    after.parentAt = heap.parentAt := by
  rcases holds.place side near .leaf with ⟨self, symbol, place⟩
  have reading := read_of place.nonzero place.atSymbol
  have single := (detach_eq_single reading place.farRep).symm.trans detaching
  have pointers := parentAt_detachSingle reading single
  rw [place.parent parent] at pointers
  have kept : ¬(Tree.headAddress path = 0 ∧ symbol.child side ≠ 0) := by
    rintro ⟨top, some⟩
    rcases below with notRoot | childless
    · cases path with
      | nil => exact notRoot rfl
      | cons frame rest => exact place.above.1 top
    · exact some ((child_eq_zero_iff place.nearRep).mpr childless)
  rw [pointers, if_neg kept]

/-- Taking out the root makes its only child's parent pointer null. -/
theorem parentAt_detach_root {left right : Tree (ℕ × Binding)} {top : ℕ × Binding}
    (holds : heap.Holds table (Tree.join side (.node left top right) element .leaf))
    (parent : heap.parentAt element.1 = some 0)
    (detaching : heap.detach fuel random table element.1 = .ok after) :
    after.parentAt = Function.update heap.parentAt top.1 (some 0) := by
  have rooted : heap.Holds table
      (Tree.plug [] (Tree.join side (.node left top right) element .leaf)) := holds
  rcases rooted.place side (.node left top right) .leaf with ⟨self, symbol, place⟩
  have reading := read_of place.nonzero place.atSymbol
  have single := (detach_eq_single reading place.farRep).symm.trans detaching
  have pointers := parentAt_detachSingle reading single
  rcases place.nearRep with ⟨child, some, _⟩
  have atRoot : symbol.parent = 0 := place.parent parent
  rw [pointers, if_pos ⟨atRoot, some⟩, child]

/-- A removal at the root or of a symbol without children keeps the parent pointers right. -/
theorem parented_detach
    (holds : heap.Holds table (Tree.plug path (Tree.join side near element .leaf)))
    (parented : Tree.Parented heap.parentAt 0 (Tree.plug path (Tree.join side near element .leaf)))
    (keeps : path = [] ∨ near = .leaf)
    (detaching : heap.detach fuel random table element.1 = .ok after) :
    Tree.Parented after.parentAt 0 (Tree.plug path near) := by
  rcases Tree.parented_plug.mp parented with ⟨above, subtree⟩
  rcases Tree.parented_join.mp subtree with ⟨parent, nearParented, _⟩
  cases near with
  | leaf =>
      have same := parentAt_detach_below holds parent (Or.inr rfl) detaching
      rw [same]
      exact Tree.parented_plug.mpr ⟨above, trivial⟩
  | node left top right =>
      have root : path = [] := by
        rcases keeps with root | childless
        · exact root
        · cases childless
      subst root
      rw [parentAt_detach_root holds parent detaching]
      apply nearParented.rehang 0
      have distinct := (Tree.addresses_join_perm side _ _ element).nodup_iff.mp holds.nodup
      exact (List.nodup_append.mp (List.nodup_cons.mp distinct).2).1

/-- A removal that promotes a child below the root leaves it pointing at the freed symbol. -/
theorem not_parented_detach
    (holds : heap.Holds table (Tree.plug path (Tree.join side near element .leaf)))
    (parented : Tree.Parented heap.parentAt 0 (Tree.plug path (Tree.join side near element .leaf)))
    (below : path ≠ []) (promoted : near ≠ .leaf)
    (detaching : heap.detach fuel random table element.1 = .ok after) :
    ¬Tree.Parented after.parentAt 0 (Tree.plug path near) := by
  intro right
  rcases Tree.parented_plug.mp parented with ⟨_, subtree⟩
  rcases Tree.parented_join.mp subtree with ⟨parent, nearParented, _⟩
  have same := parentAt_detach_below holds parent (Or.inl below) detaching
  rw [same] at right
  rcases holds.place side near .leaf with ⟨_, _, place⟩
  have distinct := place.distinct
  cases near with
  | leaf => exact promoted rfl
  | node left top beyond =>
      cases path with
      | nil => exact below rfl
      | cons frame rest =>
          have stale := nearParented.1
          have required := (Tree.parented_plug.mp right).2.1
          have equal : element.1 = frame.element.1 :=
            Option.some.inj (stale.symm.trans required)
          rw [List.cons_append, List.nodup_cons] at distinct
          apply distinct.1
          rw [equal]
          exact List.mem_append_right _ (Tree.mem_pathAddresses_cons.mpr (Or.inl rfl))

end Removal

/-- The parent pointer of a symbol in the tree is the node above it. -/
theorem parentAt_of_parented {heap : SymbolHeap} {path : List (Tree.Frame (ℕ × Binding))}
    {left right : Tree (ℕ × Binding)} {element : ℕ × Binding}
    (parented : Tree.Parented heap.parentAt 0 (Tree.plug path (.node left element right))) :
    heap.parentAt element.1 = some (Tree.headAddress path) :=
  (Tree.parented_plug.mp parented).2.1

/-- A node with at most one child, seen from the side its child is on. -/
theorem exists_join {left right : Tree (ℕ × Binding)} (element : ℕ × Binding)
    (single : left = .leaf ∨ right = .leaf) :
    ∃ side near, Tree.node left element right = Tree.join side near element .leaf ∧
      (near = .leaf ↔ left = .leaf ∧ right = .leaf) ∧
      near.inorder = left.inorder ++ right.inorder := by
  rcases single with rfl | rfl
  · exact ⟨.right, right, rfl, by simp, rfl⟩
  · exact ⟨.left, left, rfl, by simp, by simp [Tree.inorder]⟩

/-- With the parent pointers right, a symbol with at most one child can be taken out. -/
theorem Consistent.takesOut {table : ℕ} {heap : SymbolHeap} (consistent : Consistent table heap) :
    TakesOut table heap := by
  rcases consistent with ⟨tree, holds, parented⟩
  intro path left element right held single
  rw [holds.unique held] at parented
  have parent := parentAt_of_parented parented
  rcases exists_join element single with ⟨side, near, joined, _, order⟩
  rw [joined] at held
  rcases detach_single held parent with ⟨after, detaching, detached⟩
  exact ⟨after, near, detaching, detached, order⟩

/-- A removal that returns takes the symbol bound to the identifier out, and frees it. -/
theorem Holds.undefine_bound {heap target : SymbolHeap} {table : ℕ} {random : BitVec 32}
    {released : List Owned} {path : List (Tree.Frame (ℕ × Binding))}
    {left right : Tree (ℕ × Binding)} {element : ℕ × Binding}
    (holds : heap.Holds table (Tree.plug path (.node left element right)))
    (returns : Outcome.Returns
      (fun fuel => heap.undefine fuel random table (nodeIdentifier element))
      (0, released, target)) :
    ∃ fuel after, heap.detach fuel random table element.1 = .ok after ∧
      target = after.set element.1 none := by
  rcases returns with ⟨least, returns⟩
  rcases Holds.place .left left right holds with ⟨_, _, place⟩
  have whole : (Tree.plug path (.node left element right)).inorder =
      (Tree.before path ++ left.inorder) ++ element :: (right.inorder ++ Tree.after path) := by
    simp [Tree.inorder_plug, Tree.inorder]
  have found := Tree.lookup_key holds.sorted whole
  have success := returns (least + ((Tree.plug path (.node left element right)).inorder.length + 2))
    (by omega)
  simp only [SymbolHeap.undefine, Outcome.assertThat_of holds.nonzero, Outcome.ok_bind,
    lookupLocal_eq holds (show (Tree.plug path (.node left element right)).inorder.length + 1 <
      least + ((Tree.plug path (.node left element right)).inorder.length + 2) by omega), found,
    Option.map_some, Option.getD_some, place.nonzero, if_false, Outcome.bind_eq_ok] at success
  rcases success with ⟨after, detaching, ⟨units, disposed⟩, disposing, result⟩
  simp only [dispose, Outcome.bind_eq_ok, Except.ok.injEq, Prod.mk.injEq] at disposing result
  rcases disposing with ⟨_, _, _, _, _, rfl⟩
  exact ⟨_, after, detaching, result.2.2.symm⟩

/-- A removal of an identifier that is not bound changes nothing. -/
theorem Holds.undefine_unbound {heap target : SymbolHeap} {table identifier : ℕ}
    {random : BitVec 32} {released : List Owned} {tree : Tree (ℕ × Binding)}
    (holds : heap.Holds table tree) (unbound : tree.lookup nodeIdentifier identifier = none)
    (returns : Outcome.Returns (fun fuel => heap.undefine fuel random table identifier)
      (0, released, target)) :
    target = heap := by
  rcases returns with ⟨least, returns⟩
  have success := returns (least + (tree.inorder.length + 2)) (by omega)
  simp only [SymbolHeap.undefine, Outcome.assertThat_of holds.nonzero, Outcome.ok_bind,
    lookupLocal_eq holds (show tree.inorder.length + 1 < least + (tree.inorder.length + 2) by omega),
    unbound, Option.map_none, Option.getD_none, if_true, Except.ok.injEq, Prod.mk.injEq] at success
  exact success.2.2.symm

/-- After a removal of a symbol with at most one child the parent pointers are right exactly when
the symbol was the root or had no children. -/
theorem Holds.undefine_consistent {heap after : SymbolHeap} {fuel table : ℕ} {random : BitVec 32}
    {path : List (Tree.Frame (ℕ × Binding))} {left right : Tree (ℕ × Binding)}
    {element : ℕ × Binding}
    (holds : heap.Holds table (Tree.plug path (.node left element right)))
    (parented : Tree.Parented heap.parentAt 0 (Tree.plug path (.node left element right)))
    (single : left = .leaf ∨ right = .leaf)
    (detaching : heap.detach fuel random table element.1 = .ok after) :
    Consistent table (after.set element.1 none) ↔
      path = [] ∨ (left = .leaf ∧ right = .leaf) := by
  have parent := parentAt_of_parented parented
  rcases exists_join element single with ⟨side, near, joined, childless, order⟩
  rw [joined] at holds parented
  rcases detach_single holds parent with ⟨other, otherDetaching, detached⟩
  have same : other = after := Except.ok.inj ((otherDetaching fuel random).symm.trans detaching)
  subst same
  have split : ∃ before beyond, (Tree.node left element right).inorder =
      before ++ element :: beyond ∧ near.inorder = before ++ beyond :=
    ⟨left.inorder, right.inorder, rfl, order⟩
  rcases split with ⟨before, beyond, oldOrder, newOrder⟩
  have whole := holds
  rw [← joined] at whole
  have held := whole.freed detached oldOrder newOrder
  have absent := held.not_mem (Function.update_self _ _ _)
  rw [← childless]
  constructor
  · rintro ⟨tree, treeHolds, treeParented⟩
    rw [treeHolds.unique held] at treeParented
    by_contra neither
    rw [not_or] at neither
    apply not_parented_detach holds parented neither.1 neither.2 detaching
    apply treeParented.congr
    intro address mem
    have different : address ≠ element.1 := by
      rintro rfl
      exact absent mem
    simp [parentAt, SymbolHeap.set, different]
  · intro keeps
    refine ⟨Tree.plug path near, held, ?_⟩
    exact parented_set (parented_detach holds parented keeps detaching) absent none

/-- A step that finds the symbol it removes at the root or without children keeps the parent
pointers right. -/
theorem Consistent.step {table : ℕ} {source target : SymbolHeap} {call : SymbolCall}
    (consistent : Consistent table source) (keeps : source.KeepsParents table call)
    (step : source.Step table call target ∧ source.RemovesSingle table call) :
    Consistent table target := by
  cases call with
  | define identifier flags handle =>
      rcases step.1 with ⟨referents, address, result, released, fresh, returns⟩
      rcases returns.exists_fuel with ⟨fuel, success⟩
      exact consistent.define fresh success
  | undefine identifier random =>
      rcases consistent with ⟨tree, holds, parented⟩
      rcases step.1 with ⟨released, returns⟩
      cases answer : tree.lookup nodeIdentifier identifier with
      | none =>
          rw [holds.undefine_unbound answer returns]
          exact ⟨tree, holds, parented⟩
      | some element =>
          have bound := List.find?_some answer
          simp only [decide_eq_true_eq] at bound
          rcases Tree.exists_plug_of_mem (List.mem_of_find?_eq_some answer) with
            ⟨path, left, right, rfl⟩
          subst bound
          rcases holds.undefine_bound returns with ⟨fuel, after, detaching, rfl⟩
          have single := step.2 path left element right holds rfl
          exact (holds.undefine_consistent parented single detaching).mpr
            (keeps path left element right holds rfl)

/-- A step that leaves the parent pointers right finds the symbol it removes at the root or
without children. -/
theorem Consistent.keepsParents {table : ℕ} {source target : SymbolHeap} {call : SymbolCall}
    (consistent : Consistent table source)
    (step : source.Step table call target ∧ source.RemovesSingle table call)
    (after : Consistent table target) : source.KeepsParents table call := by
  cases call with
  | define identifier flags handle => trivial
  | undefine identifier random =>
      intro path left element right held bound
      rcases consistent with ⟨tree, holds, parented⟩
      have same := holds.unique held
      subst same bound
      have single := step.2 path left element right holds rfl
      rcases step.1 with ⟨released, returns⟩
      rcases holds.undefine_bound returns with ⟨fuel, detached, detaching, rfl⟩
      exact (holds.undefine_consistent parented single detaching).mp after

theorem consistent_of_initial {table : ℕ} {heap : SymbolHeap} (initial : Initial table heap) :
    Consistent table heap := by
  rcases initial with ⟨nonzero, parent, atTable⟩
  refine ⟨.leaf, ⟨nonzero, ⟨_, atTable, rfl⟩, ?_, ?_⟩, trivial⟩
  · simp [Tree.addresses, Tree.inorder]
  · simp [Tree.Sorted, Tree.inorder]

/-- In the runs that only remove symbols with one child or none, the parent pointers are right and
every such symbol can be taken out, in every state, exactly when each symbol removed is the root
or has no children. -/
theorem consistent_iff_keepsParents {table : ℕ} {start : SymbolHeap}
    {steps : List (SymbolCall × SymbolHeap)} (initial : Initial table start)
    (run : IsRun (Step table) start steps) (single : StepsMeet (RemovesSingle table) start steps) :
    (∀ heap ∈ visited start steps, Consistent table heap ∧ TakesOut table heap) ↔
      StepsMeet (KeepsParents table) start steps := by
  apply IsRun.forall_visited_iff _ (Consistent table) _ _ _ (consistent_of_initial initial)
    (run.and_meet single)
  · intro source call target consistent keeps step
    exact consistent.step keeps step
  · intro heap consistent
    exact ⟨consistent, consistent.takesOut⟩
  · intro source call target consistent step after
    exact consistent.keepsParents step after.1

/-- A symbol is defined with one on each side of it, then the one on the left and the first are
removed. -/
def leafSteps : List (SymbolCall × SymbolHeap) :=
  [(.define 2 symbolFunction 7, emptyTable.bind 10 2),
    (.define 1 symbolFunction 7, (emptyTable.bind 10 2).bind 11 1),
    (.define 3 symbolFunction 7, ((emptyTable.bind 10 2).bind 11 1).bind 12 3),
    (.undefine 1 0, (((emptyTable.bind 10 2).bind 11 1).bind 12 3).unbind 1),
    (.undefine 2 0, ((((emptyTable.bind 10 2).bind 11 1).bind 12 3).unbind 1).unbind 2)]

theorem leafSteps_isRun : IsRun (Step 1) emptyTable leafSteps :=
  ⟨step_bind rfl fun _ => rfl, step_bind rfl fun _ => rfl, step_bind rfl fun _ => rfl,
    step_unbind fun _ => rfl, step_unbind fun _ => rfl, trivial⟩

theorem rep_triple : Tree.Rep (((emptyTable.bind 10 2).bind 11 1).bind 12 3).links 10
    (.node (.node .leaf (sampleNode 11 1) .leaf) (sampleNode 10 2)
      (.node .leaf (sampleNode 12 3) .leaf)) :=
  ⟨rfl, by decide, ⟨11, 12, ⟨2, symbolFunction, 7⟩⟩, rfl, rfl,
    ⟨rfl, by decide, ⟨0, 0, ⟨1, symbolFunction, 7⟩⟩, rfl, rfl, rfl, rfl⟩,
    rfl, by decide, ⟨0, 0, ⟨3, symbolFunction, 7⟩⟩, rfl, rfl, rfl, rfl⟩

theorem rep_pair : Tree.Rep ((((emptyTable.bind 10 2).bind 11 1).bind 12 3).unbind 1).links 10
    (.node .leaf (sampleNode 10 2) (.node .leaf (sampleNode 12 3) .leaf)) :=
  ⟨rfl, by decide, ⟨0, 12, ⟨2, symbolFunction, 7⟩⟩, rfl, rfl, rfl,
    rfl, by decide, ⟨0, 0, ⟨3, symbolFunction, 7⟩⟩, rfl, rfl, rfl, rfl⟩

theorem leafSteps_meet : StepsMeet (RemovesSingle 1) emptyTable leafSteps := by
  refine ⟨trivial, trivial, trivial, ?_, ?_, trivial⟩
  · intro path left element right holds bound
    rcases holds.found [⟨.left, sampleNode 10 2, .node .leaf (sampleNode 12 3) .leaf⟩] rfl
      rep_triple bound with ⟨_, empty, _, _⟩
    exact Or.inl empty
  · intro path left element right holds bound
    rcases holds.found [] rfl rep_pair bound with ⟨_, empty, _, _⟩
    exact Or.inl empty

theorem leafSteps_keep : StepsMeet (KeepsParents 1) emptyTable leafSteps := by
  refine ⟨trivial, trivial, trivial, ?_, ?_, trivial⟩
  · intro path left element right holds bound
    rcases holds.found [⟨.left, sampleNode 10 2, .node .leaf (sampleNode 12 3) .leaf⟩] rfl
      rep_triple bound with ⟨_, leftEmpty, _, rightEmpty⟩
    exact Or.inr ⟨leftEmpty, rightEmpty⟩
  · intro path left element right holds bound
    rcases holds.found [] rfl rep_pair bound with ⟨atRoot, _, _, _⟩
    exact Or.inl atRoot

theorem consistent_iff_keepsParents_leaf :
    StepsMeet (KeepsParents 1) emptyTable leafSteps ∧
      ((∀ heap ∈ visited emptyTable leafSteps, Consistent 1 heap ∧ TakesOut 1 heap) ↔
        StepsMeet (KeepsParents 1) emptyTable leafSteps) :=
  ⟨leafSteps_keep, consistent_iff_keepsParents ⟨by decide, 0, rfl⟩ leafSteps_isRun leafSteps_meet⟩

/-- Three symbols are defined, each the left child of the one before, and the second is removed. -/
def promotionSteps : List (SymbolCall × SymbolHeap) :=
  [(.define 3 symbolFunction 7, emptyTable.bind 10 3),
    (.define 2 symbolFunction 7, (emptyTable.bind 10 3).bind 11 2),
    (.define 1 symbolFunction 7, ((emptyTable.bind 10 3).bind 11 2).bind 12 1),
    (.undefine 2 0, (((emptyTable.bind 10 3).bind 11 2).bind 12 1).unbind 2)]

theorem promotionSteps_isRun : IsRun (Step 1) emptyTable promotionSteps :=
  ⟨step_bind rfl fun _ => rfl, step_bind rfl fun _ => rfl, step_bind rfl fun _ => rfl,
    step_unbind fun _ => rfl, trivial⟩

theorem rep_promotion : Tree.Rep (((emptyTable.bind 10 3).bind 11 2).bind 12 1).links 10
    (.node (.node (.node .leaf (sampleNode 12 1) .leaf) (sampleNode 11 2) .leaf)
      (sampleNode 10 3) .leaf) :=
  ⟨rfl, by decide, ⟨11, 0, ⟨3, symbolFunction, 7⟩⟩, rfl, rfl,
    ⟨rfl, by decide, ⟨12, 0, ⟨2, symbolFunction, 7⟩⟩, rfl, rfl,
      ⟨rfl, by decide, ⟨0, 0, ⟨1, symbolFunction, 7⟩⟩, rfl, rfl, rfl, rfl⟩, rfl⟩, rfl⟩

theorem promotionSteps_meet : StepsMeet (RemovesSingle 1) emptyTable promotionSteps := by
  refine ⟨trivial, trivial, trivial, ?_, trivial⟩
  intro path left element right holds bound
  rcases holds.found [⟨.left, sampleNode 10 3, .leaf⟩] rfl rep_promotion bound with
    ⟨_, _, _, empty⟩
  exact Or.inr empty

/-- After the second of three symbols is removed, the third points at it, and the removal of the
third follows that pointer. -/
theorem promotion_not_consistent :
    Initial 1 emptyTable ∧ IsRun (Step 1) emptyTable promotionSteps ∧
      StepsMeet (RemovesSingle 1) emptyTable promotionSteps ∧
      ∃ heap ∈ visited emptyTable promotionSteps, ¬Consistent 1 heap ∧
        ∀ fuel random, 9 ≤ fuel → heap.undefine fuel random 1 1 = .error .invalidAccess := by
  refine ⟨⟨by decide, 0, rfl⟩, promotionSteps_isRun, promotionSteps_meet,
    (((emptyTable.bind 10 3).bind 11 2).bind 12 1).unbind 2,
    by simp [visited, promotionSteps], ?_, ?_⟩
  · rintro ⟨tree, holds, parented⟩
    rcases holds.root with ⟨self, atTable, rep⟩
    have value : ((((emptyTable.bind 10 3).bind 11 2).bind 12 1).unbind 2).tables 1 =
        some ⟨0, 10⟩ := rfl
    cases value.symm.trans atTable
    have pair : Tree.Rep ((((emptyTable.bind 10 3).bind 11 2).bind 12 1).unbind 2).links 10
        (.node (.node .leaf (12, ⟨1, symbolFunction, 7⟩) .leaf)
          (10, ⟨3, symbolFunction, 7⟩) .leaf) :=
      ⟨rfl, by decide, ⟨12, 0, ⟨3, symbolFunction, 7⟩⟩, rfl, rfl,
        ⟨rfl, by decide, ⟨0, 0, ⟨1, symbolFunction, 7⟩⟩, rfl, rfl, rfl, rfl⟩, rfl⟩
    rw [rep.unique pair] at parented
    have stale : ((((emptyTable.bind 10 3).bind 11 2).bind 12 1).unbind 2).parentAt 12 =
        some 11 := rfl
    have required := stale.symm.trans parented.2.1.1
    simp at required
  · intro fuel random enough
    rcases Nat.exists_eq_add_of_le' enough with ⟨more, rfl⟩
    rfl

end SymbolHeap

end Dang
