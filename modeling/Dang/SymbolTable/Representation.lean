import Dang.Foundations.PointerTree
import Dang.SymbolTable.Basic

/-!
# The tree a symbol table holds

A symbol table holds a search tree of symbols. This file relates the storage to that
tree, leaving the parent pointers aside, and proves that lookups answer from the
tree.
-/

namespace Dang

/-- What a symbol binds: an identifier to a type and a referent. -/
structure Binding where
  identifier : ℕ
  flags : Flags32
  referent : ℕ
  deriving DecidableEq, Repr

/-- The identifier of a node, an address with the binding there. -/
def nodeIdentifier (node : ℕ × Binding) : ℕ := node.2.identifier

namespace Symbol

/-- A symbol without its parent pointer. -/
def cell (symbol : Symbol) : Cell Binding where
  left := symbol.leftChild
  right := symbol.rightChild
  value := ⟨symbol.identifier, symbol.flags, symbol.referent⟩

theorem cell_child (symbol : Symbol) (side : Side) :
    symbol.cell.child side = symbol.child side := by
  cases side with
  | left => rfl
  | right => rfl

theorem cell_setChild (symbol : Symbol) (target : ℕ) (side : Side) :
    (symbol.setChild target side).cell = symbol.cell.setChild target side := by
  cases side with
  | left => rfl
  | right => rfl

end Symbol

namespace SymbolHeap

/-- The symbols in storage, without their parent pointers. -/
def links (heap : SymbolHeap) (address : ℕ) : Option (Cell Binding) :=
  (heap.symbols address).map Symbol.cell

/-- The parent pointer of a symbol. -/
def parentAt (heap : SymbolHeap) (address : ℕ) : Option ℕ :=
  (heap.symbols address).map Symbol.parent

/-- The table holds the tree: its identifiers increase, and each node has its own address. -/
structure Holds (heap : SymbolHeap) (table : ℕ) (tree : Tree (ℕ × Binding)) : Prop where
  nonzero : table ≠ 0
  root : ∃ self, heap.tables table = some self ∧ Tree.Rep heap.links self.symbols tree
  nodup : tree.addresses.Nodup
  sorted : Tree.Sorted nodeIdentifier tree

/-- The local binding of an identifier, as a lookup finds it. -/
def binding (fuel : ℕ) (heap : SymbolHeap) (table identifier : ℕ) :
    Outcome (Option (Flags32 × ℕ)) := do
  let symbol ← heap.lookupLocal fuel table identifier
  if symbol = 0 then .ok none
  else do
    let node ← heap.read symbol
    .ok (some (node.flags, node.referent))

theorem links_eq_some {heap : SymbolHeap} {address : ℕ} {cell : Cell Binding} :
    heap.links address = some cell ↔
      ∃ symbol, heap.symbols address = some symbol ∧ symbol.cell = cell :=
  Option.map_eq_some_iff

theorem read_of {heap : SymbolHeap} {address : ℕ} {symbol : Symbol}
    (nonzero : address ≠ 0) (found : heap.symbols address = some symbol) :
    heap.read address = .ok symbol := by
  simp [read, nonzero, found]

theorem modify_of {heap : SymbolHeap} {address : ℕ} {symbol : Symbol}
    {change : Symbol → Symbol} (nonzero : address ≠ 0)
    (found : heap.symbols address = some symbol) :
    heap.modify address change = .ok (heap.set address (some (change symbol))) := by
  simp [modify, read_of nonzero found]

theorem readTable_of {heap : SymbolHeap} {address : ℕ} {table : SymbolTable}
    (nonzero : address ≠ 0) (found : heap.tables address = some table) :
    heap.readTable address = .ok table := by
  simp [readTable, nonzero, found]

theorem links_set (heap : SymbolHeap) (address : ℕ) (symbol : Option Symbol) :
    (heap.set address symbol).links =
      Function.update heap.links address (symbol.map Symbol.cell) := by
  funext other
  by_cases same : other = address
  · simp [links, set, same]
  · simp [links, set, same]

/-- Setting a parent pointer changes no link. -/
theorem setParent_of {heap : SymbolHeap} {address : ℕ} {cell : Cell Binding} (parent : ℕ)
    (nonzero : address ≠ 0) (found : heap.links address = some cell) :
    ∃ after, heap.setParent address parent = .ok after ∧ after.links = heap.links ∧
      after.tables = heap.tables ∧
      ∀ other, other ≠ address → after.symbols other = heap.symbols other := by
  rcases links_eq_some.mp found with ⟨symbol, atAddress, rfl⟩
  refine ⟨_, modify_of nonzero atAddress, ?_, rfl, ?_⟩
  · rw [links_set]
    exact Function.update_eq_self_iff.mpr found.symm
  · intro other different
    exact Function.update_of_ne different _ _

theorem setChild_of {heap : SymbolHeap} {address : ℕ} {cell : Cell Binding} (side : Side)
    (target : ℕ) (nonzero : address ≠ 0) (found : heap.links address = some cell) :
    ∃ after, heap.setChild address side target = .ok after ∧
      after.links = Function.update heap.links address (some (cell.setChild target side)) ∧
      after.tables = heap.tables ∧
      ∀ other, other ≠ address → after.symbols other = heap.symbols other := by
  rcases links_eq_some.mp found with ⟨symbol, atAddress, rfl⟩
  refine ⟨_, modify_of nonzero atAddress, ?_, rfl, ?_⟩
  · rw [links_set, Option.map_some, Symbol.cell_setChild]
  · intro other different
    exact Function.update_of_ne different _ _

/-- Setting a parent pointer sets that one. -/
theorem parentAt_setParent {heap after : SymbolHeap} {address parent : ℕ}
    (success : heap.setParent address parent = .ok after) :
    after.parentAt = Function.update heap.parentAt address (some parent) := by
  simp only [setParent, modify, Outcome.bind_eq_ok, Except.ok.injEq] at success
  rcases success with ⟨symbol, _, rfl⟩
  funext other
  by_cases same : other = address
  · simp [parentAt, set, same]
  · simp [parentAt, set, same]

/-- Setting a link to a child leaves the parent pointers. -/
theorem parentAt_setChild {heap after : SymbolHeap} {address target : ℕ} {side : Side}
    (success : heap.setChild address side target = .ok after) :
    after.parentAt = heap.parentAt := by
  simp only [setChild, modify, read, Outcome.bind_eq_ok, Except.ok.injEq] at success
  rcases success with ⟨symbol, reading, rfl⟩
  have atAddress : heap.symbols address = some symbol := by
    split_ifs at reading
    cases found : heap.symbols address with
    | none => simp [found] at reading
    | some other => simpa [found] using reading
  funext other
  by_cases same : other = address
  · subst same
    cases side with
    | left => simp [parentAt, set, atAddress, Symbol.setChild]
    | right => simp [parentAt, set, atAddress, Symbol.setChild]
  · simp [parentAt, set, same]

/-- The inner loop finds the node with the identifier, given as many rounds as nodes. -/
theorem searchScope_eq {heap : SymbolHeap} {root fuel : ℕ} {tree : Tree (ℕ × Binding)}
    (identifier : ℕ)
    (rep : Tree.Rep heap.links root tree) (sorted : Tree.Sorted nodeIdentifier tree)
    (enough : tree.inorder.length < fuel) :
    heap.searchScope identifier fuel root =
      .ok (((tree.lookup nodeIdentifier identifier).map Prod.fst).getD 0) := by
  induction tree generalizing root fuel with
  | leaf =>
      cases fuel with
      | zero => simp [Tree.inorder] at enough
      | succ fuel =>
          have empty : root = 0 := rep
          simp [searchScope, empty, Tree.lookup, Tree.inorder]
  | node left element right ihLeft ihRight =>
      rcases rep with ⟨rfl, nonzero, cell, found, value, leftRep, rightRep⟩
      rcases links_eq_some.mp found with ⟨symbol, atRoot, rfl⟩
      rcases sorted.parts with ⟨leftSorted, rightSorted, _, _⟩
      simp only [Tree.inorder, List.length_append, List.length_cons] at enough
      have identifierEq : symbol.identifier = nodeIdentifier element := by
        rw [nodeIdentifier, ← value]
        rfl
      cases fuel with
      | zero => omega
      | succ fuel =>
          simp only [searchScope, nonzero, if_false, read_of nonzero atRoot, Outcome.ok_bind,
            identifierEq]
          rw [Tree.lookup_eq sorted]
          by_cases less : identifier < nodeIdentifier element
          · simp only [less, if_true]
            exact ihLeft leftRep leftSorted (by omega)
          · by_cases greater : nodeIdentifier element < identifier
            · simp only [less, if_false, greater, if_true]
              exact ihRight rightRep rightSorted (by omega)
            · simp [less, greater]

/-- A lookup in the detached table answers from its tree. -/
theorem lookupLocal_eq {heap : SymbolHeap} {table identifier fuel : ℕ}
    {tree : Tree (ℕ × Binding)} (holds : heap.Holds table tree)
    (enough : tree.inorder.length + 1 < fuel) :
    heap.lookupLocal fuel table identifier =
      .ok (((tree.lookup nodeIdentifier identifier).map Prod.fst).getD 0) := by
  rcases holds.root with ⟨self, atTable, rep⟩
  have nonzero := holds.nonzero
  have detachedRep : Tree.Rep (heap.setTable table { self with parent := 0 }).links
      self.symbols tree := rep
  have detached : (heap.setTable table { self with parent := 0 }).tables table =
      some { self with parent := 0 } := Function.update_self _ _ _
  cases fuel with
  | zero => omega
  | succ fuel =>
      have search := searchScope_eq identifier detachedRep
        holds.sorted (show tree.inorder.length < fuel by omega)
      cases fuel with
      | zero => omega
      | succ fuel =>
          simp only [lookupLocal, readTable_of nonzero atTable, Outcome.ok_bind, lookup,
            Outcome.assertThat_of nonzero, searchScopes, nonzero, if_false,
            readTable_of nonzero detached, search, if_true]
          by_cases absent : ((tree.lookup nodeIdentifier identifier).map Prod.fst).getD 0 = 0
          · simp [absent]
          · simp [absent]

/-- Every node of the tree is in storage, at an address that is not null. -/
theorem live_of_mem {heap : SymbolHeap} {root : ℕ} {tree : Tree (ℕ × Binding)}
    {element : ℕ × Binding} (rep : Tree.Rep heap.links root tree)
    (mem : element ∈ tree.inorder) :
    element.1 ≠ 0 ∧ ∃ cell, heap.links element.1 = some cell ∧ cell.value = element.2 := by
  rcases Tree.exists_plug_of_mem mem with ⟨path, left, right, rfl⟩
  rcases Tree.rep_plug.mp rep with ⟨hole, _, rfl, nonzero, cell, found, value, _, _⟩
  exact ⟨nonzero, cell, found, value⟩

/-- What a lookup finds is the type and referent in the tree. -/
theorem binding_eq {heap : SymbolHeap} {table identifier fuel : ℕ}
    {tree : Tree (ℕ × Binding)} (holds : heap.Holds table tree)
    (enough : tree.inorder.length + 1 < fuel) :
    heap.binding fuel table identifier =
      .ok ((tree.lookup nodeIdentifier identifier).map fun node =>
        (node.2.flags, node.2.referent)) := by
  simp only [binding, lookupLocal_eq holds enough, Outcome.ok_bind]
  cases answer : tree.lookup nodeIdentifier identifier with
  | none => simp
  | some element =>
      rcases holds.root with ⟨self, _, rep⟩
      rcases live_of_mem rep (List.mem_of_find?_eq_some answer) with ⟨nonzero, cell, found, value⟩
      rcases links_eq_some.mp found with ⟨symbol, atElement, rfl⟩
      simp only [Option.map_some, Option.getD_some, nonzero, if_false,
        read_of nonzero atElement, Outcome.ok_bind, ← value, Symbol.cell]

end SymbolHeap

end Dang
