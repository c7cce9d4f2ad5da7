import Dang.SymbolTable.Representation

/-!
# Defining symbols

`symbol_define` adds the symbol at the end of the path its identifier leads to, or
leaves the table alone: the table still holds a search tree.
-/

namespace Dang

namespace SymbolHeap

/-- The new symbol hangs at the end of a path in the tree, where its identifier belongs. -/
def InsertedAt (heap after : SymbolHeap) (symbol identifier : ℕ) (tree : Tree (ℕ × Binding)) :
    Prop :=
  ∃ frame rest, tree = Tree.plug (frame :: rest) .leaf ∧
    (∀ node ∈ Tree.before (frame :: rest), nodeIdentifier node < identifier) ∧
    (∀ node ∈ Tree.after (frame :: rest), identifier < nodeIdentifier node) ∧
    ∃ linked, heap.setChild frame.element.1 frame.side symbol = .ok linked ∧
      linked.setParent symbol frame.element.1 = .ok after

/-- One table has a new node; the others, and the symbols outside the tree, are as before. -/
structure Adds (heap after : SymbolHeap) (table : ℕ) (tree larger : Tree (ℕ × Binding))
    (node : ℕ × Binding) : Prop where
  inorder : ∃ early late, tree.inorder = early ++ late ∧ larger.inorder = early ++ node :: late
  symbols : ∀ other, other ≠ node.1 → other ∉ tree.addresses →
    after.symbols other = heap.symbols other
  tables : ∀ other, other ≠ table → after.tables other = heap.tables other
  parent : (after.tables table).map SymbolTable.parent =
    (heap.tables table).map SymbolTable.parent

/-- A path in the child of a node goes on through the node. -/
theorem InsertedAt.below {heap after : SymbolHeap} {symbol identifier : ℕ}
    {child : Tree (ℕ × Binding)} (outer : Tree.Frame (ℕ × Binding))
    (inserted : InsertedAt heap after symbol identifier child)
    (smaller : ∀ node ∈ Tree.before [outer], nodeIdentifier node < identifier)
    (larger : ∀ node ∈ Tree.after [outer], identifier < nodeIdentifier node) :
    InsertedAt heap after symbol identifier (Tree.plug [outer] child) := by
  rcases inserted with ⟨frame, rest, rfl, before, after, step⟩
  refine ⟨frame, rest ++ [outer], ?_, ?_, ?_, step⟩
  · rw [← List.cons_append, Tree.plug_append]
  · intro node mem
    rw [← List.cons_append, Tree.before_append, List.mem_append] at mem
    rcases mem with outside | inside
    · exact smaller node outside
    · exact before node inside
  · intro node mem
    rw [← List.cons_append, Tree.after_append, List.mem_append] at mem
    rcases mem with inside | outside
    · exact after node inside
    · exact larger node outside

/-- Where the loop of `_symboltable_insert` ends: at a node with the identifier, or at a link
without a child to which the identifier leads. -/
theorem insertBelow_eq_ok {heap after : SymbolHeap} {symbol identifier fuel parent : ℕ}
    {status : ℤ} {tree : Tree (ℕ × Binding)} (rep : Tree.Rep heap.links parent tree)
    (sorted : Tree.Sorted nodeIdentifier tree)
    (success : heap.insertBelow symbol identifier fuel parent = .ok (status, after)) :
    status = -1 ∧ after = heap ∧ (∃ node ∈ tree.inorder, nodeIdentifier node = identifier) ∨
      status = 0 ∧ InsertedAt heap after symbol identifier tree := by
  induction tree generalizing parent fuel with
  | leaf =>
      cases fuel with
      | zero => simp [insertBelow] at success
      | succ fuel =>
          have empty : parent = 0 := rep
          simp [insertBelow, read, empty] at success
  | node left element right ihLeft ihRight =>
      rcases rep with ⟨rfl, nonzero, cell, found, value, leftRep, rightRep⟩
      rcases links_eq_some.mp found with ⟨node, atParent, rfl⟩
      rcases sorted.parts with ⟨leftSorted, rightSorted, below, above⟩
      have identifierEq : node.identifier = nodeIdentifier element := by
        rw [nodeIdentifier, ← value]
        rfl
      cases fuel with
      | zero => simp [insertBelow] at success
      | succ fuel =>
          simp only [insertBelow, read_of nonzero atParent, Outcome.ok_bind, identifierEq] at success
          by_cases less : identifier < nodeIdentifier element
          · have larger : ∀ other ∈ Tree.after [⟨.left, element, right⟩],
                identifier < nodeIdentifier other := by
              simp only [Tree.after, List.append_nil, List.mem_cons]
              rintro other (rfl | later)
              · exact less
              · exact less.trans (above other later)
            simp only [less, if_true] at success
            by_cases free : node.leftChild = 0
            · simp only [free, if_true, Outcome.bind_eq_ok, Except.ok.injEq,
                Prod.mk.injEq] at success
              rcases success with ⟨linked, linking, parented, parenting, rfl, rfl⟩
              have empty : left = .leaf := by
                cases left with
                | leaf => rfl
                | node _ _ _ => exact absurd free leftRep.2.1
              subst empty
              refine Or.inr ⟨rfl, ⟨.left, element, right⟩, [], rfl, ?_, larger, linked, linking,
                parenting⟩
              simp [Tree.before]
            · simp only [free, if_false] at success
              rcases ihLeft leftRep leftSorted success with ⟨failed, same, node, mem, taken⟩ | inserted
              · refine Or.inl ⟨failed, same, node, ?_, taken⟩
                exact List.mem_append_left _ mem
              · refine Or.inr ⟨inserted.1, ?_⟩
                exact inserted.2.below ⟨.left, element, right⟩ (by simp [Tree.before]) larger
          · by_cases greater : nodeIdentifier element < identifier
            · have smaller : ∀ other ∈ Tree.before [⟨.right, element, left⟩],
                  nodeIdentifier other < identifier := by
                simp only [Tree.before, List.nil_append, List.mem_append, List.mem_singleton]
                rintro other (earlier | rfl)
                · exact (below other earlier).trans greater
                · exact greater
              simp only [less, if_false, greater, if_true] at success
              by_cases free : node.rightChild = 0
              · simp only [free, if_true, Outcome.bind_eq_ok, Except.ok.injEq,
                  Prod.mk.injEq] at success
                rcases success with ⟨linked, linking, parented, parenting, rfl, rfl⟩
                have empty : right = .leaf := by
                  cases right with
                  | leaf => rfl
                  | node _ _ _ => exact absurd free rightRep.2.1
                subst empty
                refine Or.inr ⟨rfl, ⟨.right, element, left⟩, [], rfl, smaller, ?_, linked, linking,
                  parenting⟩
                simp [Tree.after]
              · simp only [free, if_false] at success
                rcases ihRight rightRep rightSorted success with
                  ⟨failed, same, node, mem, taken⟩ | inserted
                · refine Or.inl ⟨failed, same, node, ?_, taken⟩
                  exact List.mem_append_right _ (List.mem_cons_of_mem _ mem)
                · refine Or.inr ⟨inserted.1, ?_⟩
                  exact inserted.2.below ⟨.right, element, left⟩ smaller (by simp [Tree.after])
            · simp only [less, if_false, greater, Except.ok.injEq, Prod.mk.injEq] at success
              refine Or.inl ⟨success.1.symm, success.2.symm, element, ?_, ?_⟩
              · exact List.mem_append_right _ List.mem_cons_self
              · exact le_antisymm (not_lt.mp less) (not_lt.mp greater)

/-- Linking a symbol in storage to a node returns. -/
theorem link_returns {heap : SymbolHeap} {parent address : ℕ} {cell new : Cell Binding}
    (side : Side) (parentNonzero : parent ≠ 0) (found : heap.links parent = some cell)
    (nonzero : address ≠ 0) (present : heap.links address = some new)
    (different : address ≠ parent) :
    ∃ linked after, heap.setChild parent side address = .ok linked ∧
      linked.setParent address parent = .ok after := by
  rcases setChild_of side address parentNonzero found with ⟨linked, linking, links, _⟩
  have still : linked.links address = some new := by
    rw [links, Function.update_of_ne different]
    exact present
  rcases setParent_of parent nonzero still with ⟨after, parenting, _⟩
  exact ⟨linked, after, linking, parenting⟩

/-- The loop of `_symboltable_insert` ends, given as many rounds as nodes. -/
theorem insertBelow_returns {heap : SymbolHeap} {address fuel parent : ℕ} (identifier : ℕ)
    {new : Cell Binding} {tree : Tree (ℕ × Binding)} (rep : Tree.Rep heap.links parent tree)
    (root : parent ≠ 0) (nonzero : address ≠ 0) (present : heap.links address = some new)
    (outside : address ∉ tree.addresses) (enough : tree.inorder.length ≤ fuel) :
    ∃ result, heap.insertBelow address identifier fuel parent = .ok result := by
  induction tree generalizing parent fuel with
  | leaf => exact absurd rep root
  | node left element right ihLeft ihRight =>
      rcases rep with ⟨rfl, _, cell, found, value, leftRep, rightRep⟩
      rcases links_eq_some.mp found with ⟨node, atParent, rfl⟩
      simp only [Tree.inorder, List.length_append, List.length_cons] at enough
      simp only [Tree.addresses, Tree.inorder, List.map_append, List.map_cons, List.mem_append,
        List.mem_cons, not_or] at outside
      rcases outside with ⟨notLeft, different, notRight⟩
      cases fuel with
      | zero => omega
      | succ fuel =>
          simp only [insertBelow, read_of root atParent, Outcome.ok_bind]
          by_cases less : identifier < node.identifier
          · by_cases free : node.leftChild = 0
            · rcases link_returns .left root found nonzero present different with
                ⟨linked, after, linking, parenting⟩
              simp [less, free, linking, parenting]
            · simp only [less, free, if_true, if_false]
              exact ihLeft leftRep free notLeft (by omega)
          · by_cases greater : node.identifier < identifier
            · by_cases free : node.rightChild = 0
              · rcases link_returns .right root found nonzero present different with
                  ⟨linked, after, linking, parenting⟩
                simp [less, greater, free, linking, parenting]
              · simp only [less, greater, free, if_true, if_false]
                exact ihRight rightRep free notRight (by omega)
            · simp [less, greater]

/-- More rounds than the loop makes do not change what it does. -/
theorem insertBelow_mono {heap : SymbolHeap} {address identifier fuel more parent : ℕ}
    {result : ℤ × SymbolHeap} (le : fuel ≤ more)
    (success : heap.insertBelow address identifier fuel parent = .ok result) :
    heap.insertBelow address identifier more parent = .ok result := by
  induction fuel generalizing more parent with
  | zero => simp [insertBelow] at success
  | succ fuel ih =>
      cases more with
      | zero => omega
      | succ more =>
          simp only [insertBelow, Outcome.bind_eq_ok] at success ⊢
          rcases success with ⟨node, reads, rest⟩
          refine ⟨node, reads, ?_⟩
          split_ifs at rest ⊢ with less free greater free
          · exact rest
          · exact ih (by omega) rest
          · exact rest
          · exact ih (by omega) rest
          · exact rest

/-- Symbols that are not in the tree can change. -/
theorem Holds.set {heap : SymbolHeap} {table address : ℕ} {tree : Tree (ℕ × Binding)}
    (holds : heap.Holds table tree) (outside : address ∉ tree.addresses)
    (symbol : Option Symbol) : (heap.set address symbol).Holds table tree := by
  rcases holds with ⟨nonzero, ⟨self, atTable, rep⟩, nodup, sorted⟩
  refine ⟨nonzero, ⟨self, atTable, rep.congr ?_⟩, nodup, sorted⟩
  intro other mem
  rw [links_set]
  apply Function.update_of_ne
  exact fun same => outside (same ▸ mem)

theorem Holds.not_mem {heap : SymbolHeap} {table address : ℕ} {tree : Tree (ℕ × Binding)}
    (holds : heap.Holds table tree) (free : heap.symbols address = none) :
    address ∉ tree.addresses := by
  intro mem
  rcases Tree.mem_addresses.mp mem with ⟨element, inTree, rfl⟩
  rcases holds.root with ⟨self, _, rep⟩
  rcases live_of_mem rep inTree with ⟨_, cell, found, _⟩
  simp [links, free] at found

/-- A new symbol is linked in at the end of a path, where its identifier belongs. -/
theorem Holds.linked {heap linked after : SymbolHeap} {table address : ℕ} {symbol : Symbol}
    {frame : Tree.Frame (ℕ × Binding)} {rest : List (Tree.Frame (ℕ × Binding))}
    (holds : heap.Holds table (Tree.plug (frame :: rest) .leaf)) (nonzero : address ≠ 0)
    (outside : address ∉ (Tree.plug (frame :: rest) .leaf).addresses)
    (new : heap.symbols address = some symbol)
    (childless : symbol.leftChild = 0 ∧ symbol.rightChild = 0)
    (smaller : ∀ node ∈ Tree.before (frame :: rest), nodeIdentifier node < symbol.identifier)
    (larger : ∀ node ∈ Tree.after (frame :: rest), symbol.identifier < nodeIdentifier node)
    (linking : heap.setChild frame.element.1 frame.side address = .ok linked)
    (parenting : linked.setParent address frame.element.1 = .ok after) :
    after.Holds table (Tree.plug (frame :: rest) (.node .leaf (address, symbol.cell.value) .leaf)) ∧
      Adds heap after table (Tree.plug (frame :: rest) .leaf)
        (Tree.plug (frame :: rest) (.node .leaf (address, symbol.cell.value) .leaf))
        (address, symbol.cell.value) := by
  rcases holds with ⟨tableNonzero, ⟨self, atTable, rep⟩, nodup, sorted⟩
  rcases Tree.rep_plug.mp rep with ⟨hole, above, holeEmpty⟩
  have distinct := Tree.nodup_plug.mp nodup
  simp only [Tree.addresses, Tree.inorder, List.map_nil, List.nil_append] at distinct
  have notOnPath : address ∉ Tree.pathAddresses (frame :: rest) := by
    intro mem
    apply outside
    rw [(Tree.addresses_plug_perm _ _).mem_iff]
    exact List.mem_append_right _ mem
  rcases above with ⟨frameNonzero, cell, found, value, child, sibling, aboveRest⟩
  rcases setChild_of frame.side address frameNonzero found with
    ⟨linked', linking', links, tables, symbols⟩
  have same : linked' = linked := Except.ok.inj (linking'.symm.trans linking)
  subst same
  have different : address ≠ frame.element.1 := by
    intro equal
    exact notOnPath (equal ▸ Tree.mem_pathAddresses_cons.mpr (Or.inl rfl))
  have newLinks : linked'.links address = some symbol.cell := by
    rw [links, Function.update_of_ne different]
    exact links_eq_some.mpr ⟨symbol, new, rfl⟩
  rcases setParent_of frame.element.1 nonzero newLinks with
    ⟨after', parenting', linksAfter, tablesAfter, symbolsAfter⟩
  have sameAfter : after' = after := Except.ok.inj (parenting'.symm.trans parenting)
  subst sameAfter
  have changed : after'.links frame.element.1 = some (cell.setChild address frame.side) := by
    rw [linksAfter, links, Function.update_self]
  have agree : ∀ other, other ≠ frame.element.1 → after'.links other = heap.links other := by
    intro other elsewhere
    rw [linksAfter, links, Function.update_of_ne elsewhere]
  have path : Tree.Hole after'.links (frame :: rest) address self.symbols := by
    apply Tree.Hole.refill ⟨frameNonzero, cell, found, value, child, sibling, aboveRest⟩ found
      changed (Tree.nodup_pathAddresses_cons distinct)
    intro other _ elsewhere
    exact agree other elsewhere
  have leafNode : Tree.Rep after'.links address
      (.node .leaf (address, symbol.cell.value) .leaf) := by
    refine ⟨rfl, nonzero, symbol.cell, ?_, rfl, childless.1, childless.2⟩
    rw [linksAfter]
    exact newLinks
  have onPath : frame.element.1 ∈ (Tree.plug (frame :: rest) .leaf).addresses := by
    rw [(Tree.addresses_plug_perm _ _).mem_iff]
    exact List.mem_append_right _ (Tree.mem_pathAddresses_cons.mpr (Or.inl rfl))
  refine ⟨⟨tableNonzero, ⟨self, ?_, Tree.rep_plug.mpr ⟨address, path, leafNode⟩⟩, ?_, ?_⟩,
    ⟨?_, ?_, ?_, ?_⟩⟩
  · rw [tablesAfter, tables]
    exact atTable
  · rw [Tree.nodup_plug]
    simp only [Tree.addresses, Tree.inorder, List.map_nil, List.nil_append, List.map_cons,
      List.singleton_append, List.nodup_cons]
    exact ⟨notOnPath, distinct⟩
  · simp only [Tree.Sorted, Tree.inorder_plug, Tree.inorder, List.nil_append,
      List.singleton_append, List.pairwise_append, List.pairwise_cons, List.mem_cons] at sorted ⊢
    rcases sorted with ⟨beforeSorted, afterSorted, across⟩
    refine ⟨beforeSorted, ⟨larger, afterSorted⟩, ?_⟩
    rintro first early second (rfl | late)
    · exact smaller first early
    · exact across first early second late
  · exact ⟨_, _, Tree.inorder_plug _ _, Tree.inorder_plug _ _⟩
  · intro other notNew notInTree
    rw [symbolsAfter other notNew]
    apply symbols other
    exact fun same => notInTree (same ▸ onPath)
  · intro other _
    rw [tablesAfter, tables]
  · rw [tablesAfter, tables]

/-- The tree with a new symbol at the end of the path its identifier leads to. -/
theorem Holds.insertedAt {heap after : SymbolHeap} {table address : ℕ} {symbol : Symbol}
    {tree : Tree (ℕ × Binding)} (holds : heap.Holds table tree) (nonzero : address ≠ 0)
    (outside : address ∉ tree.addresses) (new : heap.symbols address = some symbol)
    (childless : symbol.leftChild = 0 ∧ symbol.rightChild = 0)
    (inserted : InsertedAt heap after address symbol.identifier tree) :
    ∃ larger, after.Holds table larger ∧
      Adds heap after table tree larger (address, symbol.cell.value) := by
  rcases inserted with ⟨frame, rest, rfl, smaller, larger, linked, linking, parenting⟩
  exact ⟨_, holds.linked nonzero outside new childless smaller larger linking parenting⟩

/-- Inserting a symbol adds it to the tree, or fails and changes nothing. -/
theorem Holds.insert {heap after : SymbolHeap} {fuel table address : ℕ} {symbol : Symbol}
    {status : ℤ} {tree : Tree (ℕ × Binding)} (holds : heap.Holds table tree)
    (outside : address ∉ tree.addresses) (new : heap.symbols address = some symbol)
    (childless : symbol.leftChild = 0 ∧ symbol.rightChild = 0)
    (success : heap.insert fuel table address = .ok (status, after)) :
    status = -1 ∧ after = heap ∧
        (∃ node ∈ tree.inorder, nodeIdentifier node = symbol.identifier) ∨
      status = 0 ∧ ∃ larger, after.Holds table larger ∧
        Adds heap after table tree larger (address, symbol.cell.value) := by
  rcases holds.root with ⟨self, atTable, rep⟩
  simp only [SymbolHeap.insert, Outcome.bind_eq_ok, Outcome.assertThat_eq_ok,
    readTable_of holds.nonzero atTable, Except.ok.injEq] at success
  rcases success with ⟨_, _, _, nonzero, _, rfl, rest⟩
  by_cases empty : self.symbols = 0
  · simp only [empty, if_true, setSymbols, Outcome.bind_eq_ok,
      readTable_of holds.nonzero atTable, Except.ok.injEq, Prod.mk.injEq] at rest
    rcases rest with ⟨_, ⟨_, rfl, rfl⟩, rfl, rfl⟩
    have nothing : tree = .leaf := by
      cases tree with
      | leaf => rfl
      | node _ _ _ => exact absurd empty rep.2.1
    subst nothing
    refine Or.inr ⟨rfl, .node .leaf (address, symbol.cell.value) .leaf, ⟨holds.nonzero,
      ⟨{ self with symbols := address }, Function.update_self _ _ _, ?_⟩, ?_, ?_⟩,
      ⟨⟨[], [], rfl, rfl⟩, fun _ _ _ => rfl, ?_, ?_⟩⟩
    · exact ⟨rfl, nonzero, symbol.cell, links_eq_some.mpr ⟨symbol, new, rfl⟩, rfl, childless.1,
        childless.2⟩
    · simp [Tree.addresses, Tree.inorder]
    · simp [Tree.Sorted, Tree.inorder]
    · intro other elsewhere
      exact Function.update_of_ne elsewhere _ _
    · simp [setTable, atTable]
  · simp only [empty, if_false, Outcome.bind_eq_ok, read_of nonzero new, Except.ok.injEq] at rest
    rcases rest with ⟨_, rfl, below⟩
    rcases insertBelow_eq_ok rep holds.sorted below with unchanged | inserted
    · exact Or.inl unchanged
    · exact Or.inr ⟨inserted.1, holds.insertedAt nonzero outside new childless inserted.2⟩

/-- Inserting a symbol returns. -/
theorem Holds.insert_returns {heap : SymbolHeap} {table address : ℕ} {symbol : Symbol}
    {tree : Tree (ℕ × Binding)} (holds : heap.Holds table tree) (nonzero : address ≠ 0)
    (outside : address ∉ tree.addresses) (new : heap.symbols address = some symbol) :
    ∃ result, Outcome.Returns (fun fuel => heap.insert fuel table address) result := by
  rcases holds.root with ⟨self, atTable, rep⟩
  simp only [SymbolHeap.insert, Outcome.assertThat_of holds.nonzero, Outcome.assertThat_of nonzero,
    readTable_of holds.nonzero atTable, Outcome.ok_bind]
  by_cases empty : self.symbols = 0
  · simp only [empty, if_true, setSymbols, readTable_of holds.nonzero atTable, Outcome.ok_bind]
    exact ⟨_, 0, fun _ _ => rfl⟩
  · simp only [empty, if_false, read_of nonzero new, Outcome.ok_bind]
    have present : heap.links address = some symbol.cell := links_eq_some.mpr ⟨symbol, new, rfl⟩
    rcases insertBelow_returns symbol.identifier rep empty nonzero present outside
      (Nat.le_refl _) with ⟨result, inserted⟩
    exact ⟨result, _, fun fuel enough => insertBelow_mono enough inserted⟩

/-- Defining a symbol at a fresh address leaves a table that holds a search tree. -/
theorem Holds.define {heap after : SymbolHeap} {fuel address table identifier handle result : ℕ}
    {referents : Referents} {flags : Flags32} {released : List Owned}
    {tree : Tree (ℕ × Binding)} (holds : heap.Holds table tree)
    (fresh : address ≠ 0 → heap.symbols address = none)
    (success : heap.define fuel referents address table identifier flags handle =
      .ok (result, released, after)) :
    ∃ other, after.Holds table other := by
  simp only [SymbolHeap.define, Outcome.bind_eq_ok] at success
  rcases success with ⟨_, _, rest⟩
  by_cases null : address = 0
  · simp only [null, if_true, Except.ok.injEq, Prod.mk.injEq] at rest
    rcases rest with ⟨_, _, rfl⟩
    exact ⟨tree, holds⟩
  · have outside := holds.not_mem (fresh null)
    simp only [null, if_false, Outcome.bind_eq_ok] at rest
    rcases rest with ⟨⟨type, referent⟩, _, ⟨status, inserted⟩, inserting, rest⟩
    rcases Holds.insert (holds.set outside _) outside (Function.update_self _ _ _) ⟨rfl, rfl⟩
      inserting with ⟨rfl, rfl, _⟩ | ⟨rfl, larger, extended, _⟩
    · have failed : ¬(-1 : ℤ) = 0 := by decide
      simp only [failed, if_false, dispose, Outcome.bind_eq_ok, Except.ok.injEq,
        Prod.mk.injEq] at rest
      rcases rest with ⟨⟨units, disposed⟩, ⟨_, _, _, _, _, rfl⟩, _, _, rfl⟩
      exact ⟨tree, (holds.set outside _).set outside _⟩
    · simp only [if_true, Except.ok.injEq, Prod.mk.injEq] at rest
      rcases rest with ⟨_, _, rfl⟩
      exact ⟨larger, extended⟩

end SymbolHeap

end Dang
