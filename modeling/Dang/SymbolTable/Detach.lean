import Dang.SymbolTable.Define

/-!
# Taking a symbol out of its tree

`symbol_undefine` takes a symbol out of the search tree when the parent pointers it
follows are right and, for a symbol with two children, the replacement lies deeper
than the symbol's own child and has a child to leave behind. Where the replacement
has none, a null pointer is followed; where it is the symbol's own child, it becomes
its own child; and a removal that hands an only child up to its grandparent leaves
that child's parent pointer behind.
-/

namespace Dang

namespace SymbolHeap

/-- The storage after a symbol was taken out of the tree: `new` hangs where it hung, and the
symbol itself is as it was. -/
structure Detached (heap after : SymbolHeap) (table symbol : ℕ)
    (path : List (Tree.Frame (ℕ × Binding))) (new : Tree (ℕ × Binding)) : Prop where
  root : ∃ self, after.tables table = some self ∧
    Tree.Rep after.links self.symbols (Tree.plug path new)
  kept : after.symbols symbol = heap.symbols symbol

theorem relink_of {heap : SymbolHeap} {table symbol : ℕ} {self : SymbolTable}
    {path : List (Tree.Frame (ℕ × Binding))} (target : ℕ) (tableNonzero : table ≠ 0)
    (atTable : heap.tables table = some self)
    (above : Tree.Hole heap.links path symbol self.symbols)
    (nodup : (Tree.pathAddresses path).Nodup) (outside : symbol ∉ Tree.pathAddresses path)
    (nonzero : symbol ≠ 0) :
    ∃ after other, heap.relink table (Tree.headAddress path) symbol target = .ok after ∧
      after.tables table = some other ∧ Tree.Hole after.links path target other.symbols ∧
      ∀ address, address ∉ Tree.pathAddresses path →
        after.symbols address = heap.symbols address := by
  cases path with
  | nil =>
      refine ⟨heap.setTable table { self with symbols := target },
        { self with symbols := target }, ?_, Function.update_self _ _ _, rfl, fun _ _ => rfl⟩
      simp [relink, Tree.headAddress, setSymbols, readTable_of tableNonzero atTable]
  | cons frame rest =>
      rcases above with ⟨frameNonzero, cell, found, value, child, sibling, aboveRest⟩
      rcases setChild_of frame.side target frameNonzero found with
        ⟨after, setting, links, tables, others⟩
      rcases links_eq_some.mp found with ⟨node, atFrame, rfl⟩
      refine ⟨after, self, ?_, ?_, ?_, ?_⟩
      · simp only [relink, Tree.headAddress, frameNonzero, if_false,
          read_of frameNonzero atFrame, Outcome.ok_bind]
        rcases frame with ⟨side, element, tree⟩
        cases side with
        | left =>
            have left : node.leftChild = symbol := child
            simp only [left, if_true]
            exact setting
        | right =>
            have right : node.rightChild = symbol := child
            have notLeft : node.leftChild ≠ symbol := by
              intro same
              cases tree with
              | leaf =>
                  have empty : node.leftChild = 0 := sibling
                  exact nonzero (same.symm.trans empty)
              | node below other beyond =>
                  have top : node.leftChild = other.1 := sibling.1
                  apply outside
                  apply Tree.mem_pathAddresses_cons.mpr
                  refine Or.inr (Or.inl ?_)
                  simp [Tree.addresses, Tree.inorder, ← same, top]
            simp only [notLeft, if_false, right, if_true]
            exact setting
      · rw [tables]
        exact atTable
      · apply Tree.Hole.refill ⟨frameNonzero, node.cell, found, value, child, sibling, aboveRest⟩
          found (by rw [links, Function.update_self]) (Tree.nodup_pathAddresses_cons nodup)
        intro address _ elsewhere
        rw [links, Function.update_of_ne elsewhere]
      · intro address away
        apply others
        exact fun same => away (Tree.mem_pathAddresses_cons.mpr (Or.inl same))

theorem links_congr {heap after : SymbolHeap} {address : ℕ}
    (same : after.symbols address = heap.symbols address) :
    after.links address = heap.links address := by
  rw [links, same, links]

/-- The storage agrees with another on the nodes of a tree. -/
theorem rep_congr {heap after : SymbolHeap} {root : ℕ} {tree : Tree (ℕ × Binding)}
    (rep : Tree.Rep heap.links root tree)
    (same : ∀ address ∈ tree.addresses, after.symbols address = heap.symbols address) :
    Tree.Rep after.links root tree :=
  rep.congr fun address mem => links_congr (same address mem)

/-- The root of a tree is in storage, unless the tree is empty. -/
theorem root_live {heap : SymbolHeap} {root : ℕ} {tree : Tree (ℕ × Binding)}
    (rep : Tree.Rep heap.links root tree) (nonzero : root ≠ 0) :
    root ∈ tree.addresses ∧ ∃ cell, heap.links root = some cell := by
  cases tree with
  | leaf => exact absurd rep nonzero
  | node left element right =>
      rcases rep with ⟨rfl, _, cell, found, _, _, _⟩
      refine ⟨?_, cell, found⟩
      simp [Tree.addresses, Tree.inorder]

/-- What a symbol's place in the tree of a table gives: where it hangs, its cell and its two
subtrees, all at different addresses. -/
structure Place (heap : SymbolHeap) (table : ℕ) (path : List (Tree.Frame (ℕ × Binding)))
    (side : Side) (near : Tree (ℕ × Binding)) (element : ℕ × Binding)
    (far : Tree (ℕ × Binding)) (owner : SymbolTable) (symbol : Symbol) : Prop where
  tableNonzero : table ≠ 0
  atTable : heap.tables table = some owner
  nonzero : element.1 ≠ 0
  atSymbol : heap.symbols element.1 = some symbol
  value : symbol.cell.value = element.2
  above : Tree.Hole heap.links path element.1 owner.symbols
  nearRep : Tree.Rep heap.links (symbol.child side) near
  farRep : Tree.Rep heap.links (symbol.child side.opposite) far
  distinct : (element.1 :: (near.addresses ++ far.addresses) ++ Tree.pathAddresses path).Nodup

theorem Holds.place {heap : SymbolHeap} {table : ℕ} {path : List (Tree.Frame (ℕ × Binding))}
    {element : ℕ × Binding} (side : Side) (near far : Tree (ℕ × Binding))
    (holds : heap.Holds table (Tree.plug path (Tree.join side near element far))) :
    ∃ self symbol, Place heap table path side near element far self symbol := by
  rcases holds with ⟨tableNonzero, ⟨self, atTable, rep⟩, nodup, _⟩
  rcases Tree.rep_plug.mp rep with ⟨hole, above, subtree⟩
  rcases Tree.rep_join.mp subtree with ⟨rfl, nonzero, cell, found, value, nearRep, farRep⟩
  rcases links_eq_some.mp found with ⟨symbol, atSymbol, rfl⟩
  rw [Symbol.cell_child] at nearRep farRep
  refine ⟨self, symbol, tableNonzero, atTable, nonzero, atSymbol, value, above, nearRep, farRep, ?_⟩
  have perm := (Tree.addresses_join_perm side near far element).append_right
    (Tree.pathAddresses path)
  exact perm.nodup_iff.mp (Tree.nodup_plug.mp nodup)

/-- Taking out a symbol with one child or none hangs the child in its place. -/
theorem detachSingle_of {heap : SymbolHeap} {table : ℕ} {path : List (Tree.Frame (ℕ × Binding))}
    {side : Side} {near : Tree (ℕ × Binding)} {element : ℕ × Binding} {self : SymbolTable}
    {symbol : Symbol} (place : Place heap table path side near element .leaf self symbol)
    (parent : symbol.parent = Tree.headAddress path) :
    ∃ after, heap.detachSingle table element.1 (symbol.child side) = .ok after ∧
      Detached heap after table element.1 path near := by
  rcases place with ⟨tableNonzero, atTable, nonzero, atSymbol, _, above, nearRep, _, distinct⟩
  simp only [Tree.addresses, Tree.inorder, List.map_nil, List.append_nil, List.cons_append,
    List.nodup_cons, List.mem_append, not_or, List.nodup_append] at distinct
  rcases distinct with ⟨⟨notNear, notPath⟩, _, pathNodup, disjoint⟩
  rcases relink_of (symbol.child side) tableNonzero atTable above pathNodup notPath nonzero with
    ⟨linked, other, relinking, atOther, hole, same⟩
  have nearLinked : Tree.Rep linked.links (symbol.child side) near := by
    apply rep_congr nearRep
    intro address mem
    apply same
    exact fun onPath => disjoint address mem address onPath rfl
  have whole := Tree.rep_plug.mpr ⟨_, hole, nearLinked⟩
  have kept := same element.1 notPath
  simp only [detachSingle, read_of nonzero atSymbol, Outcome.ok_bind, parent, relinking]
  by_cases top : Tree.headAddress path = 0 ∧ symbol.child side ≠ 0
  · rcases root_live nearLinked top.2 with ⟨inNear, cell, found⟩
    rcases setParent_of 0 top.2 found with ⟨after, setting, links, tables, others⟩
    refine ⟨after, ?_, ⟨other, ?_, ?_⟩, ?_⟩
    · simp only [top, not_false_eq_true, and_self, if_true, ne_eq]
      exact setting
    · rw [tables]
      exact atOther
    · rw [links]
      exact whole
    · rw [others element.1 (fun equal => notNear (equal ▸ inNear))]
      exact kept
  · exact ⟨linked, if_neg top, ⟨other, atOther, whole⟩, kept⟩

/-- Relinking leaves the parent pointers. -/
theorem parentAt_relink {heap after : SymbolHeap} {table parent symbol target : ℕ}
    (success : heap.relink table parent symbol target = .ok after) :
    after.parentAt = heap.parentAt := by
  simp only [relink] at success
  split_ifs at success with top
  · simp only [setSymbols, Outcome.bind_eq_ok, Except.ok.injEq] at success
    rcases success with ⟨self, _, rfl⟩
    rfl
  · simp only [Outcome.bind_eq_ok] at success
    rcases success with ⟨node, _, rest⟩
    split_ifs at rest with isLeft isRight
    · exact parentAt_setChild rest
    · exact parentAt_setChild rest
    · rw [Except.ok.inj rest]

/-- Taking out a symbol with one child or none changes the parent pointer of that child only if
the symbol is the root. -/
theorem parentAt_detachSingle {heap after : SymbolHeap} {table address child : ℕ} {symbol : Symbol}
    (reading : heap.read address = .ok symbol)
    (success : heap.detachSingle table address child = .ok after) :
    after.parentAt = if symbol.parent = 0 ∧ child ≠ 0 then
      Function.update heap.parentAt child (some 0) else heap.parentAt := by
  simp only [detachSingle, reading, Outcome.ok_bind, Outcome.bind_eq_ok] at success
  rcases success with ⟨linked, relinking, rest⟩
  have same := parentAt_relink relinking
  split_ifs at rest with top
  · rw [if_pos top, parentAt_setParent rest, same]
  · rw [if_neg top, ← Except.ok.inj rest, same]

/-- Walking to one side along a path that only goes there reaches its end. -/
theorem lastChild_plug {heap : SymbolHeap} {side : Side} {steps : List (Tree.Frame (ℕ × Binding))}
    {hole root : ℕ} (fuel : ℕ) (above : Tree.Hole heap.links steps hole root)
    (sameSide : ∀ frame ∈ steps, frame.side = side) (nonzero : hole ≠ 0) :
    heap.lastChild side (fuel + steps.length) root = heap.lastChild side fuel hole := by
  induction steps generalizing hole fuel with
  | nil =>
      have equal : root = hole := above
      rw [equal]
      rfl
  | cons frame rest ih =>
      rcases above with ⟨frameNonzero, cell, found, _, child, _, aboveRest⟩
      rcases links_eq_some.mp found with ⟨node, atFrame, rfl⟩
      have frameSide := sameSide frame List.mem_cons_self
      rw [frameSide, Symbol.cell_child] at child
      have up := ih (fuel + 1) aboveRest
        (fun other mem => sameSide other (List.mem_cons_of_mem _ mem)) frameNonzero
      have rounds : fuel + (frame :: rest).length = fuel + 1 + rest.length := by
        simp only [List.length_cons]
        omega
      rw [rounds, up]
      simp only [lastChild, read_of frameNonzero atFrame, Outcome.ok_bind, child, nonzero, ne_eq,
        not_false_eq_true, if_true]

/-- Walking one side of a subtree ends at its last node. -/
theorem lastChild_reaches {heap : SymbolHeap} {side : Side}
    {steps : List (Tree.Frame (ℕ × Binding))} {last root fuel : ℕ} {symbol : Symbol}
    (above : Tree.Hole heap.links steps last root) (sameSide : ∀ frame ∈ steps, frame.side = side)
    (nonzero : last ≠ 0) (atLast : heap.symbols last = some symbol)
    (bottom : symbol.child side = 0) (enough : steps.length < fuel) :
    heap.lastChild side fuel root = .ok last := by
  have rounds : fuel = fuel - steps.length - 1 + 1 + steps.length := by omega
  rw [rounds, lastChild_plug _ above sameSide nonzero]
  simp [lastChild, read_of nonzero atLast, bottom]

/-- The replacement leaves its child to its parent. -/
theorem reconnect_of {heap : SymbolHeap} {side : Side} {replacement : Symbol}
    {frame : Tree.Frame (ℕ × Binding)} {rest : List (Tree.Frame (ℕ × Binding))}
    {last : ℕ × Binding} {inner : Tree (ℕ × Binding)} {root : ℕ}
    (above : Tree.Hole heap.links (frame :: rest) last.1 root)
    (frameSide : frame.side = side.opposite) (nonzero : last.1 ≠ 0)
    (atLast : heap.symbols last.1 = some replacement)
    (innerRep : Tree.Rep heap.links (replacement.child side) inner) (notEmpty : inner ≠ .leaf)
    (parent : replacement.parent = frame.element.1)
    (distinct : (inner.addresses ++ Tree.pathAddresses (frame :: rest)).Nodup) :
    ∃ after, heap.reconnect side last.1 = .ok after ∧
      Tree.Rep after.links root (Tree.plug (frame :: rest) inner) ∧
      after.tables = heap.tables ∧
      (∀ other, other ≠ frame.element.1 → after.links other = heap.links other) ∧
      ∀ other, other ≠ frame.element.1 → other ∉ inner.addresses →
        after.symbols other = heap.symbols other := by
  rcases above with ⟨frameNonzero, cell, found, value, child, sibling, aboveRest⟩
  have innerNonzero : replacement.child side ≠ 0 := by
    cases inner with
    | leaf => exact absurd rfl notEmpty
    | node left element right => exact innerRep.2.1
  simp only [List.nodup_append] at distinct
  rcases distinct with ⟨_, pathNodup, disjoint⟩
  have notInner : frame.element.1 ∉ inner.addresses := by
    intro mem
    exact disjoint _ mem _ (Tree.mem_pathAddresses_cons.mpr (Or.inl rfl)) rfl
  rcases setChild_of side.opposite (replacement.child side) frameNonzero
    found with ⟨linked, linking, links, tables, others⟩
  have changed : linked.links frame.element.1 =
      some (cell.setChild (replacement.child side) frame.side) := by
    rw [links, Function.update_self, frameSide]
  have elsewhere : ∀ other, other ≠ frame.element.1 → linked.links other = heap.links other := by
    intro other different
    rw [links, Function.update_of_ne different]
  have path : Tree.Hole linked.links (frame :: rest) (replacement.child side) root := by
    apply Tree.Hole.refill ⟨frameNonzero, cell, found, value, child, sibling, aboveRest⟩ found
      changed (Tree.nodup_pathAddresses_cons pathNodup)
    intro other _ different
    exact elsewhere other different
  have innerLinked : Tree.Rep linked.links (replacement.child side) inner := by
    apply innerRep.congr
    intro other mem
    exact elsewhere other (fun equal => notInner (equal ▸ mem))
  rcases root_live innerLinked innerNonzero with ⟨inInner, innerCell, innerFound⟩
  rcases setParent_of frame.element.1 innerNonzero innerFound with
    ⟨after, setting, linksAfter, tablesAfter, othersAfter⟩
  rcases links_eq_some.mp changed with ⟨joined, atJoin, joinedCell⟩
  have joinedChild : joined.child side.opposite = replacement.child side := by
    rw [← Symbol.cell_child, joinedCell, frameSide, Cell.child_setChild]
  refine ⟨after, ?_, ?_, ?_, ?_, ?_⟩
  · simp only [reconnect, read_of nonzero atLast, Outcome.ok_bind, parent, linking,
      read_of frameNonzero atJoin, joinedChild]
    exact setting
  · rw [linksAfter]
    exact Tree.rep_plug.mpr ⟨_, path, innerLinked⟩
  · rw [tablesAfter, tables]
  · intro other different
    rw [linksAfter, elsewhere other different]
  · intro other different outside
    rw [othersAfter other (fun equal => outside (equal ▸ inInner)), others other different]

/-- The replacement gets the symbol's child on one side. -/
theorem adopt_of {heap : SymbolHeap} {side : Side} {symbol : Symbol} {address replacement : ℕ}
    {cell : Cell Binding} (nonzero : address ≠ 0) (atSymbol : heap.symbols address = some symbol)
    (replacementNonzero : replacement ≠ 0) (found : heap.links replacement = some cell)
    (childLive : symbol.child side ≠ 0 → ∃ child, heap.links (symbol.child side) = some child) :
    ∃ after, heap.adopt side replacement address = .ok after ∧
      after.links = Function.update heap.links replacement
        (some (cell.setChild (symbol.child side) side)) ∧
      after.tables = heap.tables ∧
      ∀ other, other ≠ replacement → other ≠ symbol.child side →
        after.symbols other = heap.symbols other := by
  rcases setChild_of side (symbol.child side) replacementNonzero found with
    ⟨linked, linking, links, tables, others⟩
  simp only [adopt, read_of nonzero atSymbol, Outcome.ok_bind, linking]
  by_cases childless : symbol.child side = 0
  · refine ⟨linked, ?_, links, tables, fun other different _ => others other different⟩
    simp [childless]
  · have live : ∃ child, linked.links (symbol.child side) = some child := by
      rw [links]
      by_cases same : symbol.child side = replacement
      · rw [same]
        exact ⟨_, Function.update_self _ _ _⟩
      · rw [Function.update_of_ne same]
        exact childLive childless
    rcases live with ⟨child, childFound⟩
    rcases setParent_of replacement childless childFound with
      ⟨after, setting, linksAfter, tablesAfter, othersAfter⟩
    refine ⟨after, ?_, ?_, ?_, ?_⟩
    · simp only [childless, ne_eq, not_false_eq_true, if_true]
      exact setting
    · rw [linksAfter, links]
    · rw [tablesAfter, tables]
    · intro other different notChild
      rw [othersAfter other notChild, others other different]

/-- The replacement gets both of the symbol's children. -/
theorem adoptBoth_of {heap : SymbolHeap} {symbol : Symbol} {address replacement : ℕ}
    {cell : Cell Binding} (nonzero : address ≠ 0) (atSymbol : heap.symbols address = some symbol)
    (replacementNonzero : replacement ≠ 0) (found : heap.links replacement = some cell)
    (different : address ≠ replacement) (notChild : ∀ side, address ≠ symbol.child side)
    (childLive : ∀ side, symbol.child side ≠ 0 →
      ∃ child, heap.links (symbol.child side) = some child) :
    ∃ middle after, heap.adopt .left replacement address = .ok middle ∧
      middle.adopt .right replacement address = .ok after ∧
      after.links = Function.update heap.links replacement (some
        ((cell.setChild (symbol.child .left) .left).setChild (symbol.child .right) .right)) ∧
      after.tables = heap.tables ∧ after.symbols address = some symbol := by
  rcases adopt_of nonzero atSymbol replacementNonzero found (childLive .left) with
    ⟨middle, first, links, tables, others⟩
  have atMiddle : middle.symbols address = some symbol :=
    (others address different (notChild .left)).trans atSymbol
  have foundMiddle : middle.links replacement =
      some (cell.setChild (symbol.child .left) .left) := by
    rw [links, Function.update_self]
  have live : symbol.child .right ≠ 0 →
      ∃ child, middle.links (symbol.child .right) = some child := by
    intro some
    by_cases same : symbol.child .right = replacement
    · exact ⟨_, same ▸ foundMiddle⟩
    · rw [links, Function.update_of_ne same]
      exact childLive .right some
  rcases adopt_of nonzero atMiddle replacementNonzero foundMiddle live with
    ⟨after, second, linksAfter, tablesAfter, othersAfter⟩
  refine ⟨middle, after, first, second, ?_, tablesAfter.trans tables, ?_⟩
  · rw [linksAfter, links, Function.update_idem]
  · rw [othersAfter address different (notChild .right)]
    exact atMiddle

/-- A replacement inherits both children and the parent of the symbol it replaces. -/
theorem inherit_of {heap : SymbolHeap} {symbol : Symbol} {address replacement : ℕ}
    {cell : Cell Binding} (parent : ℕ) (nonzero : address ≠ 0)
    (atSymbol : heap.symbols address = some symbol)
    (replacementNonzero : replacement ≠ 0) (found : heap.links replacement = some cell)
    (different : address ≠ replacement) (notChild : ∀ side, address ≠ symbol.child side)
    (childLive : ∀ side, symbol.child side ≠ 0 →
      ∃ child, heap.links (symbol.child side) = some child) :
    ∃ first second after, heap.adopt .left replacement address = .ok first ∧
      first.adopt .right replacement address = .ok second ∧
      second.setParent replacement parent = .ok after ∧
      after.links = Function.update heap.links replacement (some
        ((cell.setChild (symbol.child .left) .left).setChild (symbol.child .right) .right)) ∧
      after.tables = heap.tables ∧ second.symbols address = some symbol ∧
      after.symbols address = some symbol := by
  rcases adoptBoth_of nonzero atSymbol replacementNonzero found different notChild childLive with
    ⟨first, second, adoptLeft, adoptRight, linksSecond, tablesSecond, atSecond⟩
  have foundSecond : second.links replacement = some
      ((cell.setChild (symbol.child .left) .left).setChild (symbol.child .right) .right) := by
    rw [linksSecond, Function.update_self]
  rcases setParent_of parent replacementNonzero foundSecond with
    ⟨after, parenting, linksAfter, tablesAfter, symbolsAfter⟩
  refine ⟨first, second, after, adoptLeft, adoptRight, parenting, linksAfter.trans linksSecond,
    tablesAfter.trans tablesSecond, atSecond, ?_⟩
  rw [symbolsAfter address different]
  exact atSecond

/-- Taking out a symbol with two children puts the last node of one subtree in its place. -/
theorem detachDouble_of {heap : SymbolHeap} {table : ℕ}
    {path steps : List (Tree.Frame (ℕ × Binding))} {side : Side}
    {far inner : Tree (ℕ × Binding)} {element last : ℕ × Binding}
    {self : SymbolTable} {symbol replacement : Symbol}
    (place : Place heap table path side
      (Tree.plug steps (Tree.join side.opposite .leaf last inner)) element far self symbol)
    (parent : symbol.parent = Tree.headAddress path) (deeper : steps ≠ [])
    (sameSide : ∀ frame ∈ steps, frame.side = side.opposite) (notEmpty : inner ≠ .leaf)
    (atLast : heap.symbols last.1 = some replacement)
    (lastParent : replacement.parent = Tree.headAddress steps) :
    ∃ after, (∀ fuel, steps.length < fuel →
        heap.detachDouble fuel side table element.1 = .ok after) ∧
      Detached heap after table element.1 path
        (Tree.join side (Tree.plug steps inner) last far) := by
  rcases place with ⟨tableNonzero, atTable, nonzero, atSymbol, _, above, nearRep, farRep, distinct⟩
  rcases Tree.rep_plug.mp nearRep with ⟨_, nearAbove, lastRep⟩
  rcases Tree.rep_join.mp lastRep with ⟨rfl, lastNonzero, cell, found, lastValue, ends, innerRep⟩
  have cellEq : cell = replacement.cell := by
    have atCell := links_eq_some.mpr ⟨replacement, atLast, rfl⟩
    exact Option.some.inj (found.symm.trans atCell)
  subst cellEq
  rw [Side.opposite_opposite, Symbol.cell_child] at innerRep
  -- Every address below is one of these, and they are all different.
  have apart : (element.1 :: last.1 :: (inner.addresses ++ Tree.pathAddresses steps) ++
      far.addresses ++ Tree.pathAddresses path).Nodup := by
    have node := Tree.addresses_join_perm side.opposite .leaf inner last
    have subtree := (Tree.addresses_plug_perm steps (Tree.join side.opposite .leaf last inner)).trans
      (node.append_right _)
    have whole := ((subtree.append_right far.addresses).cons element.1).append_right
      (Tree.pathAddresses path)
    simpa [Tree.addresses, Tree.inorder] using whole.nodup_iff.mp (by simpa using distinct)
  simp only [List.cons_append, List.nodup_cons, List.mem_cons, List.mem_append, not_or,
    List.nodup_append, List.append_assoc] at apart
  rcases apart with ⟨⟨notLast, notInner, notSteps, notFar, notPath⟩,
    ⟨lastNotInner, lastNotSteps, lastNotFar, lastNotPath⟩, innerNodup,
    ⟨stepsNodup, ⟨_, pathNodup, farPath⟩, stepsRest⟩, innerRest⟩
  cases steps with
  | nil => exact absurd rfl deeper
  | cons frame rest =>
      have frameStep : frame.element.1 ∈ Tree.pathAddresses (frame :: rest) :=
        Tree.mem_pathAddresses_cons.mpr (Or.inl rfl)
      rcases reconnect_of nearAbove (sameSide frame List.mem_cons_self) lastNonzero atLast
          innerRep notEmpty lastParent (List.nodup_append.mpr
            ⟨innerNodup, stepsNodup, fun a mem b onPath => innerRest a mem b (Or.inl onPath)⟩) with
        ⟨first, reconnecting, nearFirst, tablesFirst, linksFirst, symbolsFirst⟩
      have atFirst : first.symbols element.1 = some symbol := by
        rw [symbolsFirst element.1 (fun same => notSteps (same ▸ frameStep)) notInner]
        exact atSymbol
      have foundFirst : first.links last.1 = some replacement.cell := by
        rw [linksFirst last.1 (fun same => lastNotSteps (same ▸ frameStep))]
        exact found
      have farFirst : Tree.Rep first.links (symbol.child side.opposite) far := by
        apply farRep.congr
        intro address mem
        apply linksFirst
        exact fun same => stepsRest _ frameStep address (Or.inl mem) same.symm
      have nearMem : ∀ address, address ∈ (Tree.plug (frame :: rest) inner).addresses ↔
          address ∈ inner.addresses ∨ address ∈ Tree.pathAddresses (frame :: rest) := by
        intro address
        rw [(Tree.addresses_plug_perm _ _).mem_iff, List.mem_append]
      have children : ∀ other, symbol.child other ≠ 0 →
          (symbol.child other ∈ (Tree.plug (frame :: rest) inner).addresses ∨
            symbol.child other ∈ far.addresses) ∧
          ∃ child, first.links (symbol.child other) = some child := by
        intro other some
        rcases Side.eq_or_opposite side other with rfl | rfl
        · rcases root_live nearFirst some with ⟨mem, live⟩
          exact ⟨Or.inl mem, live⟩
        · rcases root_live farFirst some with ⟨mem, live⟩
          exact ⟨Or.inr mem, live⟩
      have notChild : ∀ other, element.1 ≠ symbol.child other := by
        intro other same
        rcases (children other (same ▸ nonzero)).1 with inNear | inFar
        · rw [← same, nearMem] at inNear
          exact inNear.elim notInner notSteps
        · exact notFar (same ▸ inFar)
      rcases inherit_of symbol.parent nonzero atFirst lastNonzero foundFirst notLast notChild
          (fun other some => (children other some).2) with
        ⟨second, third, fourth, adoptLeft, adoptRight, parenting, linksFourth, tablesFourth,
          atThird, atFourth⟩
      have elsewhere : ∀ address, address ≠ last.1 →
          fourth.links address = first.links address := by
        intro address different
        rw [linksFourth, Function.update_of_ne different]
      have aboveFourth : Tree.Hole fourth.links path element.1 self.symbols := by
        apply above.congr
        intro address mem
        rw [elsewhere address (fun same => lastNotPath (same ▸ mem)), linksFirst]
        exact fun same => stepsRest _ frameStep address (Or.inr mem) same.symm
      have atTableFourth : fourth.tables table = some self := by
        rw [tablesFourth, tablesFirst]
        exact atTable
      have newFourth : Tree.Rep fourth.links last.1
          (Tree.join side (Tree.plug (frame :: rest) inner) last far) := by
        have foundFourth := Function.update_self last.1 (some
          ((replacement.cell.setChild (symbol.child .left) .left).setChild
            (symbol.child .right) .right)) first.links
        rw [← linksFourth] at foundFourth
        refine Tree.rep_join.mpr ⟨rfl, lastNonzero, _, foundFourth, ?_, ?_, ?_⟩
        · exact lastValue
        · rw [Cell.child_setBoth]
          apply nearFirst.congr
          intro address mem
          apply elsewhere
          rintro rfl
          exact ((nearMem _).mp mem).elim lastNotInner lastNotSteps
        · rw [Cell.child_setBoth]
          apply farFirst.congr
          intro address mem
          exact elsewhere address (fun same => lastNotFar (same ▸ mem))
      rcases relink_of last.1 tableNonzero atTableFourth aboveFourth pathNodup notPath nonzero with
        ⟨fifth, other, relinking, atOther, hole, symbolsFifth⟩
      have newFifth : Tree.Rep fifth.links last.1
          (Tree.join side (Tree.plug (frame :: rest) inner) last far) := by
        apply rep_congr newFourth
        intro address mem
        apply symbolsFifth
        intro onPath
        rw [(Tree.addresses_join_perm _ _ _ _).mem_iff, List.mem_cons, List.mem_append,
          nearMem] at mem
        rcases mem with rfl | (inInner | inSteps) | inFar
        · exact lastNotPath onPath
        · exact innerRest address inInner address (Or.inr (Or.inr onPath)) rfl
        · exact stepsRest address inSteps address (Or.inr onPath) rfl
        · exact farPath address inFar address onPath rfl
      have bottom : replacement.child side.opposite = 0 := by
        rw [← Symbol.cell_child]
        exact ends
      refine ⟨fifth, ?_, ⟨other, atOther, Tree.rep_plug.mpr ⟨_, hole, newFifth⟩⟩, ?_⟩
      · intro fuel enough
        have walk := lastChild_reaches nearAbove sameSide lastNonzero atLast bottom enough
        simp only [detachDouble, read_of nonzero atSymbol, Outcome.ok_bind, walk,
          reconnecting, adoptLeft, adoptRight, read_of nonzero atThird, parenting]
        rw [parent]
        exact relinking
      · rw [symbolsFifth element.1 notPath, atFourth]
        exact atSymbol.symm

/-- The node that would replace a symbol lies deeper than the root of the subtree it is taken
from, has a child to leave behind, and its parent pointer is right. -/
def Replaceable (heap : SymbolHeap) (side : Side) (subtree : Tree (ℕ × Binding)) : Prop :=
  ∃ steps last inner, subtree = Tree.plug steps (Tree.join side.opposite .leaf last inner) ∧
    (∀ frame ∈ steps, frame.side = side.opposite) ∧ steps ≠ [] ∧ inner ≠ .leaf ∧
    heap.parentAt last.1 = some (Tree.headAddress steps)

/-- The symbol at the end of a path in the tree can be taken out: its parent pointer is right,
with two children it has a replacement, and it holds no null reference. -/
structure Detachable (heap : SymbolHeap) (random : BitVec 32)
    (path : List (Tree.Frame (ℕ × Binding))) (left : Tree (ℕ × Binding)) (element : ℕ × Binding)
    (right : Tree (ℕ × Binding)) : Prop where
  parent : heap.parentAt element.1 = some (Tree.headAddress path)
  replaceable : left ≠ .leaf → right ≠ .leaf →
    heap.Replaceable (reconnectSide random) ((reconnectSide random).pick left right)
  releasable : Symbol.kind element.2.flags ≠ none → element.2.referent ≠ 0

/-- The symbol bound to the identifier, if there is one, can be taken out. -/
def Removable (heap : SymbolHeap) (table identifier : ℕ) (random : BitVec 32) : Prop :=
  ∀ path left element right, heap.Holds table (Tree.plug path (.node left element right)) →
    nodeIdentifier element = identifier → heap.Detachable random path left element right

theorem child_eq_zero_iff {heap : SymbolHeap} {root : ℕ} {tree : Tree (ℕ × Binding)}
    (rep : Tree.Rep heap.links root tree) : root = 0 ↔ tree = .leaf := by
  cases tree with
  | leaf => exact iff_of_true rep rfl
  | node left element right => simp [rep.2.1]

theorem join_pick (side : Side) (left right : Tree (ℕ × Binding)) (element : ℕ × Binding) :
    Tree.node left element right =
      Tree.join side (side.pick left right) element (side.pick right left) := by
  cases side with
  | left => rfl
  | right => rfl

/-- The replacement leaves the order of the nodes around it as it was. -/
theorem inorder_replaced {side : Side} {steps : List (Tree.Frame (ℕ × Binding))}
    (last element : ℕ × Binding) (inner far : Tree (ℕ × Binding))
    (sameSide : ∀ frame ∈ steps, frame.side = side.opposite) :
    ∃ before beyond,
      (Tree.join side (Tree.plug steps (Tree.join side.opposite .leaf last inner)) element
        far).inorder = before ++ element :: beyond ∧
      (Tree.join side (Tree.plug steps inner) last far).inorder = before ++ beyond := by
  cases side with
  | left =>
      have nothing := Tree.after_eq_nil sameSide
      refine ⟨(Tree.plug steps (Tree.join .right .leaf last inner)).inorder, far.inorder, rfl, ?_⟩
      simp [Tree.join, Tree.inorder, Tree.inorder_plug, nothing]
  | right =>
      have nothing := Tree.before_eq_nil sameSide
      refine ⟨far.inorder, (Tree.plug steps (Tree.join .left .leaf last inner)).inorder, rfl, ?_⟩
      simp [Tree.join, Tree.inorder, Tree.inorder_plug, nothing]

theorem Place.parent {heap : SymbolHeap} {table : ℕ} {path : List (Tree.Frame (ℕ × Binding))}
    {side : Side} {near far : Tree (ℕ × Binding)} {element : ℕ × Binding} {self : SymbolTable}
    {symbol : Symbol} (place : Place heap table path side near element far self symbol)
    (parent : heap.parentAt element.1 = some (Tree.headAddress path)) :
    symbol.parent = Tree.headAddress path := by
  simpa [parentAt, place.atSymbol] using parent

/-- A symbol with one child or none is taken out with that child. -/
theorem detach_eq_single {heap : SymbolHeap} {fuel table address : ℕ} {random : BitVec 32}
    {symbol : Symbol} {side : Side} (reading : heap.read address = .ok symbol)
    (empty : symbol.child side.opposite = 0) :
    heap.detach fuel random table address =
      heap.detachSingle table address (symbol.child side) := by
  simp only [detach, reading, Outcome.ok_bind]
  cases side with
  | left =>
      have rightZero : symbol.rightChild = 0 := empty
      by_cases leftZero : symbol.leftChild = 0
      · simp [rightZero, leftZero, Symbol.child]
      · simp [rightZero, leftZero, Symbol.child]
  | right =>
      have leftZero : symbol.leftChild = 0 := empty
      by_cases rightZero : symbol.rightChild = 0
      · simp [leftZero, rightZero, Symbol.child]
      · simp [leftZero, rightZero, Symbol.child]

/-- Taking out a symbol with one child or none returns, and hangs the child in its place. -/
theorem detach_single {heap : SymbolHeap} {table : ℕ} {path : List (Tree.Frame (ℕ × Binding))}
    {side : Side} {near : Tree (ℕ × Binding)} {element : ℕ × Binding}
    (holds : heap.Holds table (Tree.plug path (Tree.join side near element .leaf)))
    (parent : heap.parentAt element.1 = some (Tree.headAddress path)) :
    ∃ after, (∀ fuel random, heap.detach fuel random table element.1 = .ok after) ∧
      Detached heap after table element.1 path near := by
  rcases holds.place side near .leaf with ⟨self, symbol, place⟩
  rcases detachSingle_of place (place.parent parent) with ⟨after, detaching, detached⟩
  refine ⟨after, ?_, detached⟩
  intro fuel random
  exact (detach_eq_single (read_of place.nonzero place.atSymbol) place.farRep).trans detaching

/-- Taking out a symbol leaves the other nodes in their order. -/
theorem detach_of {heap : SymbolHeap} {table : ℕ} {random : BitVec 32}
    {path : List (Tree.Frame (ℕ × Binding))} {left right : Tree (ℕ × Binding)}
    {element : ℕ × Binding} (holds : heap.Holds table (Tree.plug path (.node left element right)))
    (parent : heap.parentAt element.1 = some (Tree.headAddress path))
    (replaceable : left ≠ .leaf → right ≠ .leaf →
      heap.Replaceable (reconnectSide random) ((reconnectSide random).pick left right)) :
    ∃ after new before beyond,
      (∀ fuel, (Tree.plug path (.node left element right)).inorder.length < fuel →
        heap.detach fuel random table element.1 = .ok after) ∧
      Detached heap after table element.1 path new ∧
      (Tree.node left element right).inorder = before ++ element :: beyond ∧
      new.inorder = before ++ beyond := by
  by_cases leftEmpty : left = .leaf
  · subst leftEmpty
    have joined : heap.Holds table (Tree.plug path (Tree.join .right right element .leaf)) := holds
    rcases detach_single joined parent with ⟨after, detaching, detached⟩
    exact ⟨after, right, [], right.inorder, fun fuel _ => detaching fuel random, detached, rfl, rfl⟩
  · by_cases rightEmpty : right = .leaf
    · subst rightEmpty
      have joined : heap.Holds table (Tree.plug path (Tree.join .left left element .leaf)) := holds
      rcases detach_single joined parent with ⟨after, detaching, detached⟩
      exact ⟨after, left, left.inorder, [], fun fuel _ => detaching fuel random, detached, rfl,
        by simp⟩
    · rcases replaceable leftEmpty rightEmpty with
        ⟨steps, last, inner, subtree, sameSide, deeper, notEmpty, lastParent⟩
      rcases Option.map_eq_some_iff.mp lastParent with ⟨replacement, atLast, lastParentEq⟩
      have both := holds
      rw [join_pick (reconnectSide random), subtree] at both
      rcases both.place _ _ _ with ⟨self, symbol, place⟩
      rcases detachDouble_of place (place.parent parent) deeper sameSide notEmpty atLast
        lastParentEq with ⟨after, detaching, detached⟩
      rcases inorder_replaced last element inner
        ((reconnectSide random).pick right left) sameSide with
        ⟨before, beyond, old, new⟩
      rcases Holds.place .left left right holds with
        ⟨self', symbol', place'⟩
      have leftSome : symbol'.leftChild ≠ 0 := fun zero =>
        leftEmpty ((child_eq_zero_iff place'.nearRep).mp zero)
      have rightSome : symbol'.rightChild ≠ 0 := fun zero =>
        rightEmpty ((child_eq_zero_iff place'.farRep).mp zero)
      refine ⟨after, _, before, beyond, ?_, detached, ?_, new⟩
      · intro fuel enough
        have stepsLength := Tree.length_path_le steps
        have rounds : steps.length < fuel := by
          rw [join_pick (reconnectSide random), subtree, Tree.inorder_plug, old] at enough
          have plugged : (Tree.plug steps
              (Tree.join (reconnectSide random).opposite .leaf last inner)).inorder.length ≤
                (before ++ element :: beyond).length := by
            rw [← old]
            cases reconnectSide random with
            | left => simp [Tree.join, Tree.inorder]
            | right => simp [Tree.join, Tree.inorder]; omega
          rw [Tree.inorder_plug] at plugged
          simp only [List.length_append] at enough plugged stepsLength
          omega
        simp only [detach, read_of place'.nonzero place'.atSymbol, Outcome.ok_bind, leftSome,
          rightSome, ne_eq, not_false_eq_true, if_true]
        exact detaching fuel rounds
      · rw [join_pick (reconnectSide random), subtree]
        exact old

end SymbolHeap

end Dang
