import Dang.Foundations.Run
import Dang.SymbolTable.Detach

/-!
# Removing symbols

`symbol_undefine` removes the symbol bound to an identifier, and nothing else, in
every state where that symbol can be taken out.
-/

namespace Dang

namespace SymbolHeap

/-- A removal that returns, whatever else is bound: the identifier is not bound any more, the
others are as they were, and the identifiers in order still increase. -/
def Removes (heap : SymbolHeap) (table identifier : ℕ) (random : BitVec 32) : Prop :=
  ∃ released after,
    Outcome.Returns (fun fuel => heap.undefine fuel random table identifier)
      (0, released, after) ∧
    Outcome.Returns (fun fuel => after.binding fuel table identifier) none ∧
    (∀ other, other ≠ identifier → ∃ bound,
      Outcome.Returns (fun fuel => heap.binding fuel table other) bound ∧
      Outcome.Returns (fun fuel => after.binding fuel table other) bound) ∧
    ∃ tree, after.Holds table tree

/-- Releasing what a symbol refers to. -/
theorem destroy_of {symbol : Symbol}
    (releasable : Symbol.kind symbol.flags ≠ none → symbol.referent ≠ 0) :
    ∃ released, symbol.destroy = .ok released := by
  cases kind : Symbol.kind symbol.flags with
  | none => exact ⟨[], by simp [Symbol.destroy, kind]⟩
  | some type =>
      have positive : 0 < symbol.referent := Nat.pos_of_ne_zero (releasable (by simp [kind]))
      exact ⟨_, by simp only [Symbol.destroy, kind, Outcome.assertThat_of positive,
        Outcome.ok_bind]; rfl⟩

/-- Once a symbol is out of the tree it can be freed. -/
theorem Holds.freed {heap after : SymbolHeap} {table : ℕ}
    {path : List (Tree.Frame (ℕ × Binding))} {left right new : Tree (ℕ × Binding)}
    {element : ℕ × Binding} {before beyond : List (ℕ × Binding)}
    (holds : heap.Holds table (Tree.plug path (.node left element right)))
    (detached : Detached heap after table element.1 path new)
    (oldOrder : (Tree.node left element right).inorder = before ++ element :: beyond)
    (newOrder : new.inorder = before ++ beyond) :
    (after.set element.1 none).Holds table (Tree.plug path new) := by
  have whole : (Tree.plug path (.node left element right)).inorder =
      (Tree.before path ++ before) ++ element :: (beyond ++ Tree.after path) := by
    simp [Tree.inorder_plug, oldOrder]
  have rest : (Tree.plug path new).inorder =
      (Tree.before path ++ before) ++ (beyond ++ Tree.after path) := by
    simp [Tree.inorder_plug, newOrder]
  have sublist : (Tree.plug path new).inorder.Sublist
      (Tree.plug path (.node left element right)).inorder := by
    rw [whole, rest]
    exact (List.sublist_cons_self _ _).append_left _
  have absent : element.1 ∉ (Tree.plug path new).addresses := by
    have nodup := holds.nodup
    rw [Tree.addresses, whole, List.map_append, List.map_cons] at nodup
    rw [Tree.addresses, rest, List.map_append]
    exact (List.nodup_cons.mp (List.perm_middle.nodup_iff.mp nodup)).1
  rcases detached.root with ⟨self, atTable, rep⟩
  refine ⟨holds.nonzero, ⟨self, atTable, rep.congr ?_⟩, ?_, holds.sorted.sublist sublist⟩
  · intro address mem
    rw [links_set]
    apply Function.update_of_ne
    exact fun same => absent (same ▸ mem)
  · exact (sublist.map Prod.fst).nodup holds.nodup

/-- Removing a symbol that can be taken out removes it from the tree, and nothing else. -/
theorem Holds.undefine {heap : SymbolHeap} {table identifier : ℕ} {random : BitVec 32}
    {tree : Tree (ℕ × Binding)} (holds : heap.Holds table tree)
    (detachable : tree.lookup nodeIdentifier identifier = none ∨
      ∃ path left element right, tree = Tree.plug path (.node left element right) ∧
        nodeIdentifier element = identifier ∧ heap.Detachable random path left element right) :
    ∃ released after other,
      (∀ fuel, tree.inorder.length + 1 < fuel →
        heap.undefine fuel random table identifier = .ok (0, released, after)) ∧
      after.Holds table other ∧
      ∀ wanted, other.lookup nodeIdentifier wanted =
        if wanted = identifier then none else tree.lookup nodeIdentifier wanted := by
  rcases detachable with unbound | ⟨path, left, element, right, rfl, rfl, detachable⟩
  · refine ⟨[], heap, tree, ?_, holds, ?_⟩
    · intro fuel enough
      simp [SymbolHeap.undefine, lookupLocal_eq holds enough, unbound,
        Outcome.assertThat_of holds.nonzero]
    · intro wanted
      by_cases same : wanted = identifier
      · simp [same, unbound]
      · simp [same]
  · rcases detach_of holds detachable.parent detachable.replaceable with
      ⟨after, new, before, beyond, detaching, detached, oldOrder, newOrder⟩
    rcases Holds.place .left left right holds with
      ⟨owner, symbol, place⟩
    have whole : (Tree.plug path (.node left element right)).inorder =
        (Tree.before path ++ before) ++ element :: (beyond ++ Tree.after path) := by
      simp [Tree.inorder_plug, oldOrder]
    have rest : (Tree.plug path new).inorder =
        (Tree.before path ++ before) ++ (beyond ++ Tree.after path) := by
      simp [Tree.inorder_plug, newOrder]
    have found := Tree.lookup_key holds.sorted whole
    have flags : symbol.flags = element.2.flags := by
      rw [← place.value]
      rfl
    have referent : symbol.referent = element.2.referent := by
      rw [← place.value]
      rfl
    have releasable : Symbol.kind symbol.flags ≠ none → symbol.referent ≠ 0 := by
      rw [flags, referent]
      exact detachable.releasable
    rcases destroy_of releasable with ⟨released, destroying⟩
    have atSymbol : after.symbols element.1 = some symbol := detached.kept.trans place.atSymbol
    refine ⟨released, after.set element.1 none, Tree.plug path new, ?_,
      holds.freed detached oldOrder newOrder, ?_⟩
    · intro fuel enough
      simp only [SymbolHeap.undefine, Outcome.assertThat_of holds.nonzero, Outcome.ok_bind,
        lookupLocal_eq holds enough, found, Option.map_some, Option.getD_some, place.nonzero,
        if_false, detaching fuel (by omega), dispose, read_of place.nonzero atSymbol, destroying]
    · exact Tree.lookup_removed holds.sorted whole rest

theorem Holds.removes {heap : SymbolHeap} {table identifier : ℕ} {random : BitVec 32}
    {tree : Tree (ℕ × Binding)} (holds : heap.Holds table tree)
    (removable : heap.Removable table identifier random) :
    heap.Removes table identifier random := by
  have detachable : tree.lookup nodeIdentifier identifier = none ∨
      ∃ path left element right, tree = Tree.plug path (.node left element right) ∧
        nodeIdentifier element = identifier ∧
        heap.Detachable random path left element right := by
    cases answer : tree.lookup nodeIdentifier identifier with
    | none => exact Or.inl rfl
    | some element =>
        have mem := List.mem_of_find?_eq_some answer
        have bound := List.find?_some answer
        simp only [decide_eq_true_eq] at bound
        rcases Tree.exists_plug_of_mem mem with ⟨path, left, right, rfl⟩
        exact Or.inr ⟨path, left, element, right, rfl, bound,
          removable path left element right holds bound⟩
  rcases holds.undefine detachable with ⟨released, after, other, undefining, holdsAfter, lookups⟩
  refine ⟨released, after, ?_, ?_, ?_, other, holdsAfter⟩
  · exact ⟨tree.inorder.length + 2, fun fuel enough => undefining fuel (by omega)⟩
  · refine ⟨other.inorder.length + 2, fun fuel enough => ?_⟩
    apply (binding_eq holdsAfter (by omega)).trans
    rw [lookups, if_pos rfl]
    rfl
  · intro wanted different
    refine ⟨_, ⟨tree.inorder.length + 2, fun fuel enough => binding_eq holds (by omega)⟩,
      other.inorder.length + 2, fun fuel enough => ?_⟩
    apply (binding_eq holdsAfter (by omega)).trans
    rw [lookups, if_neg different]

end SymbolHeap

/-- The calls that change a symbol table; `random` is what `rand` returns. -/
inductive SymbolCall
  | define (identifier : ℕ) (flags : Flags32) (handle : ℕ)
  | undefine (identifier : ℕ) (random : BitVec 32)
  deriving DecidableEq, Repr

namespace SymbolHeap

/-- One call that returns; a new symbol is placed at an address that is free. -/
def Step (table : ℕ) (source : SymbolHeap) (call : SymbolCall) (target : SymbolHeap) : Prop :=
  match call with
  | .define identifier flags handle => ∃ referents address result released,
      (address ≠ 0 → source.symbols address = none) ∧
        Outcome.Returns
          (fun fuel => source.define fuel referents address table identifier flags handle)
          (result, released, target)
  | .undefine identifier random => ∃ released,
      Outcome.Returns (fun fuel => source.undefine fuel random table identifier)
        (0, released, target)

/-- A table without symbols, as `symboltable_init` leaves it. -/
def Initial (table : ℕ) (heap : SymbolHeap) : Prop :=
  table ≠ 0 ∧ ∃ parent, heap.tables table = some ⟨parent, 0⟩

/-- The call defines a symbol, or removes one that can be taken out. -/
def KeepsTree (table : ℕ) (heap : SymbolHeap) (call : SymbolCall) : Prop :=
  match call with
  | .define _ _ _ => True
  | .undefine identifier random => heap.Removable table identifier random

theorem holds_of_initial {table : ℕ} {heap : SymbolHeap} (initial : Initial table heap) :
    ∃ tree, heap.Holds table tree := by
  rcases initial with ⟨nonzero, parent, atTable⟩
  refine ⟨.leaf, nonzero, ⟨_, atTable, rfl⟩, ?_, ?_⟩
  · simp [Tree.addresses, Tree.inorder]
  · simp [Tree.Sorted, Tree.inorder]

theorem holds_of_step {table : ℕ} {source target : SymbolHeap} {call : SymbolCall}
    (holds : ∃ tree, source.Holds table tree) (keeps : source.KeepsTree table call)
    (step : source.Step table call target) : ∃ tree, target.Holds table tree := by
  rcases holds with ⟨tree, holds⟩
  cases call with
  | define identifier flags handle =>
      rcases step with ⟨referents, address, result, released, fresh, returns⟩
      rcases returns.exists_fuel with ⟨fuel, success⟩
      exact holds.define fresh success
  | undefine identifier random =>
      rcases step with ⟨released, returns⟩
      rcases holds.removes keeps with ⟨released', after, returns', _, _, removed⟩
      have same := returns.unique returns'
      simp only [Prod.mk.injEq, true_and] at same
      rw [same.2]
      exact removed

/-- In every state of a run that only removes symbols that can be taken out, the table holds
a search tree, and removing any symbol that can be taken out removes it and nothing else. -/
theorem removes_of_keepsTree {table : ℕ} {start : SymbolHeap}
    {steps : List (SymbolCall × SymbolHeap)} (initial : Initial table start)
    (run : IsRun (Step table) start steps) (meet : StepsMeet (KeepsTree table) start steps) :
    ∀ heap ∈ visited start steps, (∃ tree, heap.Holds table tree) ∧
      ∀ identifier random, heap.Removable table identifier random →
        heap.Removes table identifier random := by
  intro heap visits
  have holds : ∃ tree, heap.Holds table tree := by
    apply IsRun.forall_visited (Step table) (KeepsTree table)
      (fun heap => ∃ tree, heap.Holds table tree)
      (fun source call target => holds_of_step) (holds_of_initial initial) run meet
    exact visits
  refine ⟨holds, ?_⟩
  intro identifier random removable
  rcases holds with ⟨tree, holds⟩
  exact holds.removes removable

/-- The place of a symbol in a tree whose links are known. -/
theorem Holds.found {heap : SymbolHeap} {table : ℕ} {self : SymbolTable}
    {path : List (Tree.Frame (ℕ × Binding))} {left right left' right' : Tree (ℕ × Binding)}
    {element element' : ℕ × Binding} (other : List (Tree.Frame (ℕ × Binding)))
    (holds : heap.Holds table (Tree.plug path (.node left element right)))
    (atTable : heap.tables table = some self)
    (rep : Tree.Rep heap.links self.symbols (Tree.plug other (.node left' element' right')))
    (bound : nodeIdentifier element = nodeIdentifier element') :
    path = other ∧ left = left' ∧ element = element' ∧ right = right' := by
  rcases holds.root with ⟨self', atTable', rep'⟩
  have sameTable : self = self' := Option.some.inj (atTable.symm.trans atTable')
  subst sameTable
  exact Tree.Sorted.plug_injective holds.sorted (rep'.unique rep) bound

section Examples

/-- A table at the address 1, and no symbols. -/
def emptyTable : SymbolHeap where
  symbols := fun _ => none
  tables := Function.update (fun _ => none) 1 (some ⟨0, 0⟩)

/-- References that are counted, and no room for new objects. -/
def someReferents : Referents where
  toReferences := References.succeeding
  allocate _ _ := 0

/-- The storage after a function was bound to the identifier in the table at 1. -/
def bind (heap : SymbolHeap) (address identifier : ℕ) : SymbolHeap :=
  match heap.define 9 someReferents address 1 identifier symbolFunction 7 with
  | .ok (_, _, after) => after
  | .error _ => heap

/-- The storage after the identifier was removed from the table at 1. -/
def unbind (heap : SymbolHeap) (identifier : ℕ) : SymbolHeap :=
  match heap.undefine 9 0 1 identifier with
  | .ok (_, _, after) => after
  | .error _ => heap

theorem step_bind {heap : SymbolHeap} {address identifier : ℕ}
    (fresh : heap.symbols address = none)
    (returns : ∀ more, heap.define (more + 9) someReferents address 1 identifier symbolFunction 7 =
      .ok (address, [], heap.bind address identifier)) :
    Step 1 heap (.define identifier symbolFunction 7) (heap.bind address identifier) := by
  refine ⟨someReferents, address, address, [], fun _ => fresh, 9, ?_⟩
  intro fuel enough
  rcases Nat.exists_eq_add_of_le' enough with ⟨more, rfl⟩
  exact returns more

theorem step_unbind {heap : SymbolHeap} {identifier : ℕ}
    (returns : ∀ more, heap.undefine (more + 9) 0 1 identifier =
      .ok (0, [], heap.unbind identifier)) :
    Step 1 heap (.undefine identifier 0) (heap.unbind identifier) := by
  refine ⟨[], 9, ?_⟩
  intro fuel enough
  rcases Nat.exists_eq_add_of_le' enough with ⟨more, rfl⟩
  exact returns more

/-- The node of the symbol at the address. -/
def sampleNode (address identifier : ℕ) : ℕ × Binding := (address, ⟨identifier, symbolFunction, 7⟩)

/-- Six symbols, the first with two children. -/
def sixSymbols : SymbolHeap :=
  (((((emptyTable.bind 10 10).bind 11 5).bind 12 20).bind 13 15).bind 14 30).bind 15 17

/-- What is to the right of the first symbol. -/
def sixSymbolsRight : Tree (ℕ × Binding) :=
  .node (.node .leaf (sampleNode 13 15) (.node .leaf (sampleNode 15 17) .leaf)) (sampleNode 12 20)
    (.node .leaf (sampleNode 14 30) .leaf)

theorem rep_sixSymbols : Tree.Rep sixSymbols.links 10
    (.node (.node .leaf (sampleNode 11 5) .leaf) (sampleNode 10 10) sixSymbolsRight) :=
  ⟨rfl, by decide, ⟨11, 12, ⟨10, symbolFunction, 7⟩⟩, rfl, rfl,
    ⟨rfl, by decide, ⟨0, 0, ⟨5, symbolFunction, 7⟩⟩, rfl, rfl, rfl, rfl⟩,
    rfl, by decide, ⟨13, 14, ⟨20, symbolFunction, 7⟩⟩, rfl, rfl,
    ⟨rfl, by decide, ⟨0, 15, ⟨15, symbolFunction, 7⟩⟩, rfl, rfl, rfl,
      rfl, by decide, ⟨0, 0, ⟨17, symbolFunction, 7⟩⟩, rfl, rfl, rfl, rfl⟩,
    rfl, by decide, ⟨0, 0, ⟨30, symbolFunction, 7⟩⟩, rfl, rfl, rfl, rfl⟩

/-- Six symbols are defined, and the one with two children is removed. -/
def sixSteps : List (SymbolCall × SymbolHeap) :=
  [(.define 10 symbolFunction 7, emptyTable.bind 10 10),
    (.define 5 symbolFunction 7, (emptyTable.bind 10 10).bind 11 5),
    (.define 20 symbolFunction 7, ((emptyTable.bind 10 10).bind 11 5).bind 12 20),
    (.define 15 symbolFunction 7, (((emptyTable.bind 10 10).bind 11 5).bind 12 20).bind 13 15),
    (.define 30 symbolFunction 7,
      ((((emptyTable.bind 10 10).bind 11 5).bind 12 20).bind 13 15).bind 14 30),
    (.define 17 symbolFunction 7, sixSymbols), (.undefine 10 0, sixSymbols.unbind 10)]

theorem sixSteps_isRun : IsRun (Step 1) emptyTable sixSteps :=
  ⟨step_bind rfl fun _ => rfl, step_bind rfl fun _ => rfl, step_bind rfl fun _ => rfl,
    step_bind rfl fun _ => rfl, step_bind rfl fun _ => rfl, step_bind rfl fun _ => rfl,
    step_unbind fun _ => rfl, trivial⟩

theorem sixSteps_meet : StepsMeet (KeepsTree 1) emptyTable sixSteps := by
  refine ⟨trivial, trivial, trivial, trivial, trivial, trivial, ?_, trivial⟩
  intro path left element right holds bound
  rcases holds.found [] rfl rep_sixSymbols bound with ⟨rfl, rfl, rfl, rfl⟩
  refine ⟨rfl, ?_, fun counted => absurd rfl counted⟩
  -- the smallest symbol on the right is 15, which has 17 to its right
  intro _ _
  refine ⟨[⟨.left, sampleNode 12 20, .node .leaf (sampleNode 14 30) .leaf⟩], sampleNode 13 15,
    .node .leaf (sampleNode 15 17) .leaf, rfl, ?_, List.cons_ne_nil _ _, by simp, rfl⟩
  intro frame mem
  rw [List.mem_singleton] at mem
  rw [mem]
  rfl

theorem removes_of_keepsTree_sample :
    IsRun (Step 1) emptyTable sixSteps ∧
      ∀ heap ∈ visited emptyTable sixSteps, (∃ tree, heap.Holds 1 tree) ∧
        ∀ identifier random, heap.Removable 1 identifier random →
          heap.Removes 1 identifier random :=
  ⟨sixSteps_isRun, removes_of_keepsTree ⟨by decide, 0, rfl⟩ sixSteps_isRun sixSteps_meet⟩

/-- Three symbols are defined, the first with the other two as its children. -/
def tripleSteps : List (SymbolCall × SymbolHeap) :=
  [(.define 2 symbolFunction 7, emptyTable.bind 10 2),
    (.define 1 symbolFunction 7, (emptyTable.bind 10 2).bind 11 1),
    (.define 3 symbolFunction 7, ((emptyTable.bind 10 2).bind 11 1).bind 12 3)]

theorem tripleSteps_isRun : IsRun (Step 1) emptyTable tripleSteps :=
  ⟨step_bind rfl fun _ => rfl, step_bind rfl fun _ => rfl, step_bind rfl fun _ => rfl, trivial⟩

/-- Removing a symbol whose children have none follows a null pointer, from either side. -/
theorem undefine_nullPointer :
    IsRun (Step 1) emptyTable tripleSteps ∧ Initial 1 emptyTable ∧
      ∃ heap ∈ visited emptyTable tripleSteps, ∀ random,
        (∀ fuel, 9 ≤ fuel → heap.undefine fuel random 1 2 = .error .nullPointer) ∧
          ¬heap.Removes 1 2 random := by
  refine ⟨tripleSteps_isRun, ⟨by decide, 0, rfl⟩,
    ((emptyTable.bind 10 2).bind 11 1).bind 12 3, by simp [visited, tripleSteps], ?_⟩
  intro random
  have fails : ∀ fuel, 9 ≤ fuel → (((emptyTable.bind 10 2).bind 11 1).bind 12 3).undefine fuel
      random 1 2 = .error .nullPointer := by
    intro fuel enough
    rcases Nat.exists_eq_add_of_le' enough with ⟨more, rfl⟩
    simp only [undefine, detach]
    generalize reconnectSide random = side
    cases side with
    | left => rfl
    | right => rfl
  refine ⟨fails, ?_⟩
  rintro ⟨released, after, ⟨enough, returns⟩, _⟩
  have success := returns (enough + 9) (by omega)
  have failure := fails (enough + 9) (by omega)
  have impossible := success.symm.trans failure
  simp at impossible

end Examples

end SymbolHeap

end Dang
