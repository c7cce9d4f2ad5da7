import Dang.Foundations.Refinement
import Dang.Foundations.Run
import Dang.SymbolTable.Lexical
import Mathlib.Algebra.GroupWithZero.Nat

/-!
# Lexical scoping

The symbol tables of a context are a lexical environment: a stack of scopes that bind
identifiers to a type and a referent. What carries the proof is which tree of symbols
each table on the chain of parents holds. The trees have no symbol in common, and each
table is counted once for its own scope and once for the scope inside it.
-/

namespace Dang

/-- A symbol table, with the tree of symbols it holds. -/
abbrev Level := ℕ × Tree (ℕ × Binding)

namespace Binding

/-- What a symbol with this binding owns. -/
def owned (binding : Binding) : List Owned :=
  match Symbol.kind binding.flags with
  | some kind => [.reference kind binding.referent]
  | none => []

/-- The symbol refers to an object, if it is of a type that does. -/
def Refers (binding : Binding) : Prop :=
  Symbol.kind binding.flags ≠ none → 0 < binding.referent

end Binding

namespace SymbolHeap

/-- Only the table itself and the symbols of its tree matter. -/
theorem Holds.congr {heap after : SymbolHeap} {table : ℕ} {tree : Tree (ℕ × Binding)}
    (holds : heap.Holds table tree) (sameTable : after.tables table = heap.tables table)
    (symbols : ∀ address ∈ tree.addresses, after.symbols address = heap.symbols address) :
    after.Holds table tree := by
  rcases holds with ⟨nonzero, ⟨self, atTable, rep⟩, nodup, sorted⟩
  refine ⟨nonzero, ⟨self, sameTable.trans atTable, rep.congr ?_⟩, nodup, sorted⟩
  intro address mem
  rw [links, links, symbols address mem]

/-- A symbol that is set before it is added was not there. -/
theorem Adds.of_set {heap after : SymbolHeap} {table address : ℕ} {symbol : Option Symbol}
    {tree larger : Tree (ℕ × Binding)} {node : ℕ × Binding}
    (adds : Adds (heap.set address symbol) after table tree larger node) (same : node.1 = address) :
    Adds heap after table tree larger node := by
  refine ⟨adds.inorder, ?_, adds.tables, adds.parent⟩
  intro other apart notInTree
  rw [adds.symbols other apart notInTree]
  exact Function.update_of_ne (same ▸ apart) _ _

/-- The storage without some symbols. -/
def without (heap : SymbolHeap) (addresses : List ℕ) : SymbolHeap :=
  { heap with symbols := fun address => if address ∈ addresses then none else heap.symbols address }

theorem without_symbols {heap : SymbolHeap} {addresses : List ℕ} {address : ℕ}
    (outside : address ∉ addresses) :
    (heap.without addresses).symbols address = heap.symbols address :=
  if_neg outside

theorem links_without {heap : SymbolHeap} {addresses : List ℕ} {address : ℕ}
    (outside : address ∉ addresses) : (heap.without addresses).links address = heap.links address := by
  rw [links, links, without_symbols outside]

theorem set_without_without (heap : SymbolHeap) (left right : List ℕ) (address : ℕ) :
    ((heap.without left).without right).set address none =
      heap.without (left ++ address :: right) := by
  simp only [set, without, SymbolHeap.mk.injEq, and_true]
  funext other
  simp only [Function.update_apply, List.mem_append, List.mem_cons]
  by_cases here : other = address
  · simp [here]
  · by_cases inLeft : other ∈ left
    · simp [here, inLeft]
    · simp [here, inLeft]

/-- Destroying a symbol gives back what it owns. -/
theorem dispose_of {heap : SymbolHeap} {address : ℕ} {symbol : Symbol} (nonzero : address ≠ 0)
    (found : heap.symbols address = some symbol) (refers : symbol.cell.value.Refers) :
    heap.dispose address = .ok (symbol.cell.value.owned, heap.set address none) := by
  simp only [dispose, read_of nonzero found, Outcome.ok_bind, Symbol.destroy, Binding.owned,
    Symbol.cell]
  cases kind : Symbol.kind symbol.flags with
  | none => rfl
  | some owner =>
      have positive : 0 < symbol.referent := refers (by simp [Symbol.cell, kind])
      simp [Outcome.assertThat_of positive]

/-- Reaping a tree frees its symbols, and gives back once what each of them owns. -/
theorem reap_of {heap : SymbolHeap} {root : ℕ} {tree : Tree (ℕ × Binding)}
    (rep : Tree.Rep heap.links root tree) (nodup : tree.addresses.Nodup)
    (refers : ∀ node ∈ tree.inorder, node.2.Refers) :
    ∃ released, released.Perm (tree.inorder.flatMap fun node => node.2.owned) ∧
      Outcome.Returns (fun fuel => heap.reap fuel root)
        (released, heap.without tree.addresses) := by
  induction tree generalizing heap root with
  | leaf =>
      have empty : root = 0 := rep
      refine ⟨[], List.Perm.refl _, 1, ?_⟩
      intro fuel enough
      cases fuel with
      | zero => omega
      | succ fuel => simp [reap, empty, without, Tree.addresses, Tree.inorder]
  | node left element right ihLeft ihRight =>
      rcases rep with ⟨rfl, nonzero, cell, found, value, leftRep, rightRep⟩
      rcases links_eq_some.mp found with ⟨symbol, atRoot, rfl⟩
      simp only [Tree.addresses, Tree.inorder, List.map_append, List.map_cons,
        List.nodup_append, List.nodup_cons, List.mem_cons] at nodup
      rcases nodup with ⟨leftNodup, ⟨notRight, rightNodup⟩, apart⟩
      have notLeft : element.1 ∉ left.addresses := fun mem => apart _ mem _ (Or.inl rfl) rfl
      have disjoint : ∀ address ∈ right.addresses, address ∉ left.addresses :=
        fun address inRight inLeft => apart _ inLeft _ (Or.inr inRight) rfl
      simp only [Tree.inorder, List.mem_append, List.mem_cons] at refers
      have leftChild : Tree.Rep heap.links symbol.leftChild left := leftRep
      rcases ihLeft leftChild leftNodup (fun node mem => refers node (Or.inl mem)) with
        ⟨leftOwned, leftPerm, leftEnough, leftReaped⟩
      have stillRoot : (heap.without left.addresses).symbols element.1 = some symbol :=
        (without_symbols notLeft).trans atRoot
      have stillRight : Tree.Rep (heap.without left.addresses).links symbol.rightChild right :=
        rightRep.congr fun address mem => links_without (disjoint address mem)
      rcases ihRight stillRight rightNodup (fun node mem => refers node (Or.inr (Or.inr mem))) with
        ⟨rightOwned, rightPerm, rightEnough, rightReaped⟩
      have lastRoot : ((heap.without left.addresses).without right.addresses).symbols
          element.1 = some symbol :=
        (without_symbols notRight).trans stillRoot
      have disposed := dispose_of nonzero lastRoot
        (show symbol.cell.value.Refers from value ▸ refers element (Or.inr (Or.inl rfl)))
      have addresses : (Tree.node left element right).addresses =
          left.addresses ++ element.1 :: right.addresses := by
        simp [Tree.addresses, Tree.inorder]
      refine ⟨leftOwned ++ rightOwned ++ symbol.cell.value.owned, ?_,
        leftEnough + rightEnough + 1, ?_⟩
      · simp only [Tree.inorder, List.flatMap_append, List.flatMap_cons, ← value]
        rw [List.append_assoc]
        apply leftPerm.append
        exact (rightPerm.append_right _).trans List.perm_append_comm
      · intro fuel enough
        cases fuel with
        | zero => omega
        | succ fuel =>
            have leftDone := leftReaped fuel (by omega)
            have rightDone := rightReaped fuel (by omega)
            simp only [reap, nonzero, if_false, read_of nonzero atRoot, Outcome.ok_bind, leftDone,
              read_of nonzero stillRoot, rightDone, disposed, addresses, set_without_without]

end SymbolHeap

namespace Level

/-- What the symbols of a tree bind identifiers to. -/
def bindings (tree : Tree (ℕ × Binding)) (identifier : ℕ) : Option (Flags32 × ℕ) :=
  (tree.lookup nodeIdentifier identifier).map fun node => (node.2.flags, node.2.referent)

/-- The scopes that the tables stand for. -/
def environment (levels : List Level) : Environment ℕ ℕ (Flags32 × ℕ) :=
  levels.map fun level => (level.1, bindings level.2)

theorem bindings_eq_none {tree : Tree (ℕ × Binding)} {identifier : ℕ} :
    bindings tree identifier = none ↔
      ∀ node ∈ tree.inorder, nodeIdentifier node ≠ identifier := by
  simp [bindings, Tree.lookup, List.find?_eq_none]

/-- With one node more, its identifier is bound as it says, and the others as before. -/
theorem bindings_inserted {tree larger : Tree (ℕ × Binding)} {early late : List (ℕ × Binding)}
    {node : ℕ × Binding} (sorted : Tree.Sorted nodeIdentifier larger)
    (inorder : tree.inorder = early ++ late) (inserted : larger.inorder = early ++ node :: late) :
    bindings larger = Function.update (bindings tree) (nodeIdentifier node)
      (some (node.2.flags, node.2.referent)) := by
  funext identifier
  rw [bindings, Tree.lookup_inserted sorted inorder inserted, Function.update_apply]
  by_cases same : identifier = nodeIdentifier node
  · rw [if_pos same, if_pos same, Option.map_some]
  · rw [if_neg same, if_neg same, bindings]

/-- The addresses of all symbols. -/
def addresses (levels : List Level) : List ℕ := levels.flatMap fun level => level.2.addresses

/-- The rounds a search of the tables takes at most. -/
def size (levels : List Level) : ℕ := (levels.map fun level => level.2.inorder.length + 1).sum

theorem names_environment (levels : List Level) :
    (environment levels).map Prod.fst = levels.map Prod.fst := by
  simp [environment]

theorem environment_append (inner outer : List Level) :
    environment (inner ++ outer) = environment inner ++ environment outer :=
  List.map_append

variable {inner outer : List Level} {table : ℕ} {tree : Tree (ℕ × Binding)}

theorem binding_environment (identifier : ℕ) (fresh : table ∉ inner.map Prod.fst) :
    (environment (inner ++ (table, tree) :: outer)).binding table identifier =
      bindings tree identifier := by
  rw [environment_append]
  apply Environment.binding_append
  rw [names_environment]
  exact fresh

theorem fromScope_environment (fresh : table ∉ inner.map Prod.fst) :
    (environment (inner ++ (table, tree) :: outer)).fromScope table =
      environment ((table, tree) :: outer) := by
  rw [environment_append]
  apply Environment.fromScope_append
  rw [names_environment]
  exact fresh

theorem binding_environment_cons (table : ℕ) (tree : Tree (ℕ × Binding)) (outer : List Level)
    (identifier : ℕ) :
    (environment ((table, tree) :: outer)).binding table identifier = bindings tree identifier := by
  have nowhere : table ∉ ([] : List Level).map Prod.fst := List.not_mem_nil
  exact binding_environment identifier nowhere

theorem fromScope_environment_cons (table : ℕ) (tree : Tree (ℕ × Binding)) (outer : List Level) :
    (environment ((table, tree) :: outer)).fromScope table =
      environment ((table, tree) :: outer) := by
  have nowhere : table ∉ ([] : List Level).map Prod.fst := List.not_mem_nil
  exact fromScope_environment nowhere

theorem declare_environment {larger : Tree (ℕ × Binding)} {identifier : ℕ} {value : Flags32 × ℕ}
    (names : ((inner ++ (table, tree) :: outer).map Prod.fst).Nodup)
    (bound : bindings larger = Function.update (bindings tree) identifier (some value)) :
    environment (inner ++ (table, larger) :: outer) =
      (environment (inner ++ (table, tree) :: outer)).declare table identifier value := by
  simp only [List.map_append, List.map_cons, List.nodup_append, List.nodup_cons,
    List.mem_cons] at names
  rcases names with ⟨_, ⟨notOuter, _⟩, apart⟩
  have notInner : table ∉ inner.map Prod.fst := fun mem => apart _ mem _ (Or.inl rfl) rfl
  rw [environment_append, environment_append]
  refine Eq.trans ?_ (Environment.declare_append ?_ ?_).symm
  · rw [← bound]
    rfl
  · rw [names_environment]
    exact notInner
  · rw [← names_environment] at notOuter
    exact notOuter

theorem mem_addresses {levels : List Level} {address : ℕ} :
    address ∈ addresses levels ↔ ∃ level ∈ levels, address ∈ level.2.addresses :=
  List.mem_flatMap

end Level

namespace Pools

variable {α : Type} {types : ReferenceKind → PoolType α} {pools : Pools α}

theorem kind_mask (flags : Flags32) :
    Symbol.kind (flags &&& symbolTypeMask) = Symbol.kind flags := by
  simp only [Symbol.kind, BitVec.and_assoc, BitVec.and_self]

theorem sameCounts_refl (pools : Pools α) : SameCounts pools pools := fun _ _ _ => rfl

/-- Changing one pool changes the counts of its objects only. -/
theorem sameCounts_update {kind : ReferenceKind} {pool : Pool α}
    (same : ∀ handle, (pools kind).HandleValid handle →
      (pool.items handle).references = ((pools kind).items handle).references) :
    SameCounts pools (Function.update pools kind pool) := by
  intro other handle valid
  by_cases here : other = kind
  · subst here
    rw [Function.update_self]
    exact same handle valid
  · rw [Function.update_of_ne here]

theorem release_reference {kind : ReferenceKind} {handle : ℕ} {pool released : Pool α}
    (success : pool.release (types kind) handle = .ok (0, released)) :
    (Pools.release types (Function.update pools kind pool) [.reference kind handle]) =
      .ok (Function.update pools kind released) := by
  simp [Pools.release, success]

/-- There is a referent for a symbol that is given an object in use, unless it is locked. -/
theorem obtains_of_inUse {memory : Memory} {flags : Flags32} {handle : ℕ} {kind : ReferenceKind}
    (typed : Symbol.kind flags = some kind) (valid : (pools kind).HandleValid handle)
    (used : (pools kind).HandleInUse handle) (counted : 0 < ((pools kind).items handle).references)
    (unlocked : ∀ mutex ∈ ((pools kind).items handle).mutex, mutex.depth = 0) :
    pools.Obtains types memory flags handle := by
  have nonzero : handle ≠ 0 := Nat.ne_of_gt valid.1
  have described : pools.describe types memory flags handle =
      .ok ((flags &&& symbolTypeMask, handle),
        Function.update pools kind ((pools kind).update handle fun wrapper =>
          { wrapper with references := wrapper.references + 1 })) := by
    simp [describe, typed, nonzero, Pool.reference_of valid used counted unlocked]
  refine ⟨_, _, described, ?_⟩
  intro other _
  exact ⟨nonzero, fun _ _ zero => absurd zero nonzero⟩

/-- A symbol that obtains a referent has its type, and giving the referent back at once leaves
every count as it was. -/
theorem Obtains.describe {memory : Memory} {flags : Flags32} {handle : ℕ}
    (obtains : pools.Obtains types memory flags handle) (known : Symbol.HasType flags) :
    ∃ referent described, pools.describe types memory flags handle =
        .ok ((flags &&& symbolTypeMask, referent), described) ∧
      (handle ≠ 0 ∨ flags &&& symbolTypeMask = symbolFunction → referent = handle) ∧
      ∀ identifier, Binding.Refers ⟨identifier, flags &&& symbolTypeMask, referent⟩ ∧
        ∃ released, described.release types
            (Binding.owned ⟨identifier, flags &&& symbolTypeMask, referent⟩) = .ok released ∧
          SameCounts pools released := by
  rcases obtains with ⟨⟨type, referent⟩, described, success, obtained⟩
  simp only [Pools.describe] at success
  dsimp only at obtained
  cases kind : Symbol.kind flags with
  | none =>
      have function : flags &&& symbolTypeMask = symbolFunction := by
        simpa [Symbol.HasType, kind] using known
      refine ⟨handle, pools, ?_, fun _ => rfl, fun identifier => ⟨?_, pools, ?_, ?_⟩⟩
      · simp [Pools.describe, kind, function]
      · exact fun some => absurd ((kind_mask flags).trans kind) some
      · simp [Binding.owned, kind_mask, kind, Pools.release]
      · exact sameCounts_refl pools
  | some owner =>
      rcases obtained owner kind with ⟨nonzero, unlocked⟩
      have notFunction : flags &&& symbolTypeMask ≠ symbolFunction := by
        intro function
        have none : Symbol.kind flags = none := by
          simp [Symbol.kind, function, symbolScalar, symbolArray, symbolHash, symbolChannel,
            symbolStream, symbolFunction]
        rw [kind] at none
        contradiction
      have owned : ∀ identifier,
          Binding.owned ⟨identifier, flags &&& symbolTypeMask, referent⟩ =
            [.reference owner referent] := by
        simp [Binding.owned, kind_mask, kind]
      simp only [kind] at success
      by_cases given : handle ≠ 0
      · simp only [given, ne_eq, not_false_eq_true, if_true, Outcome.bind_eq_ok, Except.ok.injEq,
          Prod.mk.injEq, Prod.exists] at success
        rcases success with ⟨_, pool, referenced, ⟨_, rfl⟩, rfl⟩
        rcases Pool.reference_release (types owner) nonzero referenced with ⟨same, released⟩
        subst same
        refine ⟨_, Function.update pools owner pool, ?_, fun _ => rfl, fun identifier =>
          ⟨?_, Function.update pools owner (pools owner), ?_, ?_⟩⟩
        · simp [Pools.describe, kind, given, referenced]
        · exact fun _ => Nat.pos_of_ne_zero nonzero
        · rw [owned]
          exact release_reference released
        · exact sameCounts_update fun _ _ => rfl
      · have zero : handle = 0 := not_not.mp given
        simp only [given, if_false, Outcome.bind_eq_ok, Except.ok.injEq, Prod.mk.injEq,
          Prod.exists] at success
        rcases success with ⟨new, pool, allocated, ⟨_, rfl⟩, rfl⟩
        rcases Pool.allocate_release nonzero allocated (fun mutex mem =>
          unlocked mutex (by simpa using mem) zero) with ⟨released, releases, same⟩
        refine ⟨new, Function.update pools owner pool, ?_, ?_, fun identifier =>
          ⟨?_, Function.update pools owner released, ?_, ?_⟩⟩
        · simp [Pools.describe, kind, given, allocated]
        · rintro (nonzero | function)
          · exact absurd zero nonzero
          · exact absurd function notFunction
        · exact fun _ => Nat.pos_of_ne_zero nonzero
        · rw [owned]
          exact release_reference releases
        · exact sameCounts_update same

end Pools

namespace LexicalContext

variable {α : Type}

/-- The tables from an address up hold the trees. The first is counted once for its own scope and
`inner` times for scopes inside it. -/
inductive Nests (context : LexicalContext α) : ℕ → ℕ → List Level → Prop
  | nil (inner : ℕ) : Nests context 0 inner []
  | level {address parent symbols inner : ℕ} {tree : Tree (ℕ × Binding)} {outer : List Level}
      (holds : context.heap.Holds address tree)
      (atTable : context.heap.tables address = some ⟨parent, symbols⟩)
      (counted : context.references address = 1 + inner)
      (outside : Nests context parent 1 outer) : Nests context address inner ((address, tree) :: outer)

/-- The tables of the context hold the trees, which are apart from each other. -/
structure Represents (context : LexicalContext α) (levels : List Level) : Prop where
  nests : Nests context context.symboltable 0 levels
  names : (levels.map Prod.fst).Nodup
  addresses : (Level.addresses levels).Nodup
  refers : ∀ level ∈ levels, ∀ node ∈ level.2.inorder, node.2.Refers

namespace Nests

variable {context after : LexicalContext α} {address inner : ℕ} {levels outer : List Level}

/-- Only the tables and their symbols matter. -/
theorem congr (nests : Nests context address inner levels)
    (tables : ∀ level ∈ levels, after.heap.tables level.1 = context.heap.tables level.1)
    (references : ∀ level ∈ levels, after.references level.1 = context.references level.1)
    (symbols : ∀ other ∈ Level.addresses levels,
      after.heap.symbols other = context.heap.symbols other) :
    Nests after address inner levels := by
  induction nests with
  | nil inner => exact .nil inner
  | @level address _ _ _ tree outer holds atTable counted outside ih =>
      have here : (address, tree) ∈ (address, tree) :: outer := List.mem_cons_self
      refine .level (holds.congr (tables _ here) ?_) ((tables _ here).trans atTable)
        ((references _ here).trans counted) (ih ?_ ?_ ?_)
      · intro other mem
        exact symbols other (Level.mem_addresses.mpr ⟨_, here, mem⟩)
      · exact fun level mem => tables level (List.mem_cons_of_mem _ mem)
      · exact fun level mem => references level (List.mem_cons_of_mem _ mem)
      · intro other mem
        rcases Level.mem_addresses.mp mem with ⟨level, later, inTree⟩
        exact symbols other (Level.mem_addresses.mpr ⟨level, List.mem_cons_of_mem _ later, inTree⟩)

theorem address_cases (nests : Nests context address inner levels) :
    address = 0 ∧ levels = [] ∨ address ≠ 0 ∧ address ∈ levels.map Prod.fst := by
  cases nests with
  | nil => exact Or.inl ⟨rfl, rfl⟩
  | level holds => exact Or.inr ⟨holds.nonzero, by simp⟩

theorem counted (nests : Nests context address inner levels) (nonzero : address ≠ 0) :
    context.references address = 1 + inner := by
  cases nests with
  | nil => exact absurd rfl nonzero
  | level _ _ counted _ => exact counted

theorem holds_of_mem (nests : Nests context address inner levels) :
    ∀ level ∈ levels, context.heap.Holds level.1 level.2 := by
  induction nests with
  | nil inner => simp
  | level holds atTable counted outside ih =>
      intro other mem
      rcases List.mem_cons.mp mem with rfl | later
      · exact holds
      · exact ih other later

/-- Every table of the context is in storage. -/
theorem live (nests : Nests context address inner levels) :
    ∀ level ∈ levels, context.heap.tables level.1 ≠ none := by
  intro level mem
  rcases (nests.holds_of_mem level mem).root with ⟨self, atTable, _⟩
  simp [atTable]

/-- And so is every symbol. -/
theorem live_symbol (nests : Nests context address inner levels) :
    ∀ other ∈ Level.addresses levels, context.heap.symbols other ≠ none := by
  intro other mem free
  rcases Level.mem_addresses.mp mem with ⟨level, inLevels, inTree⟩
  exact (nests.holds_of_mem level inLevels).not_mem free inTree

theorem of_cons {tree : Tree (ℕ × Binding)} {table : ℕ}
    (nests : Nests context address inner ((table, tree) :: outer)) :
    address = table ∧ context.heap.Holds table tree ∧ context.references table = 1 + inner ∧
      ∃ parent symbols, context.heap.tables table = some ⟨parent, symbols⟩ ∧
        Nests context parent 1 outer := by
  cases nests with
  | level holds atTable counted outside => exact ⟨rfl, holds, counted, _, _, atTable, outside⟩

/-- The first table, if there is one, is in storage. -/
theorem live_first (nests : Nests context address inner levels) (nonzero : address ≠ 0) :
    context.heap.tables address ≠ none := by
  rcases nests.address_cases with ⟨zero, _⟩ | ⟨_, mem⟩
  · exact absurd zero nonzero
  · rcases List.mem_map.mp mem with ⟨level, inLevels, rfl⟩
    exact nests.live level inLevels

/-- The references to the first table are counted anew, and nothing else changes in the tables. -/
theorem recount (nests : Nests context address inner levels)
    (names : (levels.map Prod.fst).Nodup) {other : ℕ}
    (tables : ∀ level ∈ levels, after.heap.tables level.1 = context.heap.tables level.1)
    (symbols : ∀ symbol ∈ Level.addresses levels,
      after.heap.symbols symbol = context.heap.symbols symbol)
    (first : address ≠ 0 → after.references address = 1 + other)
    (others : ∀ level ∈ levels, level.1 ≠ address →
      after.references level.1 = context.references level.1) :
    Nests after address other levels := by
  cases nests with
  | nil => exact .nil other
  | @level _ _ _ _ tree outer holds atTable counted outside =>
      have here : (address, tree) ∈ (address, tree) :: outer := List.mem_cons_self
      simp only [Level.addresses, List.flatMap_cons, List.mem_append] at symbols
      refine .level (holds.congr (tables _ here) ?_) ((tables _ here).trans atTable)
        (first holds.nonzero) (outside.congr ?_ ?_ ?_)
      · exact fun symbol mem => symbols symbol (Or.inl mem)
      · exact fun level mem => tables level (List.mem_cons_of_mem _ mem)
      · intro level mem
        apply others level (List.mem_cons_of_mem _ mem)
        rintro rfl
        exact (List.nodup_cons.mp names).1 (List.mem_map.mpr ⟨level, mem, rfl⟩)
      · exact fun symbol mem => symbols symbol (Or.inr mem)

/-- The tables from one of them up. -/
theorem from_append {front : List Level} {table : ℕ} {tree : Tree (ℕ × Binding)}
    (nests : Nests context address inner (front ++ (table, tree) :: outer)) :
    ∃ count, Nests context table count ((table, tree) :: outer) := by
  induction front generalizing address inner with
  | nil =>
      cases nests with
      | level holds atTable counted outside => exact ⟨_, .level holds atTable counted outside⟩
  | cons head rest ih =>
      cases nests with
      | level _ _ _ outside => exact ih outside

/-- The tables that enclose the first are those of the levels. -/
theorem mem_of_encloses {table : ℕ} (nests : Nests context address inner levels)
    (encloses : Encloses context.heap table address) : table ∈ levels.map Prod.fst := by
  induction encloses generalizing inner levels with
  | self nonzero =>
      rcases nests.address_cases with ⟨zero, _⟩ | ⟨_, mem⟩
      · exact absurd zero nonzero
      · exact mem
  | outer nonzero atAddress _ ih =>
      cases nests with
      | nil => exact absurd rfl nonzero
      | level holds atTable counted outside =>
          have same := Option.some.inj (atAddress.symm.trans atTable)
          rw [same] at ih
          exact List.mem_cons_of_mem _ (ih outside)

/-- One of the tables holds one node more. -/
theorem replace {front : List Level} {table : ℕ} {tree larger : Tree (ℕ × Binding)}
    {node : ℕ × Binding} (nests : Nests context address inner (front ++ (table, tree) :: outer))
    (names : ((front ++ (table, tree) :: outer).map Prod.fst).Nodup)
    (holds : after.heap.Holds table larger)
    (adds : SymbolHeap.Adds context.heap after.heap table tree larger node)
    (references : after.references = context.references)
    (symbols : ∀ other ∈ Level.addresses (front ++ outer),
      after.heap.symbols other = context.heap.symbols other) :
    Nests after address inner (front ++ (table, larger) :: outer) := by
  induction front generalizing address inner with
  | nil =>
      rcases nests.of_cons with ⟨rfl, _, counted, parent, _, atTable, outside⟩
      rcases holds.root with ⟨⟨parent', root⟩, atTable', _⟩
      have same : parent' = parent := by
        simpa [atTable, atTable'] using adds.parent
      subst same
      refine .level holds atTable' ((congrFun references _).trans counted) (outside.congr ?_ ?_ ?_)
      · intro level mem
        apply adds.tables
        rintro rfl
        exact (List.nodup_cons.mp names).1 (List.mem_map.mpr ⟨level, mem, rfl⟩)
      · exact fun level _ => congrFun references _
      · exact symbols
  | cons head rest ih =>
      rcases nests.of_cons with ⟨rfl, headHolds, counted, parent, _, atTable, outside⟩
      have apart : head.1 ≠ table := by
        rintro rfl
        exact (List.nodup_cons.mp names).1 (by simp)
      simp only [List.cons_append, Level.addresses, List.flatMap_cons, List.mem_append] at symbols
      have sameTable := adds.tables head.1 apart
      refine .level (headHolds.congr sameTable ?_) (sameTable.trans atTable)
        ((congrFun references _).trans counted) (ih outside (List.nodup_cons.mp names).2 ?_)
      · exact fun other mem => symbols other (Or.inl mem)
      · exact fun other mem => symbols other (Or.inr mem)

/-- Looking for an identifier in the tables finds the nearest node with it. -/
theorem searchScopes_eq {fuel : ℕ} (identifier : ℕ) (nests : Nests context address inner levels)
    (enough : Level.size levels < fuel) :
    context.heap.searchScopes identifier fuel address =
      .ok (((levels.findSome? fun level => level.2.lookup nodeIdentifier identifier).map
        Prod.fst).getD 0) := by
  induction nests generalizing fuel with
  | nil inner =>
      cases fuel with
      | zero => omega
      | succ fuel => simp [SymbolHeap.searchScopes]
  | @level address parent symbols _ tree outer holds atTable counted outside ih =>
      simp only [Level.size, List.map_cons, List.sum_cons] at enough
      rcases holds.root with ⟨self, atTable', rep⟩
      have same : self = ⟨parent, symbols⟩ := Option.some.inj (atTable'.symm.trans atTable)
      subst same
      cases fuel with
      | zero => omega
      | succ fuel =>
          have later := ih (show Level.size outer < fuel by unfold Level.size; omega)
          have here := SymbolHeap.searchScope_eq identifier rep holds.sorted
            (show tree.inorder.length < fuel by omega)
          simp only [SymbolHeap.searchScopes, holds.nonzero, if_false,
            SymbolHeap.readTable_of holds.nonzero atTable, Outcome.ok_bind, here]
          cases answer : tree.lookup nodeIdentifier identifier with
          | none => simp [answer, later]
          | some node =>
              have nonzero := (SymbolHeap.live_of_mem rep (List.mem_of_find?_eq_some answer)).1
              simp [answer, nonzero]

/-- A lookup from a table answers from the scopes that it and those around it stand for. -/
theorem lookup_eq {fuel : ℕ} (identifier : ℕ) (nests : Nests context address inner levels)
    (nonzero : address ≠ 0) (enough : Level.size levels < fuel) :
    context.lookup fuel address identifier =
      .ok ((Level.environment levels).lookup identifier) := by
  have environment : (Level.environment levels).lookup identifier =
      (levels.findSome? fun level => level.2.lookup nodeIdentifier identifier).map
        fun node => (node.2.flags, node.2.referent) := by
    simp only [Environment.lookup, Level.environment, List.findSome?_map, Level.bindings,
      List.map_findSome?, Function.comp_def]
  simp only [LexicalContext.lookup, SymbolHeap.lookup, Outcome.assertThat_of nonzero,
    Outcome.ok_bind, nests.searchScopes_eq identifier enough, environment]
  cases answer : levels.findSome? fun level => level.2.lookup nodeIdentifier identifier with
  | none => rfl
  | some node =>
      rcases List.exists_of_findSome?_eq_some answer with ⟨level, mem, found⟩
      rcases (nests.holds_of_mem level mem).root with ⟨_, _, rep⟩
      rcases SymbolHeap.live_of_mem rep (List.mem_of_find?_eq_some found) with
        ⟨nodeNonzero, cell, atNode, value⟩
      rcases SymbolHeap.links_eq_some.mp atNode with ⟨symbol, atSymbol, rfl⟩
      simp only [SymbolHeap.describes, Option.map_some, Option.getD_some, nodeNonzero, if_false,
        SymbolHeap.read_of nodeNonzero atSymbol, Outcome.ok_bind, ← value, Symbol.cell]

end Nests

/-- What `symboltable_init` sets up, and the reference it counts. -/
theorem initTable_of {context : LexicalContext α} {self parent : ℕ} (nonzero : self ≠ 0)
    (apart : self ≠ parent) (live : parent ≠ 0 → context.heap.tables parent ≠ none) :
    ∃ references, context.initTable self parent =
        .ok { context with
          heap := context.heap.setTable self ⟨parent, 0⟩, references := references } ∧
      references self = 1 ∧ (parent ≠ 0 → references parent = context.references parent + 1) ∧
      ∀ other, other ≠ self → other ≠ parent → references other = context.references other := by
  simp only [initTable, Outcome.assertThat_of nonzero, Outcome.assertThat_of apart,
    Outcome.ok_bind]
  by_cases zero : parent = 0
  · simp only [zero, if_true]
    refine ⟨_, rfl, Function.update_self _ _ _, fun nonzero => absurd rfl nonzero, ?_⟩
    exact fun other elsewhere _ => Function.update_of_ne elsewhere _ _
  · rcases Option.ne_none_iff_exists'.mp (live zero) with ⟨table, atParent⟩
    have found : (context.heap.setTable self ⟨parent, 0⟩).tables parent = some table :=
      (Function.update_of_ne (Ne.symm apart) _ _).trans atParent
    simp only [zero, if_false, SymbolHeap.readTable_of zero found, Outcome.ok_bind, setReferences]
    refine ⟨_, rfl, ?_, fun _ => ?_, ?_⟩
    · rw [Function.update_of_ne apart, Function.update_self]
    · rw [Function.update_self, Function.update_of_ne (Ne.symm apart)]
    · intro other notSelf notParent
      rw [Function.update_of_ne notParent, Function.update_of_ne notSelf]

/-- The reference to a parent that a destroyed table gives up. -/
theorem dropReference_of (context : LexicalContext α) {table : ℕ}
    (live : table ≠ 0 → context.heap.tables table ≠ none) :
    ∃ references, context.dropReference table = .ok { context with references := references } ∧
      (table ≠ 0 → references table = context.references table - 1) ∧
      ∀ other, other ≠ table → references other = context.references other := by
  by_cases zero : table = 0
  · refine ⟨context.references, ?_, fun nonzero => absurd zero nonzero, fun _ _ => rfl⟩
    simp [dropReference, zero]
  · rcases Option.ne_none_iff_exists'.mp (live zero) with ⟨self, atTable⟩
    refine ⟨_, ?_, fun _ => Function.update_self _ _ _, fun other apart =>
      Function.update_of_ne apart _ _⟩
    simp only [dropReference, zero, if_false, SymbolHeap.readTable_of zero atTable, Outcome.ok_bind,
      setReferences]

namespace Represents

variable {context : LexicalContext α} {levels : List Level} {address : ℕ}

/-- A new scope that binds nothing, around which are the scopes so far. -/
theorem startScope (represents : context.Represents levels) (nonzero : address ≠ 0)
    (fresh : context.heap.tables address = none) :
    ∃ after, context.startScope address = .ok (0, after) ∧
      after.Represents ((address, .leaf) :: levels) := by
  have nests := represents.nests
  have notTable : ∀ level ∈ levels, level.1 ≠ address := by
    rintro level mem rfl
    exact nests.live level mem fresh
  have current : context.symboltable ≠ 0 → ∃ level ∈ levels, level.1 = context.symboltable := by
    intro live
    rcases nests.address_cases with ⟨zero, _⟩ | ⟨_, mem⟩
    · exact absurd zero live
    · exact List.mem_map.mp mem
  have apart : address ≠ context.symboltable := by
    intro same
    rcases current (same ▸ nonzero) with ⟨level, mem, name⟩
    exact notTable level mem (name.trans same.symm)
  have live : context.symboltable ≠ 0 → context.heap.tables context.symboltable ≠ none := by
    intro nonzero
    rcases current nonzero with ⟨level, mem, name⟩
    exact name ▸ nests.live level mem
  rcases initTable_of nonzero apart live with ⟨references, started, self, parent, others⟩
  refine ⟨{ context with
    heap := context.heap.setTable address ⟨context.symboltable, 0⟩
    references := references
    symboltable := address }, ?_, ?_⟩
  · simp only [LexicalContext.startScope, nonzero, if_false, started, Outcome.ok_bind]
  have leaf : (context.heap.setTable address ⟨context.symboltable, 0⟩).Holds address .leaf :=
    ⟨nonzero, ⟨_, Function.update_self _ _ _, rfl⟩, List.nodup_nil, List.Pairwise.nil⟩
  refine ⟨.level leaf (Function.update_self _ _ _) self ?_, ?_, ?_, ?_⟩
  · apply nests.recount represents.names
    · exact fun level mem => Function.update_of_ne (notTable level mem) _ _
    · exact fun _ _ => rfl
    · intro nonzero
      calc
        references context.symboltable = context.references context.symboltable + 1 :=
          parent nonzero
        _ = 1 + 1 := by rw [nests.counted nonzero]
    · exact fun level mem notFirst => others level.1 (notTable level mem) notFirst
  · rw [List.map_cons, List.nodup_cons]
    refine ⟨?_, represents.names⟩
    intro mem
    rcases List.mem_map.mp mem with ⟨level, inLevels, name⟩
    exact notTable level inLevels name
  · exact represents.addresses
  · intro level mem node inTree
    rcases List.mem_cons.mp mem with rfl | outer
    · simp [Tree.inorder] at inTree
    · exact represents.refers level outer node inTree

/-- Ending a scope leaves those around it, and gives back once what each of its symbols owns. -/
theorem endScope {tree : Tree (ℕ × Binding)} {outer : List Level}
    (represents : context.Represents ((address, tree) :: outer)) :
    ∃ released ended, Outcome.Returns (fun fuel => context.endScope fuel) (released, ended) ∧
      released.Perm (tree.inorder.flatMap fun node => node.2.owned) ∧ ended.Represents outer := by
  rcases represents.nests.of_cons with
    ⟨current, holds, counted, parent, symbols, atTable, outside⟩
  have nonzero := holds.nonzero
  have names := List.nodup_cons.mp represents.names
  have notTable : ∀ level ∈ outer, level.1 ≠ address := by
    rintro level mem rfl
    exact names.1 (List.mem_map.mpr ⟨level, mem, rfl⟩)
  have disjoint := represents.addresses
  simp only [Level.addresses, List.flatMap_cons, List.nodup_append] at disjoint
  rcases disjoint with ⟨nodup, outerNodup, apart⟩
  have parentApart : parent ≠ address := by
    rintro rfl
    rcases outside.address_cases with ⟨zero, _⟩ | ⟨_, mem⟩
    · exact nonzero zero
    · exact names.1 mem
  rcases holds.root with ⟨self, found, rep⟩
  have same : self = ⟨parent, symbols⟩ := Option.some.inj (found.symm.trans atTable)
  subst same
  rcases SymbolHeap.reap_of rep nodup (represents.refers _ List.mem_cons_self) with
    ⟨released, owned, enough, reaped⟩
  rcases dropReference_of { context with symboltable := parent } outside.live_first with
    ⟨references, dropped, first, others⟩
  refine ⟨released, { context with
    heap := ((context.heap.without tree.addresses).setTable address ⟨0, 0⟩).freeTable address
    references := Function.update references address 0
    symboltable := parent }, ⟨enough, ?_⟩, owned, ?_, names.2, outerNodup, ?_⟩
  · intro fuel large
    have reapedHere := reaped fuel large
    simp only [LexicalContext.endScope, current, Outcome.assertThat_of nonzero, Outcome.ok_bind,
      SymbolHeap.readTable_of nonzero atTable, destroyTable, counted,
      Outcome.assertThat_of Nat.one_pos, if_true, dropped, reapedHere, setReferences]
  · apply outside.recount names.2
    · intro level mem
      exact (Function.update_of_ne (notTable level mem) _ _).trans
        (Function.update_of_ne (notTable level mem) _ _)
    · intro symbol mem
      exact SymbolHeap.without_symbols fun inTree => apart _ inTree _ mem rfl
    · intro live
      calc
        Function.update references address 0 parent = references parent :=
          Function.update_of_ne parentApart _ _
        _ = context.references parent - 1 := first live
        _ = 1 + 0 := by rw [outside.counted live]
    · intro level mem notFirst
      exact (Function.update_of_ne (notTable level mem) _ _).trans (others level.1 notFirst)
  · exact fun level mem => represents.refers level (List.mem_cons_of_mem _ mem)

/-- A table of the context stands in one place among its levels. -/
theorem exists_append_of_mem {table : ℕ} (represents : context.Represents levels)
    (mem : table ∈ levels.map Prod.fst) :
    ∃ inner tree outer, levels = inner ++ (table, tree) :: outer ∧ table ∉ inner.map Prod.fst := by
  rcases List.mem_map.mp mem with ⟨level, inLevels, rfl⟩
  rcases List.append_of_mem inLevels with ⟨inner, outer, rfl⟩
  refine ⟨inner, level.2, outer, rfl, ?_⟩
  have names := represents.names
  simp only [List.map_append, List.map_cons, List.nodup_append, List.mem_cons] at names
  exact fun mem => names.2.2 _ mem _ (Or.inl rfl) rfl

theorem exists_append {table : ℕ} (represents : context.Represents levels)
    (encloses : Encloses context.heap table context.symboltable) :
    ∃ inner tree outer, levels = inner ++ (table, tree) :: outer ∧ table ∉ inner.map Prod.fst :=
  represents.exists_append_of_mem (represents.nests.mem_of_encloses encloses)

/-- A lookup from a table of the context answers from the scopes from there outwards. -/
theorem lookup_of_mem {table : ℕ} (identifier : ℕ) (represents : context.Represents levels)
    (mem : table ∈ levels.map Prod.fst) :
    Outcome.Returns (fun fuel => context.lookup fuel table identifier)
      (((Level.environment levels).fromScope table).lookup identifier) := by
  rcases represents.exists_append_of_mem mem with ⟨inner, tree, outer, rfl, fresh⟩
  rcases represents.nests.from_append with ⟨count, nests⟩
  have nonzero := nests.of_cons.2.1.nonzero
  refine ⟨Level.size ((table, tree) :: outer) + 1, ?_⟩
  intro fuel enough
  rw [Level.fromScope_environment fresh]
  exact nests.lookup_eq identifier nonzero (by omega)

theorem lookup {table : ℕ} (identifier : ℕ) (represents : context.Represents levels)
    (encloses : Encloses context.heap table context.symboltable) :
    Outcome.Returns (fun fuel => context.lookup fuel table identifier)
      (((Level.environment levels).fromScope table).lookup identifier) :=
  represents.lookup_of_mem identifier (represents.nests.mem_of_encloses encloses)

/-- A lookup in a table alone answers from its scope. -/
theorem binding_of_mem {table : ℕ} (identifier : ℕ) (represents : context.Represents levels)
    (mem : table ∈ levels.map Prod.fst) :
    Outcome.Returns (fun fuel => context.heap.binding fuel table identifier)
      ((Level.environment levels).binding table identifier) := by
  rcases represents.exists_append_of_mem mem with ⟨inner, tree, outer, rfl, fresh⟩
  have holds := represents.nests.holds_of_mem (table, tree) (by simp)
  refine ⟨tree.inorder.length + 2, ?_⟩
  intro fuel enough
  rw [Level.binding_environment identifier fresh]
  exact SymbolHeap.binding_eq holds (by omega)

/-- One symbol more in one of the tables. -/
theorem inserted {inner outer : List Level} {table : ℕ} {tree larger : Tree (ℕ × Binding)}
    {node : ℕ × Binding} {heap : SymbolHeap}
    (represents : context.Represents (inner ++ (table, tree) :: outer))
    (fresh : context.heap.symbols node.1 = none) (holds : heap.Holds table larger)
    (adds : SymbolHeap.Adds context.heap heap table tree larger node) (refers : node.2.Refers)
    (pools : Pools α) :
    Represents { context with heap := heap, pools := pools }
      (inner ++ (table, larger) :: outer) := by
  rcases adds.inorder with ⟨early, late, split, splitLarger⟩
  have disjoint : (tree.addresses ++ Level.addresses (inner ++ outer)).Nodup := by
    have nodup := represents.addresses
    simp only [Level.addresses, List.flatMap_append, List.flatMap_cons] at nodup ⊢
    apply List.Perm.nodup _ nodup
    rw [← List.append_assoc, ← List.append_assoc]
    exact List.perm_append_comm.append_right _
  have grown : (Level.addresses (inner ++ (table, larger) :: outer)).Perm
      (node.1 :: Level.addresses (inner ++ (table, tree) :: outer)) := by
    simp only [Level.addresses, List.flatMap_append, List.flatMap_cons, Tree.addresses,
      splitLarger, split, List.map_append, List.map_cons, List.append_assoc, List.cons_append]
    exact (List.perm_middle.append_left _).trans List.perm_middle
  have others : ∀ other ∈ Level.addresses (inner ++ outer),
      other ∈ Level.addresses (inner ++ (table, tree) :: outer) := by
    intro other mem
    simp only [Level.addresses, List.flatMap_append, List.flatMap_cons, List.mem_append] at mem ⊢
    tauto
  refine ⟨?_, ?_, ?_, ?_⟩
  · refine represents.nests.replace represents.names holds adds ?_ ?_
    · rfl
    · intro other mem
      apply adds.symbols
      · rintro rfl
        exact represents.nests.live_symbol _ (others _ mem) fresh
      · intro inTree
        exact (List.nodup_append.mp disjoint).2.2 _ inTree _ mem rfl
  · simpa using represents.names
  · rw [grown.nodup_iff, List.nodup_cons]
    exact ⟨fun mem => represents.nests.live_symbol _ mem fresh, represents.addresses⟩
  · intro level mem other inTree
    have old := represents.refers
    simp only [List.mem_append, List.mem_cons] at mem old
    rcases mem with inInner | rfl | inOuter
    · exact old level (Or.inl inInner) other inTree
    · rw [splitLarger, List.mem_append, List.mem_cons] at inTree
      rcases inTree with isEarly | rfl | isLate
      · exact old _ (Or.inr (Or.inl rfl)) other (split ▸ List.mem_append_left _ isEarly)
      · exact refers
      · exact old _ (Or.inr (Or.inl rfl)) other (split ▸ List.mem_append_right _ isLate)
    · exact old level (Or.inr (Or.inr inOuter)) other inTree

/-- A symbol is defined in its own table, where the identifier is not yet bound, in storage that
was free, or else everything but the free items of the pools is as before. -/
theorem defineAt {types : ReferenceKind → PoolType α} {memory : Memory}
    {table identifier handle referent : ℕ} {flags type : Flags32} {described released : Pools α}
    (represents : context.Represents levels)
    (encloses : Encloses context.heap table context.symboltable) (nonzero : address ≠ 0)
    (fresh : context.heap.symbols address = none)
    (describes : context.pools.describe types memory flags handle =
      .ok ((type, referent), described))
    (refers : Binding.Refers ⟨identifier, type, referent⟩)
    (releases : described.release types (Binding.owned ⟨identifier, type, referent⟩) =
      .ok released) :
    (Level.environment levels).binding table identifier = none ∧
        (∃ heap larger, Outcome.Returns (fun fuel =>
            context.define types memory fuel address table identifier flags handle)
              (address, { context with heap := heap, pools := described }) ∧
            Represents { context with heap := heap, pools := described } larger ∧
            Level.environment larger =
              (Level.environment levels).declare table identifier (type, referent) ∧
            ∀ other, other ≠ address → context.heap.symbols other = none →
              heap.symbols other = none) ∨
      (Level.environment levels).binding table identifier ≠ none ∧
        Outcome.Returns (fun fuel =>
          context.define types memory fuel address table identifier flags handle)
            (0, { context with pools := released }) := by
  rcases represents.exists_append encloses with ⟨inner, tree, outer, rfl, notInner⟩
  have nests := represents.nests
  have mem : (table, tree) ∈ inner ++ (table, tree) :: outer := by simp
  have holds := nests.holds_of_mem _ mem
  have outside : address ∉ tree.addresses := holds.not_mem fresh
  generalize settled : context.heap.set address (some ⟨0, 0, 0, identifier, type, referent⟩) = heap
  have new : heap.symbols address = some ⟨0, 0, 0, identifier, type, referent⟩ := by
    rw [← settled]
    exact Function.update_self _ _ _
  have here : heap.Holds table tree := settled ▸ holds.set outside _
  have elsewhere : ∀ other, other ≠ address → heap.symbols other = context.heap.symbols other := by
    intro other apart
    rw [← settled]
    exact Function.update_of_ne apart _ _
  rcases here.insert_returns nonzero outside new with ⟨⟨status, inserted⟩, enough, returns⟩
  simp only [Level.binding_environment identifier notInner, ne_eq, Level.bindings_eq_none]
  rcases here.insert outside new ⟨rfl, rfl⟩ (returns enough (Nat.le_refl _)) with
    ⟨rfl, rfl, node, inTree, taken⟩ | ⟨rfl, larger, holdsLarger, adds⟩
  · refine Or.inr ⟨fun absent => absent node inTree taken, enough, ?_⟩
    intro fuel large
    have insertedHere := returns fuel large
    have disposed := SymbolHeap.dispose_of nonzero new refers
    have restored : inserted.set address none = context.heap := by
      have same : Function.update inserted.symbols address none = context.heap.symbols := by
        funext other
        by_cases here : other = address
        · rw [here, Function.update_self, fresh]
        · rw [Function.update_of_ne here, elsewhere other here]
      rw [SymbolHeap.set, same, ← settled]
      rfl
    have failed : ¬ (-1 : ℤ) = 0 := by decide
    dsimp only [Symbol.cell] at insertedHere disposed
    simp only [LexicalContext.define, Outcome.assertThat_of holds.nonzero, nonzero, if_false,
      describes, Outcome.ok_bind, settled, insertedHere, failed, disposed, restored, releases]
  · have addsHere : SymbolHeap.Adds context.heap inserted table tree larger
        (address, ⟨identifier, type, referent⟩) := (settled ▸ adds).of_set rfl
    rcases addsHere.inorder with ⟨early, late, split, splitLarger⟩
    have removed := Tree.lookup_removed holdsLarger.sorted splitLarger split identifier
    rw [if_pos (show identifier = nodeIdentifier
      (address, (⟨identifier, type, referent⟩ : Binding)) from rfl)] at removed
    refine Or.inl ⟨?_, inserted, inner ++ (table, larger) :: outer, ⟨enough, ?_⟩, ?_, ?_, ?_⟩
    · rw [← Level.bindings_eq_none, Level.bindings, removed, Option.map_none]
    · intro fuel large
      have insertedHere := returns fuel large
      dsimp only at insertedHere
      simp only [LexicalContext.define, Outcome.assertThat_of holds.nonzero, nonzero, if_false,
        describes, Outcome.ok_bind, settled, insertedHere, if_true]
    · exact represents.inserted fresh holdsLarger addsHere refers described
    · apply Level.declare_environment represents.names
      exact Level.bindings_inserted holdsLarger.sorted split splitLarger
    · intro other apart free
      exact (addsHere.symbols other apart (holds.not_mem free)).trans free

/-- A symbol is defined in its own table, where the identifier is not yet bound, or else everything
but the free items of the pools is as before. -/
theorem define {types : ReferenceKind → PoolType α} {memory : Memory}
    {table identifier handle referent : ℕ} {flags type : Flags32} {described released : Pools α}
    (represents : context.Represents levels)
    (encloses : Encloses context.heap table context.symboltable) (nonzero : address ≠ 0)
    (fresh : context.heap.symbols address = none)
    (describes : context.pools.describe types memory flags handle =
      .ok ((type, referent), described))
    (refers : Binding.Refers ⟨identifier, type, referent⟩)
    (releases : described.release types (Binding.owned ⟨identifier, type, referent⟩) =
      .ok released) :
    (Level.environment levels).binding table identifier = none ∧
        (∃ after larger, Outcome.Returns (fun fuel =>
            context.define types memory fuel address table identifier flags handle)
              (address, after) ∧ after.Represents larger ∧
            Level.environment larger =
              (Level.environment levels).declare table identifier (type, referent)) ∨
      (Level.environment levels).binding table identifier ≠ none ∧
        Outcome.Returns (fun fuel =>
          context.define types memory fuel address table identifier flags handle)
            (0, { context with pools := released }) := by
  rcases represents.defineAt encloses nonzero fresh describes refers releases with
    ⟨free, heap, larger, returns, represented, declared, _⟩ | taken
  · exact Or.inl ⟨free, _, larger, returns, represented, declared⟩
  · exact Or.inr taken

end Represents

end LexicalContext

end Dang
