import Dang.SymbolTable.ScopingRuns

/-!
# Cloning symbols

`symbol_clone` gives a table a symbol of its own with the type and referent that the
nearest scope around it binds, and counts the reference. The new symbol keeps the
identifier that `_symbol_init` gave it, which is zero, so only the identifier zero is
cloned as it should be.
-/

namespace Dang

namespace Pools

variable {α : Type} {pools : Pools α}

/-- The flags and referent that `symbol_clone` gives the new symbol, from those of the symbol it
found, with the reference counted in its pool. -/
def cloneReferent (pools : Pools α) (flags : Flags32) (referent : ℕ) :
    Outcome ((Flags32 × ℕ) × Pools α) :=
  match Symbol.kind flags with
  | some kind => do
      let (referent, pool) ← (pools kind).reference referent
      .ok ((flags &&& symbolTypeMask, referent), Function.update pools kind pool)
  | none =>
      if flags &&& symbolTypeMask = symbolFunction then .ok ((symbolFunction, referent), pools)
      else .ok ((0, 0), pools)

/-- A symbol as `symbol_define` makes it, whose object, if it refers to one, is in use and not
locked by a thread. -/
structure Attainable (pools : Pools α) (value : Flags32 × ℕ) : Prop where
  type : value.1 &&& symbolTypeMask = value.1
  known : Symbol.HasType value.1 ∨ value = (0, 0)
  object : ∀ kind, Symbol.kind value.1 = some kind → (pools kind).HandleValid value.2 ∧
    (pools kind).HandleInUse value.2 ∧ 0 < ((pools kind).items value.2).references ∧
      ∀ mutex ∈ ((pools kind).items value.2).mutex, mutex.depth = 0

/-- One more reference to the object of a symbol is counted, if it refers to one. -/
def CountsOnce (before after : Pools α) (value : Flags32 × ℕ) : Prop :=
  ∀ kind, Symbol.kind value.1 = some kind →
    ((after kind).items value.2).references = ((before kind).items value.2).references + 1

/-- What cloning a symbol that can be attained does to the pools. -/
theorem Attainable.cloneReferent (types : ReferenceKind → PoolType α) {value : Flags32 × ℕ}
    (attainable : pools.Attainable value) :
    ∃ cloned, pools.cloneReferent value.1 value.2 = .ok (value, cloned) ∧
      (∀ memory, pools.describe types memory value.1 value.2 = .ok (value, cloned)) ∧
      (∀ identifier, Binding.Refers ⟨identifier, value.1, value.2⟩ ∧
        cloned.release types (Binding.owned ⟨identifier, value.1, value.2⟩) = .ok pools) ∧
      CountsOnce pools cloned value ∧
      ∀ other, pools.Attainable other → cloned.Attainable other := by
  rcases value with ⟨flags, referent⟩
  have typed : flags &&& symbolTypeMask = flags := attainable.type
  cases kind : Symbol.kind flags with
  | none =>
      have result : pools.cloneReferent flags referent = .ok ((flags, referent), pools) := by
        rcases attainable.known with known | unknown
        · have function : flags = symbolFunction := by
            simpa [Symbol.HasType, kind, typed] using known
          subst function
          simp [Pools.cloneReferent, kind, typed]
        · cases unknown
          rfl
      refine ⟨pools, result, ?_, ?_, ?_, fun _ other => other⟩
      · intro memory
        rw [← result]
        simp [Pools.cloneReferent, Pools.describe, kind]
      · intro identifier
        refine ⟨fun some => absurd kind some, ?_⟩
        simp [Binding.owned, kind, Pools.release]
      · intro owner some
        rw [kind] at some
        cases some
  | some owner =>
      rcases attainable.object owner kind with ⟨valid, used, counted, unlocked⟩
      have nonzero : referent ≠ 0 := Nat.ne_of_gt valid.1
      have referenced := Pool.reference_of valid used counted unlocked
      dsimp only at referenced
      have released := (Pool.reference_release (types owner) nonzero referenced).2
      refine ⟨Function.update pools owner ((pools owner).update referent fun wrapper =>
        { wrapper with references := wrapper.references + 1 }), ?_, ?_, ?_, ?_, ?_⟩
      · simp only [Pools.cloneReferent, kind, referenced, Outcome.ok_bind, typed]
      · intro memory
        simp [Pools.describe, kind, nonzero, referenced, typed]
      · intro identifier
        refine ⟨fun _ => valid.1, ?_⟩
        simp only [Binding.owned, kind, release_reference released, Function.update_eq_self]
      · intro other same
        cases kind.symm.trans same
        simp [Pool.update]
      · intro other attained
        refine ⟨attained.type, attained.known, ?_⟩
        intro kind' typed'
        rcases attained.object kind' typed' with ⟨valid', used', counted', unlocked'⟩
        by_cases same : kind' = owner
        · subst same
          by_cases here : other.2 = referent
          · simp only [Function.update_self, Pool.update, Pool.HandleInUse, here]
            rw [here] at valid' used' counted' unlocked'
            exact ⟨valid', used', Nat.succ_pos _, unlocked'⟩
          · simp only [Function.update_self, Pool.update, Pool.HandleInUse,
              Function.update_of_ne here]
            exact ⟨valid', used', counted', unlocked'⟩
        · rw [Function.update_of_ne same]
          exact ⟨valid', used', counted', unlocked'⟩

end Pools

namespace LexicalContext

variable {α : Type} {types : ReferenceKind → PoolType α}

/-- `symbol_clone`: the symbol in the table, or zero; `address` is what `calloc` returns. -/
def clone (types : ReferenceKind → PoolType α) (fuel address : ℕ) (context : LexicalContext α)
    (table identifier : ℕ) : Outcome (ℕ × LexicalContext α) := do
  Outcome.assertThat (table ≠ 0)
  let self ← context.heap.readTable table
  Outcome.assertThat (self.parent ≠ 0)
  let localSymbol ← context.heap.lookupLocal fuel table identifier
  if localSymbol ≠ 0 then .ok (localSymbol, context)
  else do
    let remoteSymbol ← context.heap.lookup fuel self.parent identifier
    if remoteSymbol = 0 then .ok (0, context)
    else if address = 0 then .ok (0, context)
    else do
      let remote ← context.heap.read remoteSymbol
      let ((flags, referent), pools) ← context.pools.cloneReferent remote.flags remote.referent
      let heap := context.heap.set address (some ⟨0, 0, 0, 0, flags, referent⟩)
      let (status, heap) ← heap.insert fuel table address
      if status = 0 then .ok (address, { context with heap := heap, pools := pools })
      else do
        let (released, heap) ← heap.dispose address
        let pools ← pools.release types released
        .ok (0, { context with heap := heap, pools := pools })

/-- Cloning the identifier into the current table succeeds: the table then binds it as the
nearest table around did, the reference is counted, and every other lookup is as before. -/
structure Clones (types : ReferenceKind → PoolType α) (context : LexicalContext α)
    (identifier address : ℕ) (after : LexicalContext α) : Prop where
  returns : ∃ symbol, symbol ≠ 0 ∧ Outcome.Returns (fun fuel =>
    context.clone types fuel address context.symboltable identifier) (symbol, after)
  bound : ∃ value,
    Outcome.Returns (fun fuel => context.lookup fuel context.symboltable identifier)
      (some value) ∧
    Outcome.Returns (fun fuel => after.heap.binding fuel context.symboltable identifier)
      (some value) ∧ context.pools.CountsOnce after.pools value
  lookups : ∀ scope other, Encloses context.heap scope context.symboltable → ∃ found,
    Outcome.Returns (fun fuel => context.lookup fuel scope other) found ∧
      Outcome.Returns (fun fuel => after.lookup fuel scope other) found
  bindings : ∀ scope other, Encloses context.heap scope context.symboltable →
    scope ≠ context.symboltable ∨ other ≠ identifier → ∃ found,
      Outcome.Returns (fun fuel => context.heap.binding fuel scope other) found ∧
        Outcome.Returns (fun fuel => after.heap.binding fuel scope other) found

/-- The identifiers are cloned one after another, each with what `calloc` returns for it. -/
def ClonesAll (types : ReferenceKind → PoolType α) (context : LexicalContext α) :
    List (ℕ × ℕ) → Prop
  | [] => True
  | (identifier, address) :: rest =>
      ∃ after, context.Clones types identifier address after ∧ after.ClonesAll types rest

/-- The tables of the context hold the trees, and every symbol in them can be attained. -/
structure Ready (context : LexicalContext α) (levels : List Level) : Prop where
  represents : context.Represents levels
  attainable : ∀ scope ∈ Level.environment levels, ∀ identifier value,
    scope.2 identifier = some value → context.pools.Attainable value

theorem lookup_eq_some {context : LexicalContext α} {fuel table identifier : ℕ}
    {value : Flags32 × ℕ} (found : context.lookup fuel table identifier = .ok (some value)) :
    ∃ symbol node, context.heap.lookup fuel table identifier = .ok symbol ∧ symbol ≠ 0 ∧
      context.heap.read symbol = .ok node ∧ (node.flags, node.referent) = value := by
  simp only [LexicalContext.lookup, Outcome.bind_eq_ok] at found
  rcases found with ⟨symbol, finds, describes⟩
  simp only [SymbolHeap.describes] at describes
  split_ifs at describes with null
  · cases describes
  · simp only [Outcome.bind_eq_ok, Except.ok.injEq, Option.some.injEq] at describes
    rcases describes with ⟨node, reads, same⟩
    exact ⟨symbol, node, finds, null, reads, same⟩

/-- Cloning a symbol is defining it with the type and referent found, under the identifier 0. -/
theorem clone_eq_define {context : LexicalContext α} {memory : Memory}
    {fuel address table identifier : ℕ} {self : SymbolTable} {value : Flags32 × ℕ}
    (nonzero : table ≠ 0) (atTable : context.heap.tables table = some self)
    (nested : self.parent ≠ 0) (unbound : context.heap.lookupLocal fuel table identifier = .ok 0)
    (found : context.lookup fuel self.parent identifier = .ok (some value))
    (same : context.pools.cloneReferent value.1 value.2 =
      context.pools.describe types memory value.1 value.2) :
    context.clone types fuel address table identifier =
      context.define types memory fuel address table 0 value.1 value.2 := by
  rcases lookup_eq_some found with ⟨symbol, node, finds, some, reads, rfl⟩
  simp only [LexicalContext.clone, LexicalContext.define, Outcome.assertThat_of nonzero,
    SymbolHeap.readTable_of nonzero atTable, Outcome.assertThat_of nested, Outcome.ok_bind, unbound,
    finds, some, reads, same, ne_eq, not_true_eq_false, if_false]

/-- The current table of a context whose lookups find anything is its innermost level. -/
theorem Represents.exists_innermost {context : LexicalContext α} {levels : List Level}
    {identifier : ℕ} {value : Flags32 × ℕ} (represents : context.Represents levels)
    (bound : (Level.environment levels).lookup identifier = some value) :
    ∃ tree outer, levels = (context.symboltable, tree) :: outer ∧
      context.symboltable ∉ (Level.environment outer).map Prod.fst := by
  cases levels with
  | nil => simp [Level.environment, Environment.lookup] at bound
  | cons level outer =>
      rcases represents.nests.of_cons with ⟨here, _⟩
      refine ⟨level.2, outer, by rw [here], ?_⟩
      rw [Level.names_environment, here]
      exact (List.nodup_cons.mp represents.names).1

theorem names_of_declared {levels larger : List Level} {table identifier : ℕ}
    {value : Flags32 × ℕ} (declared : Level.environment larger =
      (Level.environment levels).declare table identifier value) :
    larger.map Prod.fst = levels.map Prod.fst := by
  rw [← Level.names_environment, declared, Environment.map_fst_declare, Level.names_environment]

/-- The scopes that a table which binds nothing to the identifier finds it in are around it. -/
theorem Nests.nonzero_of_lookup {context : LexicalContext α} {levels : List Level}
    {address inner identifier : ℕ} {value : Flags32 × ℕ}
    (nests : Nests context address inner levels)
    (bound : (Level.environment levels).lookup identifier = some value) : address ≠ 0 := by
  rintro rfl
  rcases nests.address_cases with ⟨_, rfl⟩ | ⟨impossible, _⟩
  · simp [Level.environment, Environment.lookup] at bound
  · exact impossible rfl

theorem Ready.attainable_of_lookup {context : LexicalContext α} {levels : List Level}
    {identifier : ℕ} {value : Flags32 × ℕ} (ready : context.Ready levels)
    (bound : (Level.environment levels).lookup identifier = some value) :
    context.pools.Attainable value := by
  rcases List.exists_of_findSome?_eq_some bound with ⟨scope, mem, binds⟩
  exact ready.attainable scope mem identifier value binds

/-- Cloning an identifier that only a scope around the current one binds. -/
theorem Ready.clone_returns {context : LexicalContext α} {levels : List Level} {identifier : ℕ}
    {value : Flags32 × ℕ} (types : ReferenceKind → PoolType α) (memory : Memory)
    (ready : context.Ready levels)
    (unbound : (Level.environment levels).binding context.symboltable identifier = none)
    (bound : (Level.environment levels).lookup identifier = some value) :
    ∃ least, ∀ fuel address, least ≤ fuel →
      context.clone types fuel address context.symboltable identifier =
        context.define types memory fuel address context.symboltable 0 value.1 value.2 := by
  rcases ready.represents.exists_innermost bound with ⟨tree, outer, rfl, _⟩
  rcases ready.represents.nests.of_cons with ⟨_, holds, _, parent, symbols, atTable, outside⟩
  have absent : Level.bindings tree identifier = none := by
    rw [← Level.binding_environment_cons _ tree outer]
    exact unbound
  have beyond : (Level.environment outer).lookup identifier = some value := by
    simpa [Level.environment, Environment.lookup, absent] using bound
  have nested := outside.nonzero_of_lookup beyond
  rcases (ready.attainable_of_lookup bound).cloneReferent types with
    ⟨cloned, cloning, describing, _⟩
  refine ⟨Level.size ((context.symboltable, tree) :: outer) + 2, ?_⟩
  intro fuel address enough
  simp only [Level.size, List.map_cons, List.sum_cons] at enough
  apply clone_eq_define holds.nonzero atTable nested _ _ (cloning.trans (describing memory).symm)
  · have none : tree.lookup nodeIdentifier identifier = none := by
      simpa [Level.bindings] using absent
    have rounds : tree.inorder.length + 1 < fuel := by omega
    simp [SymbolHeap.lookupLocal_eq holds rounds, none]
  · have size : Level.size outer < fuel := by
      simp only [Level.size]
      omega
    rw [outside.lookup_eq identifier nested size, beyond]

/-- A context whose current table has one symbol more, with an object that could be attained. -/
theorem Ready.declared {context after : LexicalContext α} {levels larger : List Level}
    {identifier : ℕ} {value : Flags32 × ℕ} (ready : context.Ready levels)
    (represents : after.Represents larger)
    (attainable : context.pools.Attainable value)
    (attained : ∀ other, context.pools.Attainable other → after.pools.Attainable other)
    (declared : Level.environment larger =
      (Level.environment levels).declare context.symboltable identifier value) :
    after.Ready larger := by
  refine ⟨represents, ?_⟩
  intro scope mem other found binds
  rw [declared] at mem
  rcases List.mem_map.mp mem with ⟨old, inLevels, rfl⟩
  apply attained
  by_cases here : old.1 = context.symboltable
  · simp only [here, if_true] at binds
    by_cases same : other = identifier
    · rw [same, Function.update_self] at binds
      cases binds
      exact attainable
    · rw [Function.update_of_ne same] at binds
      exact ready.attainable old inLevels other found binds
  · simp only [here, if_false] at binds
    exact ready.attainable old inLevels other found binds

/-- What cloning does to a context whose symbols can be attained: the current table gets a symbol
with the identifier 0, or it has one and nothing is cloned. -/
theorem Ready.clone {context : LexicalContext α} {levels : List Level} {identifier address : ℕ}
    {value : Flags32 × ℕ} (types : ReferenceKind → PoolType α) (ready : context.Ready levels)
    (unbound : (Level.environment levels).binding context.symboltable identifier = none)
    (bound : (Level.environment levels).lookup identifier = some value) (nonzero : address ≠ 0)
    (fresh : context.heap.symbols address = none) :
    (Level.environment levels).binding context.symboltable 0 = none ∧
        (∃ after larger, Outcome.Returns (fun fuel =>
            context.clone types fuel address context.symboltable identifier) (address, after) ∧
          after.Ready larger ∧ after.symboltable = context.symboltable ∧
          Level.environment larger =
            (Level.environment levels).declare context.symboltable 0 value ∧
          context.pools.CountsOnce after.pools value ∧
          ∀ other, other ≠ address → context.heap.symbols other = none →
            after.heap.symbols other = none) ∨
      (Level.environment levels).binding context.symboltable 0 ≠ none ∧
        ∃ after, Outcome.Returns (fun fuel =>
          context.clone types fuel address context.symboltable identifier) (0, after) := by
  have attainable := ready.attainable_of_lookup bound
  rcases ready.clone_returns types Memory.ample unbound bound with ⟨least, same⟩
  have defines : ∀ result : ℕ × LexicalContext α, Outcome.Returns (fun fuel =>
      context.define types Memory.ample fuel address context.symboltable 0 value.1 value.2)
        result → Outcome.Returns (fun fuel =>
      context.clone types fuel address context.symboltable identifier) result := by
    rintro result ⟨enough, returns⟩
    refine ⟨least + enough, ?_⟩
    intro fuel large
    exact (same fuel address (by omega)).trans (returns fuel (by omega))
  have current : context.symboltable ≠ 0 := ready.represents.nests.nonzero_of_lookup bound
  rcases attainable.cloneReferent types with ⟨cloned, _, describing, given, counts, attained⟩
  rcases given 0 with ⟨refers, releases⟩
  rcases ready.represents.defineAt (.self current) nonzero fresh (describing Memory.ample) refers
    releases with ⟨free, heap, larger, returns, represented, declared, unused⟩ | ⟨taken, returns⟩
  · refine Or.inl ⟨free, _, larger, defines _ returns, ?_, rfl, declared, counts, unused⟩
    exact ready.declared represented attainable attained declared
  · exact Or.inr ⟨taken, _, defines _ returns⟩

/-- The identifier 0 is cloned as it should be. -/
theorem Ready.clones_zero {context : LexicalContext α} {levels : List Level} {address : ℕ}
    {value : Flags32 × ℕ} (types : ReferenceKind → PoolType α) (ready : context.Ready levels)
    (unbound : (Level.environment levels).binding context.symboltable 0 = none)
    (bound : (Level.environment levels).lookup 0 = some value) (nonzero : address ≠ 0)
    (fresh : context.heap.symbols address = none) :
    ∃ after larger, context.Clones types 0 address after ∧ after.Ready larger ∧
      after.symboltable = context.symboltable ∧
      Level.environment larger =
        (Level.environment levels).declare context.symboltable 0 value ∧
      ∀ other, other ≠ address → context.heap.symbols other = none →
        after.heap.symbols other = none := by
  rcases ready.represents.exists_innermost bound with ⟨tree, outer, rfl, apart⟩
  have current : context.symboltable ∈
      ((context.symboltable, tree) :: outer).map Prod.fst := List.mem_cons_self
  have absent : Level.bindings tree 0 = none := by
    rw [← Level.binding_environment_cons _ tree outer]
    exact unbound
  rcases ready.clone types unbound bound nonzero fresh with
    ⟨free, after, larger, returns, readyAfter, same, declared, counts, unused⟩ | taken
  · have names := names_of_declared declared
    refine ⟨after, larger, ⟨⟨address, nonzero, returns⟩, ⟨value, ?_, ?_, counts⟩, ?_, ?_⟩,
      readyAfter, same, declared, unused⟩
    · have found := ready.represents.lookup_of_mem 0 current
      rw [Level.fromScope_environment_cons, bound] at found
      exact found
    · have found := readyAfter.represents.binding_of_mem 0 (names ▸ current)
      rw [declared] at found
      exact (Environment.binding_declare_self apart 0 value) ▸ found
    · intro scope other encloses
      have mem := ready.represents.nests.mem_of_encloses encloses
      refine ⟨_, ready.represents.lookup_of_mem other mem, ?_⟩
      have found := readyAfter.represents.lookup_of_mem other (names ▸ mem)
      rw [declared] at found
      exact (Environment.lookup_declare_same apart absent bound) ▸ found
    · intro scope other encloses different
      have mem := ready.represents.nests.mem_of_encloses encloses
      refine ⟨_, ready.represents.binding_of_mem other mem, ?_⟩
      have found := readyAfter.represents.binding_of_mem other (names ▸ mem)
      rw [declared] at found
      exact (Environment.binding_declare_of_ne apart value different) ▸ found
  · exact absurd unbound taken.1

/-- Without storage, or with another identifier than 0, cloning fails, or binds the identifier 0 and
leaves its own unbound. -/
theorem Ready.not_clones {context : LexicalContext α} {levels : List Level}
    {identifier address : ℕ} {value : Flags32 × ℕ} (ready : context.Ready levels)
    (unbound : (Level.environment levels).binding context.symboltable identifier = none)
    (bound : (Level.environment levels).lookup identifier = some value)
    (fresh : address ≠ 0 → context.heap.symbols address = none)
    (fails : address = 0 ∨ identifier ≠ 0) (after : LexicalContext α) :
    ¬context.Clones types identifier address after := by
  intro clones
  rcases clones.returns with ⟨symbol, some, returns⟩
  by_cases null : address = 0
  · rcases ready.clone_returns types Memory.ample unbound bound with ⟨least, same⟩
    rcases returns with ⟨enough, returns⟩
    have current := ready.represents.nests.nonzero_of_lookup bound
    have cloning := (returns (least + enough) (by omega)).symm.trans
      (same (least + enough) address (by omega))
    simp only [LexicalContext.define, Outcome.assertThat_of current, null, Outcome.ok_bind, if_true,
      Except.ok.injEq, Prod.mk.injEq] at cloning
    exact some cloning.1
  · have other : identifier ≠ 0 := fails.resolve_left null
    rcases ready.represents.exists_innermost bound with ⟨tree, outer, rfl, apart⟩
    rcases ready.clone types unbound bound null (fresh null) with
      ⟨_, after', larger, returns', readyAfter, same, declared, _⟩ | ⟨_, after', returns'⟩
    · rcases Prod.mk.inj (returns.unique returns') with ⟨rfl, rfl⟩
      have mem : context.symboltable ∈ larger.map Prod.fst :=
        names_of_declared declared ▸ List.mem_cons_self
      have still := readyAfter.represents.binding_of_mem identifier mem
      have kept : ((Level.environment ((context.symboltable, tree) :: outer)).declare
          context.symboltable 0 value).binding context.symboltable identifier = none :=
        (Environment.binding_declare_of_ne apart value (Or.inr other)).trans unbound
      rw [declared, kept] at still
      rcases clones.bound with ⟨found, _, binds, _⟩
      cases binds.unique still
    · exact some (Prod.mk.inj (returns.unique returns')).1

/-- Identifiers that only the scopes around a table bind are all cloned into it as they should be
exactly when each of them is 0 and there is storage for its symbol. -/
theorem clonesAll_iff {context : LexicalContext α} {levels : List Level} {clones : List (ℕ × ℕ)}
    (ready : context.Ready levels) (distinct : (clones.map Prod.fst).Nodup)
    (apart : clones.Pairwise fun first second => second.2 ≠ 0 → second.2 ≠ first.2)
    (fresh : ∀ clone ∈ clones, clone.2 ≠ 0 → context.heap.symbols clone.2 = none)
    (unbound : ∀ clone ∈ clones,
      (Level.environment levels).binding context.symboltable clone.1 = none)
    (bound : ∀ clone ∈ clones, (Level.environment levels).lookup clone.1 ≠ none) :
    context.ClonesAll types clones ↔ ∀ clone ∈ clones, clone.1 = 0 ∧ clone.2 ≠ 0 := by
  induction clones generalizing context levels with
  | nil => simp [ClonesAll]
  | cons head rest ih =>
      rcases head with ⟨identifier, address⟩
      have here : (identifier, address) ∈ (identifier, address) :: rest := List.mem_cons_self
      have headUnbound := unbound _ here
      rcases Option.ne_none_iff_exists'.mp (bound _ here) with ⟨value, headBound⟩
      have headFresh := fresh _ here
      rw [List.map_cons, List.nodup_cons] at distinct
      rw [List.pairwise_cons] at apart
      simp only [List.forall_mem_cons]
      dsimp only at headUnbound headBound headFresh
      by_cases meets : identifier = 0 ∧ address ≠ 0
      · rcases meets with ⟨rfl, nonzero⟩
        rcases ready.clones_zero types headUnbound headBound nonzero (headFresh nonzero) with
          ⟨after, larger, clone, readyAfter, same, declared, unused⟩
        rcases ready.represents.exists_innermost headBound with ⟨tree, outer, rfl, outerApart⟩
        have others : ∀ next ∈ rest, next.1 ≠ 0 := by
          intro next mem zero
          exact distinct.1 (List.mem_map.mpr ⟨next, mem, zero⟩)
        have unboundAfter : ∀ next ∈ rest,
            (Level.environment larger).binding after.symboltable next.1 = none := by
          intro next mem
          rw [declared, same]
          exact (Environment.binding_declare_of_ne outerApart value (Or.inr (others next mem))).trans
            (unbound next (List.mem_cons_of_mem _ mem))
        have boundAfter : ∀ next ∈ rest, (Level.environment larger).lookup next.1 ≠ none := by
          intro next mem
          have kept : ((Level.environment ((context.symboltable, tree) :: outer)).declare
              context.symboltable 0 value).lookup next.1 =
                (Level.environment ((context.symboltable, tree) :: outer)).lookup next.1 :=
            Environment.lookup_declare_of_ne outerApart value (others next mem)
          rw [declared]
          exact kept ▸ bound next (List.mem_cons_of_mem _ mem)
        have freshAfter : ∀ next ∈ rest, next.2 ≠ 0 → after.heap.symbols next.2 = none := by
          intro next mem some
          exact unused next.2 (apart.1 next mem some) (fresh next (List.mem_cons_of_mem _ mem) some)
        have later := ih readyAfter distinct.2 apart.2 freshAfter unboundAfter boundAfter
        constructor
        · rintro ⟨after', clone', clonesRest⟩
          rcases clone.returns with ⟨_, _, returns⟩
          rcases clone'.returns with ⟨_, _, returns'⟩
          rcases Prod.mk.inj (returns'.unique returns) with ⟨_, rfl⟩
          exact ⟨⟨rfl, nonzero⟩, later.mp clonesRest⟩
        · rintro ⟨_, zeros⟩
          exact ⟨after, clone, later.mpr zeros⟩
      · have fails : address = 0 ∨ identifier ≠ 0 := by
          rw [not_and_or, not_not] at meets
          exact meets.symm
        constructor
        · rintro ⟨after, clone, _⟩
          exact absurd clone (ready.not_clones headUnbound headBound headFresh fails after)
        · rintro ⟨first, _⟩
          exact absurd first meets

section Sample

/-- A scope that binds nothing inside one that binds the identifier to the scalar in use. -/
def nestedContext (identifier : ℕ) : LexicalContext Unit where
  heap :=
    { symbols := Function.update (fun _ => none) 2 (some ⟨0, 0, 0, identifier, symbolScalar, 1⟩)
      tables := Function.update (Function.update (fun _ => none) 1 (some ⟨0, 2⟩)) 3 (some ⟨1, 0⟩) }
  references := Function.update (Function.update (fun _ => 0) 1 2) 3 1
  symboltable := 3
  pools := samplePools

def nestedLevels (identifier : ℕ) : List Level :=
  [(3, .leaf), (1, .node .leaf (2, ⟨identifier, symbolScalar, 1⟩) .leaf)]

theorem nestedContext_ready (identifier : ℕ) :
    (nestedContext identifier).Ready (nestedLevels identifier) := by
  have outer : (nestedContext identifier).heap.Holds 1
      (.node .leaf (2, ⟨identifier, symbolScalar, 1⟩) .leaf) :=
    ⟨by decide, ⟨⟨0, 2⟩, rfl, rfl, by decide, ⟨0, 0, ⟨identifier, symbolScalar, 1⟩⟩, rfl, rfl, rfl,
      rfl⟩, by simp [Tree.addresses, Tree.inorder], by simp [Tree.Sorted, Tree.inorder]⟩
  have inner : (nestedContext identifier).heap.Holds 3 .leaf :=
    ⟨by decide, ⟨⟨1, 0⟩, rfl, rfl⟩, List.nodup_nil, List.Pairwise.nil⟩
  refine ⟨⟨.level inner rfl rfl (.level outer rfl rfl (.nil 1)), ?_, ?_, ?_⟩, ?_⟩
  · simp [nestedLevels]
  · simp [nestedLevels, Level.addresses, Tree.addresses, Tree.inorder]
  · intro level mem node inTree
    simp only [nestedLevels, List.mem_cons, List.not_mem_nil, or_false] at mem
    rcases mem with rfl | rfl
    · simp [Tree.inorder] at inTree
    · simp only [Tree.inorder, List.nil_append, List.mem_singleton] at inTree
      subst inTree
      exact fun _ => Nat.one_pos
  · intro scope mem other value binds
    have value : value = (symbolScalar, 1) := by
      simp only [nestedLevels, Level.environment, List.map_cons, List.map_nil, List.mem_cons,
        List.not_mem_nil, or_false] at mem
      rcases mem with rfl | rfl
      · simp [Level.bindings, Tree.lookup, Tree.inorder] at binds
      · simp only [Level.bindings, Tree.lookup, Tree.inorder, List.nil_append,
          Option.map_eq_some_iff] at binds
        rcases binds with ⟨node, found, rfl⟩
        cases List.mem_singleton.mp (List.mem_of_find?_eq_some found)
        rfl
    subst value
    refine ⟨by decide, Or.inl (by decide), ?_⟩
    intro kind typed
    have scalar : kind = .scalar := by
      have same : Symbol.kind symbolScalar = some .scalar := by decide
      exact Option.some.inj (typed.symm.trans same)
    subst scalar
    have valid : (samplePools .scalar).HandleValid 1 := by decide
    have counted : 0 < ((samplePools .scalar).items 1).references := by decide
    refine ⟨valid, rfl, counted, ?_⟩
    intro mutex owned
    cases owned

theorem clonesAll_iff_nested :
    (nestedContext 0).ClonesAll sampleTypes [(0, 4)] ↔
      ∀ clone ∈ [((0 : ℕ), (4 : ℕ))], clone.1 = 0 ∧ clone.2 ≠ 0 := by
  apply clonesAll_iff (nestedContext_ready 0) (by decide) (by decide)
  · intro clone mem _
    cases List.mem_singleton.mp mem
    rfl
  · intro clone mem
    cases List.mem_singleton.mp mem
    rfl
  · intro clone mem
    cases List.mem_singleton.mp mem
    exact Option.some_ne_none _

/-- The context after the identifier 7 is cloned, with a new symbol at the address 4. -/
def nestedCloned : LexicalContext Unit :=
  ((LexicalContext.clone sampleTypes 3 4 (nestedContext 7) 3 7).toOption.getD
    (0, nestedContext 7)).2

/-- The clone of a symbol with the identifier 7 is found under 0, and not under 7. -/
theorem clone_unbound :
    (nestedContext 7).Ready (nestedLevels 7) ∧
      (Level.environment (nestedLevels 7)).binding 3 7 = none ∧
      (Level.environment (nestedLevels 7)).lookup 7 = some (symbolScalar, 1) ∧
      Outcome.Returns (fun fuel =>
        LexicalContext.clone sampleTypes fuel 4 (nestedContext 7) 3 7) (4, nestedCloned) ∧
      Outcome.Returns (fun fuel => nestedCloned.heap.binding fuel 3 7) none ∧
      Outcome.Returns (fun fuel => nestedCloned.heap.binding fuel 3 0) (some (symbolScalar, 1)) ∧
      ∀ after, ¬(nestedContext 7).Clones sampleTypes 7 4 after := by
  refine ⟨nestedContext_ready 7, rfl, rfl, ⟨3, ?_⟩, ⟨3, ?_⟩, ⟨3, ?_⟩, ?_⟩
  · intro fuel enough
    rcases Nat.exists_eq_add_of_le' enough with ⟨more, rfl⟩
    rfl
  · intro fuel enough
    rcases Nat.exists_eq_add_of_le' enough with ⟨more, rfl⟩
    rfl
  · intro fuel enough
    rcases Nat.exists_eq_add_of_le' enough with ⟨more, rfl⟩
    rfl
  · have unbound : (Level.environment (nestedLevels 7)).binding (nestedContext 7).symboltable 7 =
        none := rfl
    have bound : (Level.environment (nestedLevels 7)).lookup 7 = some (symbolScalar, 1) := rfl
    exact (nestedContext_ready 7).not_clones unbound bound (fun _ => rfl) (Or.inr (by decide))

end Sample

end LexicalContext

end Dang
