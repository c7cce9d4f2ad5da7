import Dang.Machine.Finish
import Dang.Registry

/-!
# Teardown

All contexts of a run together, with the registry in which `symboltable_init` puts a
table and from which `symboltable_destroy` takes it. When the last context has ended,
`vm_main` collects what the registry still holds, until nothing is left. No two
contexts share a table: a new context starts without one.
-/

namespace Dang

/-- The loop of `symboltable_garbage_collect`. It stops at the first table that is referenced. -/
def garbageCollect : ℕ → Registry → Scopes → Outcome (ℤ × Registry × Scopes)
  | 0, _, _ => .error .outOfFuel
  | fuel + 1, registry, scopes =>
      if registry.head = 0 then .ok (0, registry, scopes)
      else do
        let reg ← registry.nodes.read registry.head
        let table ← scopes.read reg.entry
        if 0 < table.references then .ok (1, registry, scopes)
        else do
          let scopes ← scopes.dropReference table.parent
          garbageCollect fuel
            ⟨reg.next, Function.update registry.nodes registry.head none⟩ (scopes.free reg.entry)

/-- `while (symboltable_garbage_collect() > 0)`, the loop of `vm_main`. -/
def cleanUp : ℕ → Registry → Scopes → Outcome Scopes
  | 0, _, _ => .error .outOfFuel
  | fuel + 1, registry, scopes => do
      let (status, registry, scopes) ← garbageCollect (fuel + 1) registry scopes
      if 0 < status then cleanUp fuel registry scopes else .ok scopes

/-- The contexts that run, and the tables of all. -/
structure VmSystem where
  contexts : List VmContext
  /-- What each context that has ended has left in storage. -/
  remains : List Scopes
  /-- `_symboltable_registry` -/
  registry : Registry

/-- What happens next in a run of all contexts. -/
inductive VmSystemEvent
  /-- A context starts. -/
  | start (answers : Answers) (node : ℕ)
  /-- A context goes on. -/
  | step (index : ℕ) (event : VmEvent) (node : ℕ)
  /-- A context ends. -/
  | finish (index : ℕ)

/-- What `symboltable_init` and `symboltable_destroy` do to the registry in a step from the tables
`source` to the tables `target`, of which one may be new. Without storage for its node, it is not
registered. -/
def Registry.Follows (source target : Scopes) (table node : ℕ) (registry after : Registry) : Prop :=
  ∃ entered destroyed,
    (entered = registry ∨
      ¬ target.Gone table ∧ node ≠ 0 ∧ registry.nodes node = none ∧
        entered = registry.insert node table) ∧
    (∀ address, address ∈ destroyed ↔ ¬ source.Gone address ∧ target.Gone address) ∧
    Outcome.Returns (fun fuel => entered.removeAll fuel destroyed) after

namespace VmSystem

/-- Before `vm_main` has started a context. -/
def initial : VmSystem := ⟨[], [], .empty⟩

/-- The tables of all contexts, those that have ended included. -/
def heaps (system : VmSystem) : List Scopes :=
  system.contexts.map VmContext.scopes ++ system.remains

/-- The tables in storage. -/
def tables (system : VmSystem) : Scopes := fun address =>
  system.heaps.findSome? fun scopes => scopes address

/-- The storage that `calloc` returns is not in use by any context. -/
def Unused (system : VmSystem) (answers : Answers) : Prop :=
  answers.table ≠ 0 → ∀ scopes ∈ system.heaps, scopes answers.table = none

/-- What the contexts that have ended have left in storage is destroyed, or not referenced. -/
def Reclaims (system : VmSystem) : Prop :=
  ∀ scopes ∈ system.remains, ∀ address, scopes.Gone address

end VmSystem

/-- A step of all contexts. -/
def VmSystemStep (bytecode : Bytes) (source : VmSystem) (event : VmSystemEvent)
    (target : VmSystem) : Prop :=
  match event with
  | .start answers node => ∃ context start flags,
      (VmContext.init start flags).enter answers = .ok context ∧ source.Unused answers ∧
      target.contexts = context :: source.contexts ∧ target.remains = source.remains ∧
      source.registry.Follows (fun _ => none) context.scopes answers.table node target.registry
  | .step index event node => ∃ before after,
      source.contexts[index]? = some before ∧ VmStep bytecode before event after ∧
      source.Unused event.answers ∧
      target.contexts = source.contexts.set index after ∧ target.remains = source.remains ∧
      source.registry.Follows before.scopes after.scopes event.answers.table node target.registry
  | .finish index => ∃ before scopes,
      source.contexts[index]? = some before ∧ before.Ends bytecode ∧ before.finish = .ok scopes ∧
      target.contexts = source.contexts.eraseIdx index ∧
      target.remains = scopes :: source.remains ∧
      source.registry.Follows before.scopes scopes 0 0 target.registry

/-- The contexts that end are shallow. -/
def EndsShallow (source : VmSystem) (event : VmSystemEvent) : Prop :=
  match event with
  | .finish index => ∀ context, source.contexts[index]? = some context → context.Shallow
  | _ => True

/-- The registry afterwards holds no table that was destroyed, and only the new one in addition. -/
theorem Registry.Follows.lists {source target : Scopes} {table node : ℕ}
    {registry after : Registry} {entries : List ℕ}
    (follows : registry.Follows source target table node after) (lists : registry.Lists entries)
    (once : entries.Nodup) (unregistered : ¬ target.Gone table → table ∉ entries) :
    ∃ rest, after.Lists rest ∧ rest.Nodup ∧ ∀ entry ∈ rest,
      (entry ∈ entries ∨ entry = table ∧ ¬ target.Gone table) ∧
        (source.Gone entry ∨ ¬ target.Gone entry) := by
  rcases follows with ⟨entered, destroyed, enters, isDestroyed, enough, returns⟩
  have listed : ∃ registered, entered.Lists registered ∧ registered.Nodup ∧
      ∀ entry ∈ registered, entry ∈ entries ∨ entry = table ∧ ¬ target.Gone table := by
    rcases enters with rfl | ⟨live, nonzero, unused, rfl⟩
    · exact ⟨entries, lists, once, fun entry mem => Or.inl mem⟩
    · refine ⟨table :: entries, lists.insert nonzero unused table,
        List.nodup_cons.mpr ⟨unregistered live, once⟩, ?_⟩
      intro entry mem
      rcases List.mem_cons.mp mem with rfl | later
      · exact Or.inr ⟨rfl, live⟩
      · exact Or.inl later
  rcases listed with ⟨registered, lists, once, origin⟩
  have long : registered.length < enough + registered.length + 1 := by omega
  rcases lists.removeAll destroyed once long with
    ⟨after', rest, removes, lists, once, members⟩
  rcases Except.ok.inj ((returns _ (by omega)).symm.trans removes) with rfl
  refine ⟨rest, lists, once, ?_⟩
  intro entry mem
  rcases (members entry).mp mem with ⟨inside, kept⟩
  refine ⟨origin entry inside, ?_⟩
  by_cases gone : source.Gone entry
  · exact Or.inl gone
  · exact Or.inr fun destroyedNow => kept ((isDestroyed entry).mpr ⟨gone, destroyedNow⟩)

namespace VmSystem

variable {bytecode : Bytes} {source target : VmSystem} {event : VmSystemEvent}

/-- The tables of each context are its open scopes, and the registry holds only tables that some
context has. -/
structure Valid (system : VmSystem) : Prop where
  encloses : ∀ context ∈ system.contexts, ∃ chain, context.Encloses chain
  registered : ∃ entries, system.registry.Lists entries ∧ entries.Nodup ∧
    ∀ entry ∈ entries, ∃ scopes ∈ system.heaps, ¬ scopes.Gone entry

theorem valid_initial : initial.Valid where
  encloses := by
    intro context mem
    simp [initial] at mem
  registered := ⟨[], Registry.empty_lists, List.nodup_nil, by simp⟩

/-- A new table is not registered yet. -/
theorem not_mem_of_unused {answers : Answers} {entries : List ℕ} {scopes : Scopes}
    (live : ∀ entry ∈ entries, ∃ scopes ∈ source.heaps, ¬ scopes.Gone entry)
    (unused : source.Unused answers) (noNull : scopes 0 = none)
    (stands : ¬ scopes.Gone answers.table) : answers.table ∉ entries := by
  intro mem
  have nonzero : answers.table ≠ 0 := by
    intro zero
    exact stands (zero ▸ Scopes.gone_of_eq_none noNull)
  rcases live _ mem with ⟨other, inHeaps, standsThere⟩
  exact standsThere (Scopes.gone_of_eq_none (unused nonzero other inHeaps))

/-- The registry keeps to the tables that some context has. -/
theorem registered_of_follows {before after : Scopes} {table node : ℕ}
    (valid : source.Valid)
    (unregistered : ∀ entries : List ℕ,
      (∀ entry ∈ entries, ∃ scopes ∈ source.heaps, ¬ scopes.Gone entry) →
      ¬ after.Gone table → table ∉ entries)
    (follows : source.registry.Follows before after table node target.registry)
    (here : after ∈ target.heaps)
    (others : ∀ scopes ∈ source.heaps, scopes = before ∨ scopes ∈ target.heaps) :
    ∃ entries, target.registry.Lists entries ∧ entries.Nodup ∧
      ∀ entry ∈ entries, ∃ scopes ∈ target.heaps, ¬ scopes.Gone entry := by
  rcases valid.registered with ⟨entries, lists, once, live⟩
  rcases follows.lists lists once (unregistered entries live) with ⟨rest, lists, once, members⟩
  refine ⟨rest, lists, once, ?_⟩
  intro entry mem
  rcases members entry mem with ⟨old | ⟨rfl, stands⟩, kept⟩
  · rcases live entry old with ⟨scopes, inHeaps, stands⟩
    rcases others scopes inHeaps with rfl | inTarget
    · rcases kept with gone | standsNow
      · exact absurd gone stands
      · exact ⟨after, here, standsNow⟩
    · exact ⟨scopes, inTarget, stands⟩
  · exact ⟨after, here, stands⟩

/-- Every context but the one that goes on is left alone. -/
theorem mem_set_or {contexts : List VmContext} {index : ℕ} {before context : VmContext}
    (here : contexts[index]? = some before) (mem : context ∈ contexts) (after : VmContext) :
    context = before ∨ context ∈ contexts.set index after := by
  rcases List.mem_iff_getElem?.mp mem with ⟨other, there⟩
  by_cases same : index = other
  · subst same
    exact Or.inl (Option.some.inj (there.symm.trans here))
  · apply Or.inr
    apply List.mem_iff_getElem?.mpr
    exact ⟨other, by rw [List.getElem?_set_ne same, there]⟩

theorem mem_eraseIdx_or {contexts : List VmContext} {index : ℕ} {before context : VmContext}
    (here : contexts[index]? = some before) (mem : context ∈ contexts) :
    context = before ∨ context ∈ contexts.eraseIdx index := by
  rcases List.mem_iff_getElem?.mp mem with ⟨other, there⟩
  by_cases same : other = index
  · subst same
    exact Or.inl (Option.some.inj (there.symm.trans here))
  · apply Or.inr
    apply List.mem_eraseIdx_iff_getElem?.mpr
    exact ⟨other, same, there⟩

theorem encloses_zero {context : VmContext} {chain : List ℕ} (encloses : context.Encloses chain) :
    context.scopes 0 = none :=
  encloses.stored 0 fun mem => encloses.counted.ne_zero_of_mem mem rfl

/-- Every step keeps the registry to the open scopes. -/
theorem Valid.step (valid : source.Valid) (step : VmSystemStep bytecode source event target) :
    target.Valid := by
  cases event with
  | start answers node =>
      rcases step with ⟨context, start, flags, entered, unused, contexts, remains, follows⟩
      rcases VmContext.encloses_of_starts ⟨answers, start, flags, entered⟩ with ⟨chain, encloses⟩
      refine ⟨?_, registered_of_follows valid ?_ follows ?_ ?_⟩
      · intro other mem
        rw [contexts] at mem
        rcases List.mem_cons.mp mem with rfl | later
        · exact ⟨chain, encloses⟩
        · exact valid.encloses other later
      · intro entries live stands
        exact not_mem_of_unused live unused (encloses_zero encloses) stands
      · simp [heaps, contexts]
      · intro scopes mem
        apply Or.inr
        simp only [heaps, contexts, remains, List.map_cons, List.cons_append]
        exact List.mem_cons_of_mem _ mem
  | step index event node =>
      rcases step with ⟨before, after, here, steps, unused, contexts, remains, follows⟩
      rcases valid.encloses before (List.mem_of_getElem? here) with ⟨chain, encloses⟩
      rcases encloses.step steps with ⟨chain', encloses'⟩
      have there : after ∈ target.contexts := by
        rw [contexts]
        rcases List.getElem?_eq_some_iff.mp here with ⟨inside, _⟩
        exact List.mem_set inside after
      refine ⟨?_, registered_of_follows valid ?_ follows ?_ ?_⟩
      · intro other mem
        rw [contexts] at mem
        rcases List.mem_or_eq_of_mem_set mem with old | rfl
        · exact valid.encloses other old
        · exact ⟨chain', encloses'⟩
      · intro entries live stands
        exact not_mem_of_unused live unused (encloses_zero encloses') stands
      · exact List.mem_append_left _ (List.mem_map_of_mem there)
      · intro scopes mem
        rcases List.mem_append.mp mem with running | left
        · rcases List.mem_map.mp running with ⟨context, among, rfl⟩
          rcases mem_set_or here among after with rfl | kept
          · exact Or.inl rfl
          · rw [heaps, contexts]
            exact Or.inr (List.mem_append_left _ (List.mem_map_of_mem kept))
        · rw [heaps, remains]
          exact Or.inr (List.mem_append_right _ left)
  | finish index =>
      rcases step with ⟨before, after, here, _, finishes, contexts, remains, follows⟩
      rcases valid.encloses before (List.mem_of_getElem? here) with ⟨chain, encloses⟩
      rcases encloses.finish_eq_ok with ⟨left, finishes', gone⟩
      rcases Except.ok.inj (finishes.symm.trans finishes') with rfl
      have noNull : after.Gone 0 := by
        apply (gone 0).mpr
        intro mem
        exact encloses.counted.ne_zero_of_mem (List.mem_of_mem_drop mem) rfl
      refine ⟨?_, registered_of_follows valid ?_ follows ?_ ?_⟩
      · intro other mem
        rw [contexts] at mem
        exact valid.encloses other (List.mem_of_mem_eraseIdx mem)
      · intro entries _ stands
        exact absurd noNull stands
      · rw [heaps, remains]
        exact List.mem_append_right _ List.mem_cons_self
      · intro scopes mem
        rcases List.mem_append.mp mem with running | earlier
        · rcases List.mem_map.mp running with ⟨context, among, rfl⟩
          rcases mem_eraseIdx_or here among with rfl | kept
          · exact Or.inl rfl
          · rw [heaps, contexts]
            exact Or.inr (List.mem_append_left _ (List.mem_map_of_mem kept))
        · rw [heaps, remains]
          exact Or.inr (List.mem_append_right _ (List.mem_cons_of_mem _ earlier))

/-- A step keeps what has ended reclaimed if and only if the context that ends is shallow. -/
theorem reclaims_step (valid : source.Valid) (reclaims : source.Reclaims)
    (step : VmSystemStep bytecode source event target) :
    target.Reclaims ↔ EndsShallow source event := by
  cases event with
  | start answers node =>
      rcases step with ⟨_, _, _, _, _, _, remains, _⟩
      simp only [Reclaims, remains, EndsShallow, iff_true]
      exact reclaims
  | step index event node =>
      rcases step with ⟨_, _, _, _, _, _, remains, _⟩
      simp only [Reclaims, remains, EndsShallow, iff_true]
      exact reclaims
  | finish index =>
      rcases step with ⟨before, after, here, _, finishes, _, remains, _⟩
      rcases valid.encloses before (List.mem_of_getElem? here) with ⟨chain, encloses⟩
      rcases encloses.finish_eq_ok with ⟨left, finishes', gone⟩
      rcases Except.ok.inj (finishes.symm.trans finishes') with rfl
      have condition : EndsShallow source (.finish index) ↔ chain.drop 2 = [] := by
        rw [← encloses.shallow_iff]
        constructor
        · intro shallow
          exact shallow before here
        · intro shallow context there
          rcases Option.some.inj (here.symm.trans there) with rfl
          exact shallow
      rw [condition]
      constructor
      · intro all
        apply List.eq_nil_iff_forall_not_mem.mpr
        intro address
        apply (gone address).mp
        apply all
        rw [remains]
        exact List.mem_cons_self
      · intro none scopes mem address
        rw [remains] at mem
        rcases List.mem_cons.mp mem with rfl | earlier
        · apply (gone address).mpr
          simp [none]
        · exact reclaims scopes earlier address

/-- Once all contexts have ended and nothing of them is left, the registry is empty, and so the
loop of `vm_main` ends. -/
theorem cleanUp_returns {system : VmSystem} (valid : system.Valid) (reclaims : system.Reclaims)
    (ended : system.contexts = []) :
    system.registry.head = 0 ∧
      Outcome.Returns (fun fuel => cleanUp fuel system.registry system.tables) system.tables := by
  rcases valid.registered with ⟨entries, lists, _, live⟩
  have empty : entries = [] := by
    apply List.eq_nil_iff_forall_not_mem.mpr
    intro entry mem
    rcases live entry mem with ⟨scopes, inHeaps, stands⟩
    rw [heaps, ended] at inHeaps
    exact stands (reclaims scopes (by simpa using inHeaps) entry)
  have noHead := lists.head_eq_zero_iff.mpr empty
  refine ⟨noHead, 1, ?_⟩
  intro fuel enough
  obtain ⟨fuel, rfl⟩ : ∃ rest, fuel = rest + 1 := ⟨fuel - 1, by omega⟩
  simp [cleanUp, garbageCollect, noHead]

/-- In a run of all contexts, everything is reclaimed in every state if and only if each context
that ends is shallow. Then the loop of `vm_main` finds the registry empty. -/
theorem reclaims_iff {steps : List (VmSystemEvent × VmSystem)}
    (run : IsRun (VmSystemStep bytecode) initial steps) :
    ((∀ system ∈ visited initial steps, system.Reclaims) ↔
        StepsMeet EndsShallow initial steps) ∧
      (StepsMeet EndsShallow initial steps → ∀ system ∈ visited initial steps,
        system.contexts = [] → system.registry.head = 0 ∧
          Outcome.Returns (fun fuel => cleanUp fuel system.registry system.tables)
            system.tables) := by
  have keep : ∀ source event target, (source.Valid ∧ source.Reclaims) → EndsShallow source event →
      VmSystemStep bytecode source event target → target.Valid ∧ target.Reclaims := by
    intro source event target invariant shallow step
    exact ⟨invariant.1.step step, (reclaims_step invariant.1 invariant.2 step).mpr shallow⟩
  have initially : initial.Valid ∧ initial.Reclaims := ⟨valid_initial, by simp [Reclaims, initial]⟩
  constructor
  · refine IsRun.forall_visited_iff (VmSystemStep bytecode)
      (fun system => system.Valid ∧ system.Reclaims) keep (fun system invariant => invariant.2) ?_
      initially run
    intro source event target invariant step reclaims
    exact (reclaims_step invariant.1 invariant.2 step).mp reclaims
  · intro meet system visits ended
    rcases IsRun.forall_visited (VmSystemStep bytecode) EndsShallow
      (fun system => system.Valid ∧ system.Reclaims) keep initially run meet system visits with
      ⟨valid, reclaims⟩
    exact cleanUp_returns valid reclaims ended

/-- The tables that are not gone are the open scopes. -/
theorem gone_iff {context : VmContext} {chain : List ℕ} (encloses : context.Encloses chain)
    (address : ℕ) : context.scopes.Gone address ↔ address ∉ chain := by
  constructor
  · intro gone mem
    exact encloses.counted.not_gone_of_mem mem gone
  · intro outside
    exact Scopes.gone_of_eq_none (encloses.stored address outside)

theorem chain_of_live {scopes : Scopes} {tops : Tops} {address parent references extra : ℕ}
    {chain : List ℕ} (counts : Counted scopes tops address chain extra) (nonzero : address ≠ 0)
    (live : scopes address = some ⟨parent, references⟩) :
    ∃ rest tops extra, chain = address :: rest ∧ Counted scopes tops parent rest extra := by
  rcases counts.enclosing nonzero with ⟨parent', _, rest, rfl, live', tops, extra, counted⟩
  rw [live, Option.some.injEq, Scope.mk.injEq] at live'
  exact ⟨rest, tops, extra, rfl, live'.1 ▸ counted⟩

/-- Where the current scope encloses nothing, it is the only one. -/
theorem gone_iff_outermost {context : VmContext} {chain : List ℕ} {references : ℕ}
    (encloses : context.Encloses chain) (nonzero : context.symboltable ≠ 0)
    (live : context.scopes context.symboltable = some ⟨0, references⟩) (address : ℕ) :
    context.scopes.Gone address ↔ address ∉ [context.symboltable] := by
  rcases chain_of_live encloses.counted nonzero live with ⟨rest, _, _, rfl, counted⟩
  rw [gone_iff encloses, counted.eq_nil_iff.mp rfl]

/-- Inside a call the scope of the caller is the other one. -/
theorem gone_iff_called {context : VmContext} {chain : List ℕ} {outer references outermost : ℕ}
    (encloses : context.Encloses chain) (nonzero : context.symboltable ≠ 0)
    (live : context.scopes context.symboltable = some ⟨outer, references⟩)
    (outerNonzero : outer ≠ 0)
    (outerLive : context.scopes outer = some ⟨0, outermost⟩) (address : ℕ) :
    context.scopes.Gone address ↔ address ∉ [context.symboltable, outer] := by
  rcases chain_of_live encloses.counted nonzero live with ⟨rest, _, _, rfl, counted⟩
  rcases chain_of_live counted outerNonzero outerLive with ⟨beyond, _, _, rfl, nothing⟩
  rw [gone_iff encloses, nothing.eq_nil_iff.mp rfl]

/-- A program that calls a function, which returns, and then one that is an `END`. -/
def callsBytecode : Bytes := [2, 18, 0, 0, 0, 0, 0, 0, 0, 2, 19, 0, 0, 0, 0, 0, 0, 0, 4, 0]

def callsStart : VmContext :=
  ((VmContext.init 0 0).enter (Call.sampleAnswers 100)).toOption.getD (.init 0 0)

def callsInside : VmContext :=
  (callsStart.advance 0 callsBytecode (Call.sampleAnswers 200) .CALL).toOption.getD (.init 0 0)

def callsBack : VmContext :=
  (callsInside.advance 9 callsBytecode (Call.sampleAnswers 0) .RETURN).toOption.getD (.init 0 0)

def callsLast : VmContext :=
  (callsBack.advance 0 callsBytecode (Call.sampleAnswers 300) .CALL).toOption.getD (.init 0 0)

def callsLeft : Scopes := callsLast.finish.toOption.getD fun _ => none

/-- The registry with the table of the main context. -/
def callsRegistry : Registry := Registry.empty.insert 1 100

def registryBack : Registry :=
  ⟨1, Function.update (callsRegistry.insert 2 200).nodes 2 none⟩

def registryLeft : Registry :=
  ⟨0, Function.update (Function.update (registryBack.insert 3 300).nodes 3 none) 1 none⟩

/-- The function is called and returns, and the context ends inside the other one. -/
def callsSteps : List (VmSystemEvent × VmSystem) :=
  [(.start (Call.sampleAnswers 100) 1, ⟨[callsStart], [], callsRegistry⟩),
    (.step 0 (.instruction (Call.sampleAnswers 200)) 2,
      ⟨[callsInside], [], callsRegistry.insert 2 200⟩),
    (.step 0 (.instruction (Call.sampleAnswers 0)) 0, ⟨[callsBack], [], registryBack⟩),
    (.step 0 (.instruction (Call.sampleAnswers 300)) 3,
      ⟨[callsLast], [], registryBack.insert 3 300⟩),
    (.finish 0, ⟨[], [callsLeft], registryLeft⟩)]

/-- Each step returns. -/
theorem calls_return :
    ((VmContext.init 0 0).enter (Call.sampleAnswers 100)).toOption.isSome ∧
      (callsStart.advance 0 callsBytecode (Call.sampleAnswers 200) .CALL).toOption.isSome ∧
      (callsInside.advance 9 callsBytecode (Call.sampleAnswers 0) .RETURN).toOption.isSome ∧
      (callsBack.advance 0 callsBytecode (Call.sampleAnswers 300) .CALL).toOption.isSome ∧
      callsLast.finish.toOption.isSome := by
  decide +kernel

/-- The instruction that comes next, and the tables. -/
theorem calls_scopes :
    (callsStart.fetch callsBytecode = some .CALL ∧ callsStart.symboltable = 100 ∧
      callsStart.scopes 100 = some ⟨0, 1⟩ ∧ callsStart.scopes 200 = none) ∧
    (callsInside.fetch callsBytecode = some .RETURN ∧ callsInside.symboltable = 200 ∧
      callsInside.scopes 200 = some ⟨100, 1⟩ ∧ callsInside.scopes 100 = some ⟨0, 3⟩) ∧
    (callsBack.fetch callsBytecode = some .CALL ∧ callsBack.symboltable = 100 ∧
      callsBack.scopes 100 = some ⟨0, 1⟩ ∧ callsBack.scopes 300 = none) ∧
    callsLast.fetch callsBytecode = some .END ∧ callsLast.symboltable = 300 ∧
      callsLast.scopes 300 = some ⟨100, 1⟩ ∧ callsLast.scopes 100 = some ⟨0, 3⟩ := by
  decide +kernel

theorem calls_entered : (VmContext.init 0 0).enter (Call.sampleAnswers 100) = .ok callsStart :=
  Outcome.eq_ok_getD _ calls_return.1

theorem calls_inside : VmStep callsBytecode callsStart (.instruction (Call.sampleAnswers 200))
    callsInside := by
  rcases calls_scopes with ⟨⟨fetched, _, _, unused⟩, _⟩
  exact ⟨fun _ => unused, .CALL, 0, fetched, by decide, Outcome.eq_ok_getD _ calls_return.2.1⟩

theorem calls_back : VmStep callsBytecode callsInside (.instruction (Call.sampleAnswers 0))
    callsBack := by
  rcases calls_scopes with ⟨_, ⟨fetched, _⟩, _⟩
  exact ⟨fun nonzero => absurd rfl nonzero, .RETURN, 9, fetched, by decide,
    Outcome.eq_ok_getD _ calls_return.2.2.1⟩

theorem calls_last : VmStep callsBytecode callsBack (.instruction (Call.sampleAnswers 300))
    callsLast := by
  rcases calls_scopes with ⟨_, _, ⟨fetched, _, _, unused⟩, _⟩
  exact ⟨fun _ => unused, .CALL, 0, fetched, by decide, Outcome.eq_ok_getD _ calls_return.2.2.2.1⟩

theorem calls_finish : callsLast.finish = .ok callsLeft :=
  Outcome.eq_ok_getD _ calls_return.2.2.2.2

theorem callsStart_encloses : ∃ chain, callsStart.Encloses chain :=
  VmContext.encloses_of_starts ⟨_, _, _, calls_entered⟩

theorem callsInside_encloses : ∃ chain, callsInside.Encloses chain := by
  rcases callsStart_encloses with ⟨chain, encloses⟩
  exact encloses.step calls_inside

theorem callsBack_encloses : ∃ chain, callsBack.Encloses chain := by
  rcases callsInside_encloses with ⟨chain, encloses⟩
  exact encloses.step calls_back

theorem callsLast_encloses : ∃ chain, callsLast.Encloses chain := by
  rcases callsBack_encloses with ⟨chain, encloses⟩
  exact encloses.step calls_last

theorem callsStart_gone (address : ℕ) : callsStart.scopes.Gone address ↔ address ∉ [100] := by
  rcases callsStart_encloses with ⟨chain, encloses⟩
  rcases calls_scopes with ⟨⟨_, current, live, _⟩, _⟩
  rw [← current] at live
  have gone := gone_iff_outermost encloses (by rw [current]; decide) live address
  rwa [current] at gone

theorem callsInside_gone
    (address : ℕ) : callsInside.scopes.Gone address ↔ address ∉ [200, 100] := by
  rcases callsInside_encloses with ⟨chain, encloses⟩
  rcases calls_scopes with ⟨_, ⟨_, current, live, outer⟩, _⟩
  rw [← current] at live
  have gone := gone_iff_called encloses (by rw [current]; decide) live (by decide) outer address
  rwa [current] at gone

theorem callsBack_gone (address : ℕ) : callsBack.scopes.Gone address ↔ address ∉ [100] := by
  rcases callsBack_encloses with ⟨chain, encloses⟩
  rcases calls_scopes with ⟨_, _, ⟨_, current, live, _⟩, _⟩
  rw [← current] at live
  have gone := gone_iff_outermost encloses (by rw [current]; decide) live address
  rwa [current] at gone

theorem callsLast_gone (address : ℕ) : callsLast.scopes.Gone address ↔ address ∉ [300, 100] := by
  rcases callsLast_encloses with ⟨chain, encloses⟩
  rcases calls_scopes with ⟨_, _, _, _, current, live, outer⟩
  rw [← current] at live
  have gone := gone_iff_called encloses (by rw [current]; decide) live (by decide) outer address
  rwa [current] at gone

theorem callsLast_shallow : callsLast.Shallow := by
  rcases calls_scopes with ⟨_, _, _, _, current, live, outer⟩
  simp [VmContext.Shallow, VmContext.parent, current, live, outer]

theorem callsLeft_gone (address : ℕ) : callsLeft.Gone address := by
  rcases callsLast_encloses with ⟨chain, encloses⟩
  rcases encloses.finish_eq_ok with ⟨left, finishes, gone⟩
  rcases Except.ok.inj (calls_finish.symm.trans finishes) with rfl
  apply (gone address).mpr
  rw [encloses.shallow_iff.mp callsLast_shallow]
  exact List.not_mem_nil

theorem callsSteps_isRun : IsRun (VmSystemStep callsBytecode) initial callsSteps := by
  refine ⟨⟨callsStart, 0, 0, calls_entered, by simp [Unused, heaps, initial], rfl, rfl,
      callsRegistry, [], Or.inr ⟨?_, by decide, rfl, rfl⟩, ?_, 0, fun _ _ => rfl⟩,
    ⟨callsStart, callsInside, rfl, calls_inside, ?_, rfl, rfl,
      callsRegistry.insert 2 200, [], Or.inr ⟨?_, by decide, rfl, rfl⟩, ?_, 0, fun _ _ => rfl⟩,
    ⟨callsInside, callsBack, rfl, calls_back, fun nonzero => absurd rfl nonzero, rfl, rfl,
      callsRegistry.insert 2 200, [200], Or.inl rfl, ?_, 0, fun _ _ => rfl⟩,
    ⟨callsBack, callsLast, rfl, calls_last, ?_, rfl, rfl,
      registryBack.insert 3 300, [], Or.inr ⟨?_, by decide, rfl, rfl⟩, ?_, 0, fun _ _ => rfl⟩,
    ⟨callsLast, callsLeft, rfl, Or.inr calls_scopes.2.2.2.1, calls_finish, rfl, rfl,
      registryBack.insert 3 300, [300, 100], Or.inl rfl, ?_, 0, fun _ _ => rfl⟩, trivial⟩
  · exact fun gone => (callsStart_gone 100).mp gone List.mem_cons_self
  · intro address
    simp [Scopes.gone_of_eq_none]
  · intro _ scopes mem
    simp only [heaps, List.map_cons, List.map_nil, List.append_nil, List.mem_singleton] at mem
    rw [mem]
    exact calls_scopes.1.2.2.2
  · exact fun gone => (callsInside_gone 200).mp gone List.mem_cons_self
  · intro address
    simp only [callsStart_gone, callsInside_gone, List.mem_cons, List.not_mem_nil, or_false, false_iff]
    omega
  · intro address
    simp only [callsInside_gone, callsBack_gone, List.mem_cons, List.not_mem_nil, or_false]
    omega
  · intro _ scopes mem
    simp only [heaps, List.map_cons, List.map_nil, List.append_nil, List.mem_singleton] at mem
    rw [mem]
    exact calls_scopes.2.2.1.2.2.2
  · exact fun gone => (callsLast_gone 300).mp gone List.mem_cons_self
  · intro address
    simp only [callsBack_gone, callsLast_gone, List.mem_cons, List.not_mem_nil, or_false, false_iff]
    omega
  · intro address
    simp only [callsLast_gone, callsLeft_gone, not_not, and_true]

theorem reclaims_iff_sample :
    IsRun (VmSystemStep callsBytecode) initial callsSteps ∧
      ∀ system ∈ visited initial callsSteps, system.Reclaims := by
  refine ⟨callsSteps_isRun, ?_⟩
  apply (reclaims_iff callsSteps_isRun).1.mpr
  refine ⟨trivial, trivial, trivial, trivial, ?_, trivial⟩
  intro context here
  rcases Option.some.inj here with rfl
  exact callsLast_shallow

/-- While the first table of the registry is referenced, the loop of `vm_main` goes on. -/
theorem cleanUp_stuck {registry : Registry} {scopes : Scopes} {reg : RegistryNode} {table : Scope}
    (nonzero : registry.head ≠ 0) (node : registry.nodes.read registry.head = .ok reg)
    (live : scopes.read reg.entry = .ok table) (referenced : 0 < table.references) (fuel : ℕ) :
    cleanUp fuel registry scopes = .error .outOfFuel := by
  induction fuel with
  | zero => rfl
  | succ fuel ih => simp [cleanUp, garbageCollect, nonzero, node, live, referenced, ih]

/-- A program whose entry point calls a function that calls another one, which is an `END`. -/
def nestedBytecode : Bytes := [0, 2, 10, 0, 0, 0, 0, 0, 0, 0, 2, 19, 0, 0, 0, 0, 0, 0, 0, 0]

def nestedStart : VmContext :=
  ((VmContext.init 1 0).enter (Call.sampleAnswers 100)).toOption.getD (.init 0 0)

def nestedInner : VmContext :=
  (nestedStart.advance 0 nestedBytecode (Call.sampleAnswers 200) .CALL).toOption.getD (.init 0 0)

def nestedInnermost : VmContext :=
  (nestedInner.advance 0 nestedBytecode (Call.sampleAnswers 300) .CALL).toOption.getD (.init 0 0)

def nestedLeft : Scopes := nestedInnermost.finish.toOption.getD fun _ => none

theorem nested_returns :
    ((VmContext.init 1 0).enter (Call.sampleAnswers 100)).toOption.isSome ∧
      (nestedStart.advance 0 nestedBytecode (Call.sampleAnswers 200) .CALL).toOption.isSome ∧
      (nestedInner.advance 0 nestedBytecode (Call.sampleAnswers 300) .CALL).toOption.isSome ∧
      nestedInnermost.finish.toOption.isSome := by
  decide +kernel

theorem nested_scopes :
    (nestedStart.fetch nestedBytecode = some .CALL ∧ nestedStart.scopes 200 = none) ∧
    (nestedInner.fetch nestedBytecode = some .CALL ∧ nestedInner.scopes 300 = none) ∧
    nestedInnermost.fetch nestedBytecode = some .END ∧ nestedLeft 100 = some ⟨0, 1⟩ := by
  decide +kernel

/-- The outermost scope is left, and its table is never collected. -/
theorem not_reclaims_nested :
    Reachable nestedBytecode nestedInnermost ∧ nestedInnermost.Ends nestedBytecode ∧
      nestedInnermost.finish = .ok nestedLeft ∧ ¬ nestedLeft.Gone 100 ∧
      ∀ fuel, cleanUp fuel (Registry.empty.insert 1 100) nestedLeft = .error .outOfFuel := by
  rcases nested_returns with ⟨enters, calls, callsAgain, finishes⟩
  rcases nested_scopes with ⟨⟨first, unused⟩, ⟨second, unusedInner⟩, last, live⟩
  refine ⟨⟨nestedStart, [(.instruction (Call.sampleAnswers 200), nestedInner),
    (.instruction (Call.sampleAnswers 300), nestedInnermost)], ?_, ?_, ?_⟩, ?_, ?_, ?_, ?_⟩
  · exact ⟨Call.sampleAnswers 100, 1, 0, Outcome.eq_ok_getD _ enters⟩
  · refine ⟨⟨fun _ => unused, .CALL, 0, first, by decide, ?_⟩,
      ⟨fun _ => unusedInner, .CALL, 0, second, by decide, ?_⟩, trivial⟩
    · exact Outcome.eq_ok_getD _ calls
    · exact Outcome.eq_ok_getD _ callsAgain
  · simp [visited]
  · exact Or.inr last
  · exact Outcome.eq_ok_getD _ finishes
  · intro gone
    have none := gone _ live
    contradiction
  · intro fuel
    have node : (Registry.empty.insert 1 100).nodes.read 1 = .ok ⟨100, 0⟩ := rfl
    have table : nestedLeft.read 100 = .ok ⟨0, 1⟩ := by simp [Scopes.read, live]
    exact cleanUp_stuck (by decide) node table Nat.one_pos fuel

end VmSystem

end Dang
