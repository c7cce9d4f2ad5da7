import Dang.Pool.FreeList
import Dang.SymbolTable.Scoping

/-!
# Runs of scopes and symbols

Every run of `vm_start_scope`, `vm_end_scope`, `symbol_define` and `symbol_lookup` on one
context is a run of a lexical environment, with the same results. A call that finds no
storage fails and changes nothing.
-/

namespace Dang

/-- What the call does to a lexical environment, with what it returns. An ended scope takes what
it binds with it, and no other call changes a scope other than its own. -/
def ScopeCall.Means (environment : Environment ℕ ℕ (Flags32 × ℕ)) (call : ScopeCall)
    (next : Environment ℕ ℕ (Flags32 × ℕ)) : Prop :=
  match call with
  | .startScope address status =>
      if address ≠ 0 then status = 0 ∧ next = (address, fun _ => none) :: environment
      else status = -1 ∧ next = environment
  | .endScope _ => ∃ scope, environment = scope :: next
  | .define table identifier flags handle address _ symbol =>
      if address ≠ 0 ∧ environment.binding table identifier = none then
        symbol = address ∧ ∃ referent,
          (handle ≠ 0 ∨ flags &&& symbolTypeMask = symbolFunction → referent = handle) ∧
            next = environment.declare table identifier (flags &&& symbolTypeMask, referent)
      else symbol = 0 ∧ next = environment
  | .lookup table identifier found =>
      found = (environment.fromScope table).lookup identifier ∧ next = environment

namespace LexicalContext

variable {α : Type} {types : ReferenceKind → PoolType α}

/-- The symbol that the call defines has one of the six types, and there is a referent for it. -/
def Obtains (types : ReferenceKind → PoolType α) (context : LexicalContext α) (call : ScopeCall) :
    Prop :=
  match call with
  | .define _ _ flags handle address memory _ => Symbol.HasType flags ∧
      (address ≠ 0 → context.pools.Obtains types memory flags handle)
  | _ => True

/-- If the call fails to define a symbol, every table and every count of references is as before. -/
def FailsCleanly (source : LexicalContext α) (call : ScopeCall) (target : LexicalContext α) :
    Prop :=
  match call with
  | .define _ _ _ _ _ _ symbol =>
      symbol = 0 → target = { source with pools := target.pools } ∧
        source.pools.SameCounts target.pools
  | _ => True

/-- Every call on the tables of the context returns. -/
structure Serves (types : ReferenceKind → PoolType α) (context : LexicalContext α) : Prop where
  startScope : ∀ address, (address ≠ 0 → context.heap.tables address = none) →
    ∃ result, context.startScope address = .ok result
  endScope : context.symboltable ≠ 0 →
    ∃ result, Outcome.Returns (fun fuel => context.endScope fuel) result
  define : ∀ table identifier flags handle address memory,
    Encloses context.heap table context.symboltable →
    (address ≠ 0 → context.heap.symbols address = none) → Symbol.HasType flags →
    (address ≠ 0 → context.pools.Obtains types memory flags handle) →
    ∃ result, Outcome.Returns (fun fuel =>
      context.define types memory fuel address table identifier flags handle) result
  lookup : ∀ table identifier, Encloses context.heap table context.symboltable →
    ∃ result, Outcome.Returns (fun fuel => context.lookup fuel table identifier) result

/-- The tables of the context stand for the environment. -/
def StandsFor (context : LexicalContext α) (environment : Environment ℕ ℕ (Flags32 × ℕ)) : Prop :=
  ∃ levels, context.Represents levels ∧ Level.environment levels = environment

theorem represents_nil {context : LexicalContext α} (initial : context.symboltable = 0) :
    context.Represents [] where
  nests := by
    rw [initial]
    exact .nil 0
  names := List.nodup_nil
  addresses := List.nodup_nil
  refers := by simp

/-- What becomes of the pools does not matter to the tables. -/
theorem Represents.setPools {context : LexicalContext α} {levels : List Level}
    (represents : context.Represents levels) (pools : Pools α) :
    Represents { context with pools := pools } levels where
  nests := represents.nests.congr (fun _ _ => rfl) (fun _ _ => rfl) (fun _ _ => rfl)
  names := represents.names
  addresses := represents.addresses
  refers := represents.refers

/-- Without storage for it, no symbol is defined. -/
theorem define_null {memory : Memory} {context : LexicalContext α} {table : ℕ}
    (nonzero : table ≠ 0) (identifier : ℕ) (flags : Flags32) (handle : ℕ) :
    Outcome.Returns (fun fuel =>
      context.define types memory fuel 0 table identifier flags handle) (0, context) := by
  refine ⟨0, fun fuel _ => ?_⟩
  simp [LexicalContext.define, Outcome.assertThat_of nonzero]

/-- A context with a current table has an innermost scope. -/
theorem Represents.exists_cons {context : LexicalContext α} {levels : List Level}
    (represents : context.Represents levels) (nonzero : context.symboltable ≠ 0) :
    ∃ table tree outer, levels = (table, tree) :: outer := by
  cases levels with
  | nil =>
      rcases represents.nests.address_cases with ⟨zero, _⟩ | ⟨_, mem⟩
      · exact absurd zero nonzero
      · simp at mem
  | cons level outer => exact ⟨level.1, level.2, outer, rfl⟩

theorem Encloses.nonzero {heap : SymbolHeap} {table address : ℕ}
    (encloses : Encloses heap table address) : table ≠ 0 := by
  induction encloses with
  | self nonzero => exact nonzero
  | outer _ _ _ ih => exact ih

/-- Defining a symbol returns, and is what it means for the environment. -/
theorem Represents.stepDefine {context : LexicalContext α} {levels : List Level} {memory : Memory}
    {table handle address : ℕ} {flags : Flags32} (identifier : ℕ)
    (represents : context.Represents levels)
    (encloses : Encloses context.heap table context.symboltable)
    (fresh : address ≠ 0 → context.heap.symbols address = none) (known : Symbol.HasType flags)
    (obtains : address ≠ 0 → context.pools.Obtains types memory flags handle) :
    ∃ symbol after larger, Outcome.Returns (fun fuel =>
        context.define types memory fuel address table identifier flags handle) (symbol, after) ∧
      after.Represents larger ∧
      (ScopeCall.define table identifier flags handle address memory symbol).Means
        (Level.environment levels) (Level.environment larger) ∧
      FailsCleanly context (.define table identifier flags handle address memory symbol) after := by
  by_cases null : address = 0
  · subst null
    refine ⟨0, context, levels, define_null encloses.nonzero identifier flags handle, represents,
      by simp [ScopeCall.Means], fun _ => ⟨rfl, Pools.sameCounts_refl _⟩⟩
  · rcases (obtains null).describe known with ⟨referent, described, describes, given, owned⟩
    rcases owned identifier with ⟨refers, released, releases, same⟩
    rcases represents.define encloses null (fresh null) describes refers releases with
      ⟨free, after, larger, returns, represented, declared⟩ | ⟨taken, returns⟩
    · refine ⟨address, after, larger, returns, represented, ?_, fun zero => absurd zero null⟩
      simp only [ScopeCall.Means, null, ne_eq, not_false_eq_true, free, and_self, if_true, true_and]
      exact ⟨referent, given, declared⟩
    · refine ⟨0, _, levels, returns, represents.setPools released, ?_, fun _ => ⟨rfl, same⟩⟩
      simp [ScopeCall.Means, taken]

/-- Each call is what it means for the environment. -/
theorem Represents.step {source target : LexicalContext α} {levels : List Level} {call : ScopeCall}
    (represents : source.Represents levels) (obtains : source.Obtains types call)
    (step : Step types source call target) :
    (∃ next, target.Represents next ∧
      call.Means (Level.environment levels) (Level.environment next)) ∧
      FailsCleanly source call target := by
  cases call with
  | startScope address status =>
      rcases step with ⟨fresh, started⟩
      by_cases null : address = 0
      · simp only [LexicalContext.startScope, null, if_true, Except.ok.injEq, Prod.mk.injEq] at started
        rcases started with ⟨rfl, rfl⟩
        exact ⟨⟨levels, represents, by simp [ScopeCall.Means, null]⟩, trivial⟩
      · rcases represents.startScope null (fresh null) with ⟨after, starts, represented⟩
        rcases Prod.mk.inj (Except.ok.inj (starts.symm.trans started)) with ⟨rfl, rfl⟩
        exact ⟨⟨_, represented, by simp [ScopeCall.Means, null]; rfl⟩, trivial⟩
  | endScope released =>
      rcases step with ⟨ended, returns, same⟩
      have nonzero : source.symboltable ≠ 0 := by
        intro zero
        rcases returns.exists_fuel with ⟨fuel, ends⟩
        simp [LexicalContext.endScope, Outcome.assertThat, zero] at ends
      rcases represents.exists_cons nonzero with ⟨table, tree, outer, rfl⟩
      rcases represents.endScope with ⟨released', ended', returns', _, represented⟩
      rcases Prod.mk.inj (returns.unique returns') with ⟨_, rfl⟩
      rw [same]
      exact ⟨⟨outer, represented.setPools _, _, rfl⟩, trivial⟩
  | define table identifier flags handle address memory symbol =>
      rcases step with ⟨encloses, fresh, returns⟩
      rcases represents.stepDefine identifier encloses fresh obtains.1 obtains.2 with
        ⟨symbol', after, larger, returns', represented, means, clean⟩
      rcases Prod.mk.inj (returns.unique returns') with ⟨rfl, rfl⟩
      exact ⟨⟨larger, represented, means⟩, clean⟩
  | lookup table identifier found =>
      rcases step with ⟨encloses, returns, rfl⟩
      refine ⟨⟨levels, represents, ?_, rfl⟩, trivial⟩
      exact returns.unique (represents.lookup identifier encloses)

/-- The calls return. -/
theorem Represents.serves {context : LexicalContext α} {levels : List Level}
    (represents : context.Represents levels) : context.Serves types where
  startScope := by
    intro address fresh
    by_cases null : address = 0
    · exact ⟨_, if_pos null⟩
    · rcases represents.startScope null (fresh null) with ⟨after, starts, _⟩
      exact ⟨_, starts⟩
  endScope := by
    intro nonzero
    rcases represents.exists_cons nonzero with ⟨table, tree, outer, rfl⟩
    rcases represents.endScope with ⟨released, ended, returns, _⟩
    exact ⟨_, returns⟩
  define := by
    intro table identifier flags handle address memory encloses fresh known obtains
    rcases represents.stepDefine identifier encloses fresh known obtains with
      ⟨symbol, after, _, returns, _⟩
    exact ⟨_, returns⟩
  lookup := by
    intro table identifier encloses
    exact ⟨_, represents.lookup identifier encloses⟩

/-- In every run of a context whose symbols find their referents, the calls mean what they do in
a lexical environment, a symbol that is not defined leaves everything as it was, and every further
call returns. -/
theorem lexically_scoped {start : LexicalContext α} {steps : List (ScopeCall × LexicalContext α)}
    (initial : start.symboltable = 0) (run : IsRun (Step types) start steps)
    (meet : StepsMeet (Obtains types) start steps) :
    (∃ environments, IsRun (fun environment call next => ScopeCall.Means environment call next) []
        environments ∧
      List.Forall₂ (fun concrete abstract =>
        concrete.1 = abstract.1 ∧ concrete.2.StandsFor abstract.2) steps environments) ∧
    (∀ transition ∈ transitions start steps,
      FailsCleanly transition.1 transition.2.1 transition.2.2) ∧
    ∀ state ∈ visited start steps, state.Serves types := by
  have initially : ∃ levels, start.Represents levels := ⟨[], represents_nil initial⟩
  have keep : ∀ source call target, (∃ levels, source.Represents levels) →
      source.Obtains types call → Step types source call target →
        ∃ levels, target.Represents levels := by
    rintro source call target ⟨levels, represents⟩ obtains step
    rcases represents.step obtains step with ⟨⟨next, represented, _⟩, _⟩
    exact ⟨next, represented⟩
  have clean : ∀ source call target, (∃ levels, source.Represents levels) →
      source.Obtains types call → Step types source call target →
        FailsCleanly source call target := by
    rintro source call target ⟨levels, represents⟩ obtains step
    exact (represents.step obtains step).2
  refine ⟨?_, ?_, ?_⟩
  · apply IsRun.simulates (Step types) _ (Obtains types) StandsFor _
      ⟨[], represents_nil initial, rfl⟩ run meet
    rintro source call target _ ⟨levels, represents, rfl⟩ obtains step
    rcases represents.step obtains step with ⟨⟨next, represented, means⟩, _⟩
    exact ⟨_, means, next, represented, rfl⟩
  · exact IsRun.forall_transitions (Step types) (Obtains types) _ keep clean initially run meet
  · intro state visits
    rcases IsRun.forall_visited (Step types) (Obtains types) _ keep initially run meet state
      visits with ⟨levels, represents⟩
    exact represents.serves

section Sample

/-- Each kind of object has a pool of two items, the first of which is in use. -/
def samplePools : Pools Unit := fun _ => PoolState.unitAllocated.pool

/-- A context without scopes. -/
def sampleContext : LexicalContext Unit where
  heap := ⟨fun _ => none, fun _ => none⟩
  references := fun _ => 0
  symboltable := 0
  pools := samplePools

def sampleTypes : ReferenceKind → PoolType Unit := fun _ => PoolState.unitType

/-- One scope, which binds nothing. -/
def sampleScope : LexicalContext Unit :=
  ((sampleContext.startScope 1).toOption.getD (0, sampleContext)).2

/-- The scope with a symbol for the scalar in use. -/
def sampleDefined : LexicalContext Unit :=
  ((sampleScope.define sampleTypes Memory.ample 1 2 1 7 symbolScalar 1).toOption.getD
    (0, sampleScope)).2

/-- A scope within, which binds the identifier to a function. -/
def sampleInner : LexicalContext Unit :=
  ((sampleDefined.startScope 3).toOption.getD (0, sampleDefined)).2

def sampleShadowed : LexicalContext Unit :=
  ((sampleInner.define sampleTypes Memory.ample 1 4 3 7 symbolFunction 40).toOption.getD
    (0, sampleInner)).2

/-- The context after the scope within, and after both. -/
def sampleBack : LexicalContext Unit :=
  ((sampleShadowed.endScope 2).toOption.getD ([], sampleShadowed)).2

def sampleEnded : LexicalContext Unit :=
  ((sampleBack.endScope 2).toOption.getD ([], sampleBack)).2

def sampleSteps : List (ScopeCall × LexicalContext Unit) :=
  [(.startScope 1 0, sampleScope),
    (.define 1 7 symbolScalar 1 2 Memory.ample 2, sampleDefined),
    (.startScope 3 0, sampleInner),
    (.lookup 3 7 (some (symbolScalar, 1)), sampleInner),
    (.define 3 7 symbolFunction 40 4 Memory.ample 4, sampleShadowed),
    (.lookup 3 7 (some (symbolFunction, 40)), sampleShadowed),
    (.lookup 1 7 (some (symbolScalar, 1)), sampleShadowed),
    (.endScope [], sampleBack),
    (.lookup 1 7 (some (symbolScalar, 1)), sampleBack),
    (.endScope [.reference .scalar 1], sampleEnded)]

theorem sampleSteps_isRun : IsRun (Step sampleTypes) sampleContext sampleSteps := by
  refine ⟨⟨fun _ => rfl, rfl⟩, ⟨.self (by decide), fun _ => rfl, 0, fun fuel _ => rfl⟩,
    ⟨fun _ => rfl, rfl⟩, ⟨.self (by decide), ⟨4, ?_⟩, rfl⟩,
    ⟨.self (by decide), fun _ => rfl, 0, fun fuel _ => rfl⟩,
    ⟨.self (by decide), ⟨4, ?_⟩, rfl⟩,
    ⟨.outer (by decide) rfl (.self (by decide)), ⟨4, ?_⟩, rfl⟩, ⟨sampleBack, ⟨4, ?_⟩, rfl⟩,
    ⟨.self (by decide), ⟨4, ?_⟩, rfl⟩, ⟨sampleEnded, ⟨4, ?_⟩, rfl⟩, trivial⟩
  all_goals
    intro fuel enough
    rcases Nat.exists_eq_add_of_le' enough with ⟨more, rfl⟩
    rfl

theorem sampleSteps_obtain : StepsMeet (Obtains sampleTypes) sampleContext sampleSteps := by
  refine ⟨trivial, ⟨by decide, fun _ => ?_⟩, trivial, trivial, ⟨by decide, fun _ => ?_⟩, trivial,
    trivial, trivial, trivial, trivial, trivial⟩
  · have typed : Symbol.kind symbolScalar = some .scalar := by decide
    have used : (samplePools .scalar).HandleInUse 1 := rfl
    apply Pools.obtains_of_inUse typed (by decide) used (by decide)
    intro mutex owned
    contradiction
  · refine ⟨(symbolFunction, 40), _, rfl, ?_⟩
    intro kind typed
    contradiction

theorem lexically_scoped_sample :
    (∃ environments, IsRun (fun environment call next => ScopeCall.Means environment call next) []
        environments ∧
      List.Forall₂ (fun concrete abstract =>
        concrete.1 = abstract.1 ∧ concrete.2.StandsFor abstract.2) sampleSteps environments) ∧
    (∀ transition ∈ transitions sampleContext sampleSteps,
      FailsCleanly transition.1 transition.2.1 transition.2.2) ∧
    ∀ state ∈ visited sampleContext sampleSteps, state.Serves sampleTypes :=
  lexically_scoped rfl sampleSteps_isRun sampleSteps_obtain

/-- Without storage for the symbol, an identifier that is not bound is not defined either. -/
theorem not_defined_without_storage :
    Outcome.Returns (fun fuel => sampleScope.lookup fuel 1 7) none ∧
      Outcome.Returns (fun fuel =>
        sampleScope.define sampleTypes Memory.ample fuel 0 1 7 symbolScalar 1) (0, sampleScope) := by
  refine ⟨⟨2, ?_⟩, 0, fun _ _ => rfl⟩
  intro fuel enough
  rcases Nat.exists_eq_add_of_le' enough with ⟨more, rfl⟩
  rfl

end Sample

end LexicalContext

end Dang
