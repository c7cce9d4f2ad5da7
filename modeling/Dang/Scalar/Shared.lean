import Dang.Pool.FreeList
import Dang.SymbolTable.Basic

/-!
# Shared scalars

Scalars that `SYMDEF` creates with `SYMBOL_FLAG_SHARED`, and what `SRLOCK` and
`SRUNLOCK` do to them in several contexts. A mutex is recursive and excludes other
contexts while one holds it. Whether a scalar has one is decided by flags that pass
from `SYMDEF` through `symbol_define` and `scalar_allocate` to `POOL_ALLOCATE`.

No flag gets there, so a program keeps its contexts apart only if it never lets two of
them come to `SRLOCK` on the same scalar.
-/

namespace Dang

/-- `SYMBOL_FLAG_SHARED` -/
def symbolFlagShared : Flags32 := 0x80000000

/-- `POOL_HEADER_CONTENTS(scalar_t, scalar_handle_t, PTHREAD_MUTEX_RECURSIVE, ...)` -/
def scalarType : PoolType Scalar where
  initialSize := 1024
  objectSize := 16
  mutexKind := .recursive
  zero := .undefined
  init := fun _ => .undefined
  destroy := fun _ => .undefined

/-- `scalar_allocate`, whose flags become the `flags8_t` of `POOL_ALLOCATE`. -/
def scalarAllocate (memory : Memory) (flags : Flags32) (pool : Pool Scalar) :
    Outcome (ℕ × Pool Scalar) :=
  pool.allocate scalarType memory (flags.setWidth 8)

/-- The flags that `inst_SYMDEF` passes to `symbol_define`, for a value that is defined or not. -/
def symdefFlags (defined : Bool) (flags : Flags32) : Flags32 :=
  if defined then (flags &&& ~~~symbolTypeMask) ||| symbolScalar else flags

/-- What `symbol_define` passes on to `scalar_allocate`. -/
def scalarFlags (flags : Flags32) : Flags32 := flags &&& ~~~symbolTypeMask

/-- The scalars, and what contexts do with their locks. -/
structure SharedScalars where
  pool : Pool Scalar
  /-- The context that holds the mutex of a scalar. -/
  owner : ℕ → Option ℕ
  /-- How often a context has executed `SRLOCK` on a scalar without the matching `SRUNLOCK`. -/
  inside : ℕ → ℕ → ℕ

/-- What a context does. -/
inductive SharedEvent
  /-- `SYMDEF` of a scalar that is set up for it. -/
  | symdef (context : ℕ) (defined : Bool) (flags : Flags32) (handle : ℕ)
  /-- A reference is copied, as for a parameter of `CORO` or into a channel. -/
  | reference (context handle : ℕ)
  | release (context handle : ℕ)
  /-- `SRLOCK` -/
  | lock (context handle : ℕ)
  /-- `SRUNLOCK` -/
  | unlock (context handle : ℕ)

namespace SharedScalars

/-- Another context holds the mutex of a scalar. -/
def Waits (state : SharedScalars) (context handle : ℕ) : Prop :=
  ∃ mutex ∈ (state.pool.items handle).mutex, mutex.depth ≠ 0 ∧ state.owner handle ≠ some context

/-- The count of a context and a scalar changed. -/
def setInside (state : SharedScalars) (context handle count : ℕ) : ℕ → ℕ → ℕ :=
  fun other scalar =>
    if other = context ∧ scalar = handle then count else state.inside other scalar

/-- A step of one context. It waits while another one holds the mutex that it locks. -/
def Step (source : SharedScalars) (event : SharedEvent) (target : SharedScalars) : Prop :=
  match event with
  | .symdef _ defined flags handle => ∃ memory,
      scalarAllocate memory (scalarFlags (symdefFlags defined flags)) source.pool =
        .ok (handle, target.pool) ∧
      target.owner = Function.update source.owner handle none ∧
      target.inside =
        fun context scalar => if scalar = handle then 0 else source.inside context scalar
  | .reference context handle => ¬ source.Waits context handle ∧ ∃ result,
      source.pool.reference handle = .ok (result, target.pool) ∧
      target.owner = source.owner ∧ target.inside = source.inside
  | .release context handle => ¬ source.Waits context handle ∧ ∃ status,
      source.pool.release scalarType handle = .ok (status, target.pool) ∧
      target.owner = source.owner ∧ target.inside = source.inside
  | .lock context handle => ¬ source.Waits context handle ∧
      source.pool.lock handle = .ok (0, target.pool) ∧
      target.owner = (if (source.pool.items handle).mutex.isSome then
        Function.update source.owner handle (some context) else source.owner) ∧
      target.inside = source.setInside context handle (source.inside context handle + 1)
  | .unlock context handle =>
      source.pool.unlock handle = .ok target.pool ∧
      target.owner = (if ((target.pool.items handle).mutex.map Mutex.depth).getD 0 = 0 then
        Function.update source.owner handle none else source.owner) ∧
      target.inside = source.setInside context handle (source.inside context handle - 1)

/-- After `scalar_pool_init`. -/
def Initial (state : SharedScalars) : Prop :=
  (∃ memory, Pool.init scalarType memory = .ok (0, state.pool)) ∧
    state.owner = (fun _ => none) ∧ state.inside = fun _ _ => 0

/-- At most one context is between `SRLOCK` and `SRUNLOCK` on a scalar. -/
def Excludes (state : SharedScalars) : Prop :=
  ∀ handle context other, state.inside context handle ≠ 0 → state.inside other handle ≠ 0 →
    context = other

end SharedScalars

/-- What a program does to the lock of a scalar. -/
inductive LockCall
  /-- `SRLOCK` -/
  | lock (handle : ℕ)
  /-- `SRUNLOCK` -/
  | unlock (handle : ℕ)
  deriving DecidableEq

/-- The scalar that is locked or unlocked. -/
def LockCall.handle : LockCall → ℕ
  | .lock handle => handle
  | .unlock handle => handle

/-- The step in which a context makes the call. -/
def LockCall.event (context : ℕ) : LockCall → SharedEvent
  | .lock handle => .lock context handle
  | .unlock handle => .unlock context handle

/-- The call that a context makes in a step. -/
def SharedEvent.callOf (context : ℕ) : SharedEvent → Option LockCall
  | .lock other handle => if other = context then some (.lock handle) else none
  | .unlock other handle => if other = context then some (.unlock handle) else none
  | _ => none

/-- A program, by the sequences of calls that each of its contexts may have made at some time. -/
structure LockProgram where
  paths : ℕ → Set (List LockCall)
  empty : ∀ context, [] ∈ paths context
  before : ∀ {context front back}, front ++ back ∈ paths context → front ∈ paths context

namespace LockProgram

/-- The calls that a context makes in a run. -/
def callsOf (context : ℕ) (steps : List (SharedEvent × SharedScalars)) : List LockCall :=
  steps.filterMap fun step => step.1.callOf context

/-- In the run every context calls what the program has it call. The order of their steps is any,
and so is what else they do. -/
def Runs (program : LockProgram) (steps : List (SharedEvent × SharedScalars)) : Prop :=
  ∀ context, callsOf context steps ∈ program.paths context

/-- A context is past `SRLOCK` on a scalar, or may come to one. -/
def Reaches (program : LockProgram) (state : SharedScalars) (context handle : ℕ) : Prop :=
  state.inside context handle ≠ 0 ∨ ∃ path ∈ program.paths context, .lock handle ∈ path

/-- No two contexts come to `SRLOCK` on the same scalar. -/
def KeepsApart (program : LockProgram) (state : SharedScalars) : Prop :=
  ∀ handle context other, program.Reaches state context handle →
    program.Reaches state other handle → context = other

/-- The scalars that the program locks are in use. -/
def Uses (program : LockProgram) (pool : Pool Scalar) : Prop :=
  ∀ context, ∀ path ∈ program.paths context, ∀ call ∈ path,
    pool.HandleValid call.handle ∧ pool.HandleInUse call.handle

end LockProgram

/-- No bit of the flags of `SYMDEF` is `POOL_OBJECT_FLAG_SHARED` when it gets to the pool. -/
theorem setWidth_scalarFlags (flags : Flags32) :
    (scalarFlags flags).setWidth 8 &&& flagShared = 0 := by
  apply BitVec.eq_of_getLsbD_eq
  intro i below
  cases i with
  | zero => simp [scalarFlags, symbolTypeMask, flagShared]
  | succ i => simp [flagShared]

/-- No object has a mutex. -/
def Pool.NoMutex {α : Type} (pool : Pool α) : Prop :=
  0 < pool.allocatedCount ∧ ∀ handle, (pool.items handle).mutex = none

namespace Pool.NoMutex

variable {α : Type} {type : PoolType α} {pool after : Pool α} {handle : ℕ}

theorem of_init {memory : Memory} (success : Pool.init type memory = .ok (0, pool)) :
    pool.NoMutex := by
  rcases Pool.init_eq_ok success with ⟨positive, _, size, _, _, _, items⟩
  refine ⟨by omega, ?_⟩
  intro handle
  rw [items handle]
  rfl

/-- A change of one item that leaves it without a mutex. -/
theorem update (none : pool.NoMutex) (handle : ℕ) (change : Wrapper α → Wrapper α)
    (keeps : ∀ wrapper : Wrapper α, wrapper.mutex = .none → (change wrapper).mutex = .none) :
    (pool.update handle change).NoMutex := by
  refine ⟨none.1, ?_⟩
  intro other
  rw [Pool.items_update]
  split
  case isTrue => exact keeps _ (none.2 handle)
  case isFalse => exact none.2 other

theorem initialise (pool : Pool α) {memory : Memory} {flags : Flags8} {result : ℕ}
    (none : pool.NoMutex) (unshared : flags &&& flagShared = 0)
    (success : pool.initialise type memory flags handle = .ok (result, after)) :
    after.NoMutex := by
  simp only [Pool.initialise, unshared, ne_eq, not_true_eq_false, if_false, Outcome.bind_eq_ok,
    wrapper_eq_ok, setNextFree, modify_eq_ok, Outcome.assertThat_eq_ok, Except.ok.injEq,
    Prod.mk.injEq] at success
  rcases success with ⟨wrapper, _, _, _, filled, ⟨_, rfl⟩, linked, ⟨_, rfl⟩, _, rfl⟩
  have first := none.update handle (fun wrapper =>
    { wrapper with references := 1, object := type.init wrapper.object }) fun _ same => same
  exact first.update handle (fun wrapper => { wrapper with nextFree := stateInUse }) fun _ same => same

theorem grow {result : ℕ} (none : pool.NoMutex) (success : pool.grow type = .ok (result, after)) :
    after.NoMutex := by
  rcases grow_eq_ok none.1 success with ⟨_, size, _, _, _, items⟩
  have positive := none.1
  refine ⟨by omega, ?_⟩
  intro handle
  rw [items handle]
  split
  case isTrue => exact none.2 handle
  case isFalse => rfl

/-- `POOL_ALLOCATE` sets up a mutex for no object but a shared one. -/
theorem allocate {memory : Memory} {flags : Flags8} {result : ℕ} (none : pool.NoMutex)
    (unshared : flags &&& flagShared = 0)
    (success : pool.allocate type memory flags = .ok (result, after)) : after.NoMutex := by
  simp only [Pool.allocate] at success
  split at success
  case isTrue =>
      simp only [Outcome.bind_eq_ok] at success
      rcases success with ⟨⟨handle, ready⟩, taken, rest⟩
      rcases takeFirst_eq_ok taken with ⟨_, _, rfl⟩
      refine initialise { pool with
        freeListHead := pool.nextFree pool.freeListHead, freeCount := pool.freeCount - 1 } ?_
        unshared rest
      exact ⟨none.1, none.2⟩
  case isFalse =>
      split at success
      case isTrue =>
          simp only [Outcome.bind_eq_ok] at success
          rcases success with ⟨⟨handle, ready⟩, grown, rest⟩
          exact initialise ready (none.grow grown) unshared rest
      case isFalse =>
          simp only [Except.ok.injEq, Prod.mk.injEq] at success
          exact success.2 ▸ none

theorem reference {result : ℕ} (none : pool.NoMutex)
    (success : pool.reference handle = .ok (result, after)) : after.NoMutex := by
  rcases (reference_eq_ok success).2.2 with ⟨_, rfl⟩ | ⟨_, rfl⟩
  · exact none
  · exact none.update _ _ fun _ same => same

theorem release {status : ℤ} (none : pool.NoMutex)
    (success : pool.release type handle = .ok (status, after)) : after.NoMutex := by
  rcases (release_eq_ok success).2.2 with ⟨_, rfl, _⟩ | ⟨_, _, rfl⟩ | ⟨_, _, rfl⟩
  · exact none
  · exact none.update _ _ fun _ same => same
  · exact none.update _ (fun wrapper =>
      { object := type.destroy wrapper.object, references := 0, mutex := .none,
        nextFree := handle }) fun _ _ => rfl

theorem lock {status : ℤ} (none : pool.NoMutex) (success : pool.lock handle = .ok (status, after)) :
    after.NoMutex := by
  rcases lock_eq_ok success with ⟨_, _, rfl, _⟩
  apply none.update _ lockItem
  intro wrapper same
  simp [lockItem, same]

theorem unlock (none : pool.NoMutex) (success : pool.unlock handle = .ok after) :
    after.NoMutex := by
  simp only [Pool.unlock, Outcome.bind_eq_ok, Outcome.assertThat_eq_ok, Except.ok.injEq] at success
  rcases success with ⟨_, _, _, _, rfl⟩
  apply none.update
  intro wrapper same
  simp [same]

/-- `POOL_LOCK` of an object in use then always succeeds, and changes nothing. -/
theorem lock_returns (none : pool.NoMutex) (valid : pool.HandleValid handle)
    (used : pool.HandleInUse handle) : pool.lock handle = .ok (0, pool) := by
  simp only [Pool.lock, Outcome.assertThat_of valid, Outcome.assertThat_of used, Outcome.ok_bind,
    none.2 handle]

theorem unlock_returns (none : pool.NoMutex) (valid : pool.HandleValid handle)
    (used : pool.HandleInUse handle) : pool.unlock handle = .ok pool := by
  simp only [Pool.unlock, Outcome.assertThat_of valid, Outcome.assertThat_of used, Outcome.ok_bind]
  rw [Pool.update_id]
  have bare := none.2 handle
  cases found : pool.items handle with
  | mk object references mutex nextFree =>
      rw [found] at bare
      simp only at bare
      rw [bare]
      rfl

end Pool.NoMutex

namespace SharedScalars

variable {source target : SharedScalars} {event : SharedEvent}

theorem noMutex_of_initial (initial : source.Initial) : source.pool.NoMutex :=
  initial.1.elim fun _ success => Pool.NoMutex.of_init success

/-- No step gives a scalar a mutex. -/
theorem noMutex_step (none : source.pool.NoMutex) (step : source.Step event target) :
    target.pool.NoMutex := by
  cases event with
  | symdef context defined flags handle =>
      rcases step with ⟨memory, success, _⟩
      exact none.allocate (setWidth_scalarFlags _) success
  | reference context handle =>
      rcases step with ⟨_, result, success, _⟩
      exact none.reference success
  | release context handle =>
      rcases step with ⟨_, status, success, _⟩
      exact none.release success
  | lock context handle => exact none.lock step.2.1
  | unlock context handle => exact none.unlock step.1

/-- Nobody ever waits for a mutex. -/
theorem not_waits (none : source.pool.NoMutex) (context handle : ℕ) :
    ¬ source.Waits context handle := by
  rintro ⟨mutex, owned, _⟩
  rw [none.2 handle] at owned
  cases owned

theorem setInside_ne {context handle count other scalar : ℕ}
    (apart : ¬(other = context ∧ scalar = handle)) :
    source.setInside context handle count other scalar = source.inside other scalar :=
  if_neg apart

theorem setInside_same {context handle count : ℕ} :
    source.setInside context handle count context handle = count :=
  if_pos ⟨rfl, rfl⟩

/-- What a call does where no scalar has a mutex. -/
def perform (state : SharedScalars) (call : ℕ × LockCall) : SharedScalars :=
  match call with
  | (context, .lock handle) =>
      { state with
        inside := state.setInside context handle (state.inside context handle + 1) }
  | (context, .unlock handle) =>
      { state with
        owner := Function.update state.owner handle none
        inside := state.setInside context handle (state.inside context handle - 1) }

/-- The steps in which contexts make one call after the other. -/
def performs (state : SharedScalars) : List (ℕ × LockCall) → List (SharedEvent × SharedScalars)
  | [] => []
  | call :: calls => (call.2.event call.1, state.perform call) :: performs (state.perform call) calls

/-- One context makes all of the calls. -/
def performPath (state : SharedScalars) (context : ℕ) (path : List LockCall) : SharedScalars :=
  (path.map (Prod.mk context)).foldl perform state

variable {state : SharedScalars} {calls : List (ℕ × LockCall)} {path : List LockCall}
  {context other handle : ℕ} {program : LockProgram}

theorem pool_perform (call : ℕ × LockCall) : (state.perform call).pool = state.pool := by
  rcases call with ⟨context, _ | _⟩
  · rfl
  · rfl

theorem inside_perform_of_ne {call : ℕ × LockCall} (apart : context ≠ call.1) :
    (state.perform call).inside context = state.inside context := by
  funext scalar
  rcases call with ⟨_, _ | _⟩
  · exact setInside_ne fun same => apart same.1
  · exact setInside_ne fun same => apart same.1

/-- `SRLOCK` and `SRUNLOCK` on a scalar in use never make a context wait. -/
theorem step_perform (none : state.pool.NoMutex) (call : ℕ × LockCall)
    (used : state.pool.HandleValid call.2.handle ∧ state.pool.HandleInUse call.2.handle) :
    state.Step (call.2.event call.1) (state.perform call) := by
  rcases call with ⟨context, handle | handle⟩
  · refine ⟨not_waits none context handle, none.lock_returns used.1 used.2, ?_, rfl⟩
    rw [none.2 handle]
    rfl
  · refine ⟨none.unlock_returns used.1 used.2, ?_, rfl⟩
    rw [pool_perform, none.2 handle]
    rfl

theorem isRun_performs (none : state.pool.NoMutex)
    (used : ∀ call ∈ calls,
      state.pool.HandleValid call.2.handle ∧ state.pool.HandleInUse call.2.handle) :
    IsRun Step state (performs state calls) := by
  induction calls generalizing state with
  | nil => trivial
  | cons call calls ih =>
      refine ⟨step_perform none call (used call List.mem_cons_self), ?_⟩
      apply ih
      · rw [pool_perform]
        exact none
      · intro later mem
        rw [pool_perform]
        exact used later (List.mem_cons_of_mem _ mem)

theorem foldl_mem_visited (state : SharedScalars) (calls : List (ℕ × LockCall)) :
    calls.foldl perform state ∈ visited state (performs state calls) := by
  induction calls generalizing state with
  | nil => exact List.mem_cons_self
  | cons call calls ih => exact List.mem_cons_of_mem _ (ih (state.perform call))

theorem callOf_event (call : ℕ × LockCall) :
    (call.2.event call.1).callOf context = if call.1 = context then some call.2 else none := by
  rcases call with ⟨_, _ | _⟩
  · rfl
  · rfl

theorem callsOf_performs (context : ℕ) (state : SharedScalars) (calls : List (ℕ × LockCall)) :
    LockProgram.callsOf context (performs state calls) =
      calls.filterMap fun call => if call.1 = context then some call.2 else none := by
  induction calls generalizing state with
  | nil => rfl
  | cons call calls ih =>
      rw [performs, LockProgram.callsOf, List.filterMap_cons, callOf_event, List.filterMap_cons]
      have rest := ih (state.perform call)
      rw [LockProgram.callsOf] at rest
      rw [rest]

theorem inside_performPath_of_ne (apart : other ≠ context) (state : SharedScalars)
    (path : List LockCall) :
    (state.performPath context path).inside other = state.inside other := by
  induction path generalizing state with
  | nil => rfl
  | cons call path ih => exact (ih (state.perform (context, call))).trans (inside_perform_of_ne apart)

/-- After a path that ends with `SRLOCK` the context is inside. -/
theorem inside_performPath_lock (state : SharedScalars) (context handle : ℕ)
    (path : List LockCall) :
    (state.performPath context (path ++ [.lock handle])).inside context handle ≠ 0 := by
  rw [performPath, List.map_append, List.foldl_append]
  simp only [List.map_cons, List.map_nil, List.foldl_cons, List.foldl_nil, perform, setInside_same]
  exact Nat.succ_ne_zero _

/-- A context that comes to `SRLOCK` is past it after one of its paths, whatever others do. -/
theorem exists_path (reaches : program.Reaches state context handle) :
    ∃ path ∈ program.paths context, ∀ middle : SharedScalars,
      middle.inside context = state.inside context →
        (middle.performPath context path).inside context handle ≠ 0 := by
  rcases reaches with inside | ⟨path, permitted, mem⟩
  · refine ⟨[], program.empty context, ?_⟩
    intro middle same
    rw [performPath, List.map_nil, List.foldl_nil, same]
    exact inside
  · rcases List.append_of_mem mem with ⟨front, back, rfl⟩
    rw [List.append_cons] at permitted
    refine ⟨front ++ [.lock handle], program.before permitted, ?_⟩
    intro middle _
    exact inside_performPath_lock middle context handle front

/-- What a context is inside of grows only by its own `SRLOCK`. -/
theorem inside_of_step {event : SharedEvent} (step : source.Step event target)
    (inside : target.inside context handle ≠ 0) :
    source.inside context handle ≠ 0 ∨ event.callOf context = some (.lock handle) := by
  cases event with
  | symdef locker defined flags scalar =>
      rcases step with ⟨_, _, _, same⟩
      left
      rw [same] at inside
      dsimp only at inside
      split at inside
      case isTrue => exact absurd rfl inside
      case isFalse => exact inside
  | reference locker scalar =>
      rcases step with ⟨_, _, _, _, same⟩
      exact Or.inl (same ▸ inside)
  | release locker scalar =>
      rcases step with ⟨_, _, _, _, same⟩
      exact Or.inl (same ▸ inside)
  | lock locker scalar =>
      rcases step with ⟨_, _, _, same⟩
      rw [same] at inside
      by_cases own : context = locker ∧ handle = scalar
      · rcases own with ⟨rfl, rfl⟩
        exact Or.inr (if_pos rfl)
      · rw [setInside_ne own] at inside
        exact Or.inl inside
  | unlock locker scalar =>
      rcases step with ⟨_, _, same⟩
      left
      rw [same] at inside
      by_cases own : context = locker ∧ handle = scalar
      · rcases own with ⟨rfl, rfl⟩
        rw [setInside_same] at inside
        omega
      · rwa [setInside_ne own] at inside

theorem inside_of_run {rest : List (SharedEvent × SharedScalars)} {reached : SharedScalars}
    (run : IsRun Step state rest) (visits : reached ∈ visited state rest)
    (inside : reached.inside context handle ≠ 0) :
    state.inside context handle ≠ 0 ∨ .lock handle ∈ LockProgram.callsOf context rest := by
  induction rest generalizing state with
  | nil =>
      rw [visited, List.map_nil, List.mem_singleton] at visits
      exact Or.inl (visits ▸ inside)
  | cons step rest ih =>
      rcases List.mem_cons.mp visits with first | later
      · exact Or.inl (first ▸ inside)
      · rcases ih run.2 later with before | called
        · rcases inside_of_step run.1 before with already | locks
          · exact Or.inl already
          · right
            exact List.mem_filterMap.mpr ⟨step, List.mem_cons_self, locks⟩
        · right
          rcases List.mem_filterMap.mp called with ⟨made, mem, locks⟩
          exact List.mem_filterMap.mpr ⟨made, List.mem_cons_of_mem _ mem, locks⟩

/-- Two contexts that come to `SRLOCK` on a scalar are both past it in some order of their steps. -/
theorem exists_run_of_reaches (none : state.pool.NoMutex) (uses : program.Uses state.pool)
    (apart : context ≠ other) (first : program.Reaches state context handle)
    (second : program.Reaches state other handle) :
    ∃ rest, IsRun Step state rest ∧ program.Runs rest ∧ ∃ reached ∈ visited state rest,
      reached.inside context handle ≠ 0 ∧ reached.inside other handle ≠ 0 := by
  rcases exists_path first with ⟨front, frontMem, frontInside⟩
  rcases exists_path second with ⟨back, backMem, backInside⟩
  have used : ∀ call ∈ front.map (Prod.mk context) ++ back.map (Prod.mk other),
      state.pool.HandleValid call.2.handle ∧ state.pool.HandleInUse call.2.handle := by
    intro call mem
    rcases List.mem_append.mp mem with early | late
    · rcases List.mem_map.mp early with ⟨made, own, rfl⟩
      exact uses context front frontMem made own
    · rcases List.mem_map.mp late with ⟨made, own, rfl⟩
      exact uses other back backMem made own
  refine ⟨performs state (front.map (Prod.mk context) ++ back.map (Prod.mk other)),
    isRun_performs none used, ?_, _, foldl_mem_visited _ _, ?_, ?_⟩
  · intro each
    rw [callsOf_performs, List.filterMap_append, List.filterMap_map, List.filterMap_map]
    by_cases isFirst : context = each
    · subst isFirst
      simpa [Function.comp_def, Ne.symm apart] using frontMem
    · by_cases isSecond : other = each
      · subst isSecond
        simpa [Function.comp_def, isFirst] using backMem
      · simpa [Function.comp_def, isFirst, isSecond] using program.empty each
  · rw [List.foldl_append]
    have kept := inside_performPath_of_ne apart (state.performPath context front) back
    have mine := frontInside state rfl
    rw [← kept] at mine
    exact mine
  · rw [List.foldl_append]
    apply backInside
    exact inside_performPath_of_ne (Ne.symm apart) state front

/-- From every reachable state on, a program keeps its contexts apart in every order of their steps
exactly if no two of them come to `SRLOCK` on the same scalar, and `SRLOCK` itself never holds a
context back. -/
theorem excludes_iff_keepsApart {start : SharedScalars}
    {steps : List (SharedEvent × SharedScalars)} (initial : start.Initial)
    (run : IsRun Step start steps) :
    ∀ state ∈ visited start steps,
      (∀ program : LockProgram, program.Uses state.pool →
        ((∀ rest, IsRun Step state rest → program.Runs rest →
          ∀ reached ∈ visited state rest, reached.Excludes) ↔ program.KeepsApart state)) ∧
      ∀ context handle, state.pool.HandleValid handle → state.pool.HandleInUse handle →
        ∃ target, state.Step (.lock context handle) target := by
  have always := IsRun.forall_visited Step (fun _ _ => True) (fun state => state.pool.NoMutex)
    (fun source event target none _ step => noMutex_step none step) (noMutex_of_initial initial) run
    (.of_forall fun _ _ => trivial)
  intro state visits
  have none := always state visits
  constructor
  · intro program uses
    constructor
    · intro excludes handle context other first second
      by_contra apart
      rcases exists_run_of_reaches none uses apart first second with
        ⟨rest, goesOn, runs, reached, visits, firstInside, secondInside⟩
      exact apart (excludes rest goesOn runs reached visits handle context other firstInside
        secondInside)
    · intro keeps rest goesOn runs reached visits handle context other first second
      have reaches : ∀ {each}, reached.inside each handle ≠ 0 →
          program.Reaches state each handle := by
        intro each inside
        apply (inside_of_run goesOn visits inside).imp_right
        intro locks
        exact ⟨_, runs each, locks⟩
      exact keeps handle context other (reaches first) (reaches second)
  · intro context handle valid used
    exact ⟨_, step_perform none (context, .lock handle) ⟨valid, used⟩⟩

section Sample

/-- The pool of scalars after `scalar_pool_init`. -/
def freshPool : Pool Scalar where
  allocatedCount := 1024
  count := 0
  freeCount := 1024
  items := fun handle => { scalarType.zeroWrapper with
    nextFree := if 1 ≤ handle ∧ handle < 1024 then handle + 1 else 0 }
  freeListHead := 1

theorem init_freshPool : Pool.init scalarType Memory.ample = .ok (0, freshPool) := by
  have storage : Memory.ample.calloc scalarType.initialSize scalarType.wrapperSize = true := by
    decide
  have inside : 1 + (1024 - 1) ≤ 1024 + 1 := by omega
  obtain ⟨pool, success⟩ : ∃ pool, Pool.init scalarType Memory.ample = .ok (0, pool) := by
    simp only [Pool.init, storage, if_true]
    rw [Pool.linkRange_eq (by omega) inside]
    simp only [Outcome.ok_bind, Pool.setNextFree]
    rw [Pool.modify_of]
    · exact ⟨_, rfl⟩
    · exact ⟨Nat.zero_lt_succ 1023, Nat.le_refl 1024⟩
  rcases Pool.init_eq_ok success with ⟨_, _, size, count, free, head, items⟩
  have same : pool = freshPool := by
    cases pool
    simp only at size count free head items
    subst size count free head
    exact congrArg (Pool.mk 1024 0 1024 · 1) (funext items)
  rw [success, same]

/-- After `scalar_pool_init`. -/
def sampleStart : SharedScalars where
  pool := freshPool
  owner := fun _ => none
  inside := fun _ _ => 0

/-- After `SYMDEF` of a shared scalar. -/
def sampleDefined : SharedScalars where
  pool := ((scalarAllocate Memory.ample
    (scalarFlags (symdefFlags false (symbolFlagShared ||| symbolScalar)))
    sampleStart.pool).toOption.getD (0, freshPool)).2
  owner := Function.update sampleStart.owner 1 none
  inside := fun context scalar => if scalar = 1 then 0 else sampleStart.inside context scalar

/-- After a reference to it was copied for another context. -/
def sampleReferenced : SharedScalars where
  pool := ((sampleDefined.pool.reference 1).toOption.getD (0, freshPool)).2
  owner := sampleDefined.owner
  inside := sampleDefined.inside

/-- After one more context has executed `SRLOCK` on it. -/
def sampleLocked (before : SharedScalars) (context : ℕ) : SharedScalars where
  pool := ((before.pool.lock 1).toOption.getD (0, freshPool)).2
  owner := before.owner
  inside := before.setInside context 1 (before.inside context 1 + 1)

/-- `SYMDEF` of a shared scalar, and `SRLOCK` of it by two contexts. -/
def sampleSteps : List (SharedEvent × SharedScalars) :=
  [(.symdef 0 false (symbolFlagShared ||| symbolScalar) 1, sampleDefined),
    (.reference 0 1, sampleReferenced),
    (.lock 0 1, sampleLocked sampleReferenced 0),
    (.lock 1 1, sampleLocked (sampleLocked sampleReferenced 0) 1)]

theorem sampleStart_initial : sampleStart.Initial :=
  ⟨⟨Memory.ample, init_freshPool⟩, rfl, rfl⟩

theorem sampleSteps_isRun : IsRun Step sampleStart sampleSteps := by
  have none := noMutex_of_initial sampleStart_initial
  have define : sampleStart.Step (.symdef 0 false (symbolFlagShared ||| symbolScalar) 1)
      sampleDefined :=
    ⟨Memory.ample, Outcome.eq_ok_snd 1 (0, freshPool) (by decide +kernel), rfl, rfl⟩
  have defined := noMutex_step none define
  have refer : sampleDefined.Step (.reference 0 1) sampleReferenced :=
    ⟨not_waits defined 0 1, 1, Outcome.eq_ok_snd 1 (0, freshPool) (by decide +kernel), rfl, rfl⟩
  have referred := noMutex_step defined refer
  have first : sampleReferenced.Step (.lock 0 1) (sampleLocked sampleReferenced 0) :=
    ⟨not_waits referred 0 1, Outcome.eq_ok_snd 0 (0, freshPool) (by decide +kernel),
      by rw [referred.2 1]; rfl, rfl⟩
  have locked := noMutex_step referred first
  exact ⟨define, refer, first, ⟨not_waits locked 1 1,
    Outcome.eq_ok_snd 0 (0, freshPool) (by decide +kernel),
    by rw [locked.2 1]; rfl, rfl⟩, trivial⟩

/-- Some contexts lock and unlock the scalar. -/
def sampleProgram (contexts : List ℕ) : LockProgram where
  paths context := {path | path <+: if context ∈ contexts then [.lock 1, .unlock 1] else []}
  empty _ := List.nil_prefix
  before permitted := (List.prefix_append _ _).trans permitted

theorem mem_contexts_of_mem {contexts : List ℕ} {context : ℕ} {path : List LockCall}
    {call : LockCall} (permitted : path ∈ (sampleProgram contexts).paths context)
    (mem : call ∈ path) : context ∈ contexts ∧ call.handle = 1 := by
  have listed := permitted.subset mem
  split at listed
  case isTrue calls =>
    refine ⟨calls, ?_⟩
    rcases List.mem_pair.mp listed with rfl | rfl
    · rfl
    · rfl
  case isFalse => cases listed

theorem uses_sampleProgram (contexts : List ℕ) :
    (sampleProgram contexts).Uses sampleReferenced.pool := by
  intro context path permitted call mem
  rw [(mem_contexts_of_mem permitted mem).2]
  decide +kernel

/-- A single context that locks the scalar is apart from the others, and two are not. -/
theorem excludes_iff_keepsApart_sample :
    (∀ rest, IsRun Step sampleReferenced rest → (sampleProgram [0]).Runs rest →
        ∀ reached ∈ visited sampleReferenced rest, reached.Excludes) ∧
      ¬∀ rest, IsRun Step sampleReferenced rest → (sampleProgram [0, 1]).Runs rest →
        ∀ reached ∈ visited sampleReferenced rest, reached.Excludes := by
  have each := (excludes_iff_keepsApart sampleStart_initial sampleSteps_isRun sampleReferenced
    (by simp [visited, sampleSteps])).1
  constructor
  · apply (each (sampleProgram [0]) (uses_sampleProgram _)).mpr
    have alone : ∀ {context handle}, (sampleProgram [0]).Reaches sampleReferenced context handle →
        context = 0 := by
      rintro context handle (inside | ⟨path, permitted, mem⟩)
      · exact absurd (by simp [sampleReferenced, sampleDefined, sampleStart]) inside
      · exact List.mem_singleton.mp (mem_contexts_of_mem permitted mem).1
    intro handle context other first second
    rw [alone first, alone second]
  · rw [each (sampleProgram [0, 1]) (uses_sampleProgram _)]
    intro apart
    have first : (sampleProgram [0, 1]).Reaches sampleReferenced 0 1 :=
      Or.inr ⟨[.lock 1, .unlock 1], List.prefix_refl _, List.mem_cons_self⟩
    have second : (sampleProgram [0, 1]).Reaches sampleReferenced 1 1 :=
      Or.inr ⟨[.lock 1, .unlock 1], List.prefix_refl _, List.mem_cons_self⟩
    exact absurd (apart 1 0 1 first second) (by decide)

/-- Two contexts are past `SRLOCK` on a scalar that `SYMDEF` was told to share. -/
theorem not_excludes_sample :
    sampleStart.Initial ∧ IsRun Step sampleStart sampleSteps ∧
      ∃ state ∈ visited sampleStart sampleSteps, ¬ state.Excludes := by
  refine ⟨sampleStart_initial, sampleSteps_isRun,
    sampleLocked (sampleLocked sampleReferenced 0) 1, by simp [visited, sampleSteps], ?_⟩
  intro excludes
  exact absurd (excludes 1 0 1 (by decide) (by decide)) (by decide)

end Sample

end SharedScalars

end Dang
