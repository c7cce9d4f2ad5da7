import Dang.Foundations.Run
import Dang.Registry

/-!
# Threads

The threads of a run, and the registry of contexts that `vm_main` waits for. A thread
executes a context, and each `CORO` or `FRCORO` sets up a context for another thread.
The steps of a thread are its critical sections and the operations on pools and
symbol tables in between, which are not broken down any further. `calloc` returns
storage that is not in use, and a context is in use until it is freed.
-/

namespace Dang

/-- What a thread does next. -/
inductive ThreadOp
  /-- Any instruction but `CORO` and `FRCORO`. -/
  | instruction
  /-- `vm_ds_pop` and `vm_ds_npop` in `inst_CORO` and `inst_FRCORO`. -/
  | popParams
  /-- `calloc` of the child context, and `vm_context_init`. -/
  | initContext
  /-- `vm_ds_npush` to the child, and `anon_scalar_destroy` of the parameters. -/
  | pushParams (child : ℕ)
  /-- `pthread_create` -/
  | create (child : ℕ)
  /-- `vm_end_scope` at the end of `vm_execute`. -/
  | endScope
  | destroyDataStack (context : ℕ)
  | destroyReturnStack (context : ℕ)
  | destroySymboltable (context : ℕ)
  /-- The critical section of `vm_context_destroy`. -/
  | unregister (context : ℕ)
  | free (context : ℕ)
  /-- `while (_vm_context_registry.m_nodes != NULL)` in `vm_main`. -/
  | wait
  | collect
  | destroyPools
  deriving DecidableEq, Repr

namespace ThreadOp

/-- Contexts operate on pools and symbol tables here. -/
def Touches : ThreadOp → Prop
  | .instruction | .popParams | .pushParams _ | .endScope | .destroyDataStack _
  | .destroyReturnStack _ | .destroySymboltable _ => True
  | _ => False

/-- `vm_context_destroy` -/
def contextDestroy (context : ℕ) : List ThreadOp :=
  [.destroyDataStack context, .destroyReturnStack context, .destroySymboltable context,
    .unregister context]

/-- The end of `vm_execute`. -/
def executeEnd (context : ℕ) : List ThreadOp :=
  .endScope :: contextDestroy context ++ [.free context]

/-- The end of `vm_main`, in its thread. -/
def mainEnd (main : Bool) : List ThreadOp := if main then [.wait, .collect, .destroyPools] else []

end ThreadOp

/-- A thread that executes a context. -/
structure Thread where
  /-- The context. -/
  self : ℕ
  /-- It is the thread of `vm_main`. -/
  main : Bool
  /-- It is in the loop of `vm_execute`. -/
  running : Bool
  /-- What is left of the current instruction, or of the end. -/
  pending : List ThreadOp

/-- The branches of the loop of `vm_execute`. -/
inductive ThreadChoice
  | instruction
  | coro
  | finish

/-- The loop goes on to its next branch. -/
def Thread.choose (choice : ThreadChoice) (thread : Thread) : Thread :=
  match choice with
  | .instruction => { thread with pending := [.instruction] }
  | .coro => { thread with pending := [.popParams, .initContext] }
  | .finish => { thread with
      running := false
      pending := ThreadOp.executeEnd thread.self ++ ThreadOp.mainEnd thread.main }

/-- The threads and what they share. -/
structure VmThreads where
  threads : List Thread
  /-- `_vm_context_registry` -/
  registry : Registry
  /-- The contexts in storage. -/
  allocated : List ℕ
  /-- Every context that was ever registered, and every one that was removed. -/
  initialised : List ℕ
  removed : List ℕ
  /-- `vm_main` has left its wait. -/
  leftWait : Bool

namespace VmThreads

/-- After `vm_main` has initialised the main context. -/
def initial (context node : ℕ) : VmThreads where
  threads := [⟨context, true, true, []⟩]
  registry := Registry.empty.insert node context
  allocated := [context]
  initialised := [context]
  removed := []
  leftWait := false

/-- What an operation does to what the threads share, what the thread goes on with, and the threads
it creates. -/
inductive Performs (source : VmThreads) :
    ThreadOp → VmThreads → List ThreadOp → List Thread → Prop
  | touches {op : ThreadOp} (touches : op.Touches) : Performs source op source [] []
  | initContext (address node : ℕ) (nonzero : address ≠ 0) (unused : address ∉ source.allocated)
      (nodeNonzero : node ≠ 0) (nodeUnused : source.registry.nodes node = none) :
      Performs source .initContext
        { source with
          registry := source.registry.insert node address
          allocated := address :: source.allocated
          initialised := address :: source.initialised }
        [.pushParams address, .create address] []
  | started (child : ℕ) : Performs source (.create child) source [] [⟨child, false, true, []⟩]
  | refused (child : ℕ) :
      Performs source (.create child) source (ThreadOp.contextDestroy child ++ [.free child]) []
  | unregister (context : ℕ) (registry : Registry)
      (removes : Outcome.Returns (fun fuel => source.registry.remove fuel context) registry) :
      Performs source (.unregister context)
        { source with registry := registry, removed := context :: source.removed } [] []
  | free (context : ℕ) :
      Performs source (.free context)
        { source with allocated := source.allocated.erase context } [] []
  | wait (empty : source.registry.head = 0) :
      Performs source .wait { source with leftWait := true } [] []
  | collect : Performs source .collect source [] []
  | destroyPools : Performs source .destroyPools source [] []

end VmThreads

/-- What a thread does in a step. -/
inductive ThreadEvent
  | choose (choice : ThreadChoice)
  | perform (op : ThreadOp)

/-- A step of one of the threads. -/
def VmThreadsStep (source : VmThreads) (event : ThreadEvent) (target : VmThreads) : Prop :=
  ∃ front thread back, source.threads = front ++ thread :: back ∧
    match event with
    | .choose choice => thread.running = true ∧ thread.pending = [] ∧
        target = { source with threads := front ++ thread.choose choice :: back }
    | .perform op => ∃ rest shared next created, thread.pending = op :: rest ∧
        source.Performs op shared next created ∧
        target = { shared with
          threads := front ++ { thread with pending := next ++ rest } :: back ++ created }

/-- The thread has operations on pools or symbol tables before it. -/
def Thread.MayTouch (thread : Thread) : Prop :=
  thread.running = true ∨ ∃ op ∈ thread.pending, op.Touches

/-- The registry holds a context. -/
def Registry.Holds (registry : Registry) (context : ℕ) : Prop :=
  ∃ entries, registry.Lists entries ∧ context ∈ entries

namespace VmThreads

/-- A thread that may touch a pool or a symbol table is registered, and after `vm_main` has left
its wait there is none, and every context has been removed. -/
structure Safe (system : VmThreads) : Prop where
  registered : ∀ thread ∈ system.threads, thread.MayTouch → system.registry.Holds thread.self
  alone : system.leftWait = true → ∀ thread ∈ system.threads, ¬ thread.MayTouch
  removed : system.leftWait = true → system.initialised.Perm system.removed

end VmThreads

/-- A step that removes a context takes its entry out of the registry, and no other. -/
def Unlinks (source : VmThreads) (event : ThreadEvent) (target : VmThreads) : Prop :=
  ∀ context, event = .perform (.unregister context) →
    ∃ entries, source.registry.Lists entries ∧ entries.Nodup ∧ context ∈ entries ∧
      target.registry.Lists (entries.erase context)

/-- When a pool is destroyed, no thread has an operation on it before it. -/
def TearsDownAlone (source : VmThreads) (event : ThreadEvent) : Prop :=
  event = .perform .destroyPools → ∀ thread ∈ source.threads, ¬ thread.MayTouch

namespace ThreadOp

/-- What a running thread does between two choices. -/
def routines (child : ℕ) : List (List ThreadOp) :=
  [[.instruction], [.popParams, .initContext], [.pushParams child, .create child],
    contextDestroy child ++ [.free child]]

/-- The context that the thread is still to remove, or to hand over to a new thread. -/
def holds : ThreadOp → List ℕ
  | .create child => [child]
  | .unregister context => [context]
  | _ => []

/-- The context that the thread is still to free, or to hand over. -/
def uses : ThreadOp → List ℕ
  | .create child => [child]
  | .free context => [context]
  | _ => []

theorem Touches.quiet {op : ThreadOp} (touches : op.Touches) :
    op.holds = [] ∧ op.uses = [] ∧ op ≠ .wait := by
  cases op with
  | create | unregister | free | wait => exact absurd touches id
  | _ => simp [holds, uses]

end ThreadOp

namespace Thread

/-- The contexts that the registry has for a thread. -/
def held (thread : Thread) : List ℕ :=
  (if thread.running then [thread.self] else []) ++ thread.pending.flatMap ThreadOp.holds

/-- The contexts in storage that a thread answers for. -/
def used (thread : Thread) : List ℕ :=
  (if thread.running then [thread.self] else []) ++ thread.pending.flatMap ThreadOp.uses

/-- What is pending is the rest of what the thread has chosen. -/
inductive Shaped : Thread → Prop
  | running {self : ℕ} {main : Bool} {pending ops : List ThreadOp} (child : ℕ)
      (routine : ops ∈ ThreadOp.routines child) (rest : pending <:+ ops) :
      Shaped ⟨self, main, true, pending⟩
  | finishing {self : ℕ} {main : Bool} {front : List ThreadOp}
      (rest : front <:+ ThreadOp.executeEnd self) :
      Shaped ⟨self, main, false, front ++ ThreadOp.mainEnd main⟩
  | finished {self : ℕ} {main : Bool} {pending : List ThreadOp}
      (rest : pending <:+ ThreadOp.mainEnd main) : Shaped ⟨self, main, false, pending⟩

variable {thread : Thread}

/-- The end of `vm_main` does nothing on behalf of a context. -/
theorem quiet_of_mem_mainEnd {main : Bool} {op : ThreadOp} (mem : op ∈ ThreadOp.mainEnd main) :
    op.holds = [] ∧ op.uses = [] ∧ ¬ op.Touches := by
  cases main with
  | false => simp [ThreadOp.mainEnd] at mem
  | true =>
      simp only [ThreadOp.mainEnd, if_true, List.mem_cons, List.not_mem_nil, or_false] at mem
      rcases mem with rfl | rfl | rfl
      all_goals exact ⟨rfl, rfl, id⟩

theorem flatMap_holds_mainEnd {main : Bool} {pending : List ThreadOp}
    (rest : pending <:+ ThreadOp.mainEnd main) : pending.flatMap ThreadOp.holds = [] := by
  apply List.flatMap_eq_nil_iff.mpr
  intro op mem
  exact (quiet_of_mem_mainEnd (rest.mem mem)).1

theorem flatMap_uses_mainEnd (main : Bool) :
    (ThreadOp.mainEnd main).flatMap ThreadOp.uses = [] := by
  apply List.flatMap_eq_nil_iff.mpr
  intro op mem
  exact (quiet_of_mem_mainEnd mem).2.1

/-- What a thread holds is in use. -/
theorem Shaped.held_sublist_used (shaped : thread.Shaped) : thread.held.Sublist thread.used := by
  cases shaped with
  | running child routine rest =>
      simp only [ThreadOp.routines, ThreadOp.contextDestroy, List.cons_append, List.nil_append,
        List.mem_cons, List.not_mem_nil, or_false] at routine
      rcases routine with rfl | rfl | rfl | rfl
      all_goals
        simp only [List.suffix_cons_iff, List.suffix_nil] at rest
        rcases rest with rfl | rfl | rfl | rfl | rfl | rfl
        all_goals simp [held, used, ThreadOp.holds, ThreadOp.uses]
  | finishing rest =>
      simp only [held, List.flatMap_append, flatMap_holds_mainEnd (List.suffix_refl _)]
      simp only [ThreadOp.executeEnd, ThreadOp.contextDestroy, List.cons_append, List.nil_append,
        List.suffix_cons_iff, List.suffix_nil] at rest
      rcases rest with rfl | rfl | rfl | rfl | rfl | rfl | rfl
      all_goals simp [used, ThreadOp.holds, ThreadOp.uses]
  | finished rest => simp [held, flatMap_holds_mainEnd rest]

/-- A thread that may touch a pool or a symbol table holds its context. -/
theorem Shaped.self_mem_held (shaped : thread.Shaped) (touches : thread.MayTouch) :
    thread.self ∈ thread.held := by
  cases shaped with
  | running child routine rest => simp [held]
  | @finishing self main front rest =>
      simp only [ThreadOp.executeEnd, ThreadOp.contextDestroy, List.cons_append, List.nil_append,
        List.suffix_cons_iff, List.suffix_nil] at rest
      rcases touches with absurdity | ⟨op, mem, touches⟩
      · contradiction
      rcases List.mem_append.mp mem with inFront | inEnd
      · rcases rest with rfl | rfl | rfl | rfl | rfl | rfl | rfl
        iterate 5 simp [held, ThreadOp.holds]
        · rcases List.mem_singleton.mp inFront with rfl
          exact absurd touches id
        · exact absurd inFront List.not_mem_nil
      · exact absurd touches (quiet_of_mem_mainEnd inEnd).2.2
  | finished rest =>
      rcases touches with absurdity | ⟨op, mem, touches⟩
      · contradiction
      · exact absurd touches (quiet_of_mem_mainEnd (rest.mem mem)).2.2

/-- What has begun goes on. -/
theorem Shaped.rest {op : ThreadOp} {rest : List ThreadOp} (shaped : thread.Shaped)
    (pending : thread.pending = op :: rest) : ({ thread with pending := rest } : Thread).Shaped := by
  cases shaped with
  | running child routine suffix =>
      subst pending
      exact .running child routine ((List.suffix_cons _ _).trans suffix)
  | @finishing self main front suffix =>
      cases front with
      | nil =>
          apply Shaped.finished
          have same : ThreadOp.mainEnd main = op :: rest := pending
          exact same ▸ List.suffix_cons op rest
      | cons first front =>
          rcases List.cons.inj pending with ⟨_, rfl⟩
          exact .finishing ((List.suffix_cons _ _).trans suffix)
  | finished suffix =>
      subst pending
      exact .finished ((List.suffix_cons _ _).trans suffix)

theorem not_mem_mainEnd {main : Bool} {op : ThreadOp}
    (last : op = .initContext ∨ ∃ child, op = .create child) : op ∉ ThreadOp.mainEnd main := by
  rcases last with rfl | ⟨child, rfl⟩
  all_goals cases main
  all_goals simp [ThreadOp.mainEnd]

/-- Setting up a context and handing it over are the last operations of their routines. -/
theorem Shaped.rest_eq_nil {op : ThreadOp} {rest : List ThreadOp} (shaped : thread.Shaped)
    (pending : thread.pending = op :: rest)
    (last : op = .initContext ∨ ∃ child, op = .create child) :
    thread.running = true ∧ rest = [] := by
  cases shaped with
  | running child routine suffix =>
      simp only at pending
      subst pending
      refine ⟨rfl, ?_⟩
      simp only [ThreadOp.routines, ThreadOp.contextDestroy, List.cons_append, List.nil_append,
        List.mem_cons, List.not_mem_nil, or_false] at routine
      rcases routine with rfl | rfl | rfl | rfl
      all_goals
        simp only [List.suffix_cons_iff, List.suffix_nil, List.cons.injEq] at suffix
        rcases last with rfl | ⟨child, rfl⟩
        all_goals simp at suffix
      · exact suffix
      · exact suffix.2
  | @finishing self main front suffix =>
      have mem : op ∈ front ++ ThreadOp.mainEnd main := by
        rw [show front ++ ThreadOp.mainEnd main = op :: rest from pending]
        exact List.mem_cons_self
      rcases List.mem_append.mp mem with inFront | inEnd
      · have inEnd := suffix.mem inFront
        rcases last with rfl | ⟨child, rfl⟩
        all_goals simp [ThreadOp.executeEnd, ThreadOp.contextDestroy] at inEnd
      · exact absurd inEnd (not_mem_mainEnd last)
  | finished suffix =>
      simp only at pending
      subst pending
      exact absurd (suffix.mem List.mem_cons_self) (not_mem_mainEnd last)

/-- Destroying the pools is the last that a thread does. -/
theorem Shaped.destroyPools_last {rest : List ThreadOp} (shaped : thread.Shaped)
    (pending : thread.pending = .destroyPools :: rest) : rest = [] := by
  have mainEnd_last : ∀ {main : Bool}, ThreadOp.destroyPools :: rest <:+ ThreadOp.mainEnd main →
      rest = [] := by
    intro main suffix
    cases main with
    | false => simp [ThreadOp.mainEnd] at suffix
    | true => simpa [ThreadOp.mainEnd, List.suffix_cons_iff] using suffix
  cases shaped with
  | running child routine suffix =>
      simp only at pending
      subst pending
      have mem := suffix.mem List.mem_cons_self
      simp only [ThreadOp.routines, List.mem_cons, List.not_mem_nil, or_false] at routine
      rcases routine with rfl | rfl | rfl | rfl
      all_goals simp [ThreadOp.contextDestroy] at mem
  | @finishing self main front suffix =>
      cases front with
      | nil =>
          have same : ThreadOp.mainEnd main = .destroyPools :: rest := pending
          have suffix : ThreadOp.destroyPools :: rest <:+ ThreadOp.mainEnd main :=
            same ▸ List.suffix_refl (ThreadOp.mainEnd main)
          exact mainEnd_last suffix
      | cons first front =>
          rcases List.cons.inj pending with ⟨rfl, _⟩
          have mem := suffix.mem List.mem_cons_self
          simp [ThreadOp.executeEnd, ThreadOp.contextDestroy] at mem
  | finished suffix =>
      simp only at pending
      subst pending
      exact mainEnd_last suffix

/-- `vm_main` waits before it destroys the pools. -/
def Waits (thread : Thread) : Prop :=
  .destroyPools ∈ thread.pending → .wait ∈ thread.pending

end Thread

namespace VmThreads

/-- The contexts that the registry has. -/
def held (system : VmThreads) : List ℕ := system.threads.flatMap Thread.held

/-- The contexts in storage. -/
def used (system : VmThreads) : List ℕ := system.threads.flatMap Thread.used

/-- The registry holds the contexts that some thread is still to remove, and each of them once. -/
structure Valid (system : VmThreads) : Prop where
  registered : ∃ entries, system.registry.Lists entries ∧ entries.Perm system.held ∧
    system.initialised.Perm (system.removed ++ entries) ∧
    (system.leftWait = true → entries = [])
  allocated : system.allocated.Perm system.used
  distinct : system.allocated.Nodup
  shaped : ∀ thread ∈ system.threads, thread.Shaped
  waits : system.leftWait = false → ∀ thread ∈ system.threads, thread.Waits

variable {source target shared : VmThreads} {thread : Thread} {front back created : List Thread}
  {op : ThreadOp} {rest next : List ThreadOp} {event : ThreadEvent}

theorem valid_initial {context node : ℕ} (nonzero : node ≠ 0) : (initial context node).Valid where
  registered := ⟨[context], Registry.empty_lists.insert nonzero rfl context, by rfl, by rfl,
    fun absurdity => by contradiction⟩
  allocated := by rfl
  distinct := List.nodup_singleton context
  shaped := by
    intro thread mem
    rcases List.mem_singleton.mp mem with rfl
    exact .running 0 List.mem_cons_self List.nil_suffix
  waits := by
    intro _ thread mem
    rcases List.mem_singleton.mp mem with rfl
    exact fun absurdity => absurd absurdity List.not_mem_nil

theorem Valid.held_sublist_used (valid : source.Valid) : source.held.Sublist source.used := by
  have shaped := valid.shaped
  rw [held, used]
  generalize source.threads = threads at shaped
  induction threads with
  | nil => exact List.Sublist.refl []
  | cons thread threads ih =>
      rw [List.flatMap_cons, List.flatMap_cons]
      apply List.Sublist.append
      · exact (shaped thread List.mem_cons_self).held_sublist_used
      · exact ih fun other mem => shaped other (List.mem_cons_of_mem _ mem)

/-- No context is registered twice. -/
theorem Valid.entries_nodup {entries : List ℕ} (valid : source.Valid)
    (perm : entries.Perm source.held) : entries.Nodup := by
  apply perm.nodup_iff.mpr
  apply List.Nodup.sublist valid.held_sublist_used
  exact valid.allocated.nodup_iff.mp valid.distinct

/-- What an operation changes about the contexts that the threads hold. -/
theorem flatMap_held_perm (pending : thread.pending = op :: rest) :
    ((front ++ { thread with pending := next ++ rest } :: back ++ created).flatMap Thread.held ++
        op.holds).Perm
      ((front ++ thread :: back).flatMap Thread.held ++ next.flatMap ThreadOp.holds ++
        created.flatMap Thread.held) := by
  apply List.perm_iff_count.mpr
  intro context
  simp only [Thread.held, pending, List.flatMap_append, List.flatMap_cons, List.count_append]
  omega

theorem flatMap_used_perm (pending : thread.pending = op :: rest) :
    ((front ++ { thread with pending := next ++ rest } :: back ++ created).flatMap Thread.used ++
        op.uses).Perm
      ((front ++ thread :: back).flatMap Thread.used ++ next.flatMap ThreadOp.uses ++
        created.flatMap Thread.used) := by
  apply List.perm_iff_count.mpr
  intro context
  simp only [Thread.used, pending, List.flatMap_append, List.flatMap_cons, List.count_append]
  omega

/-- Where an operation leaves no more than its thread and the new ones to look at. -/
theorem valid_of_performs {entries : List ℕ} (valid : source.Valid)
    (split : source.threads = front ++ thread :: back) (pending : thread.pending = op :: rest)
    (lists : shared.registry.Lists entries)
    (registered : (entries ++ op.holds).Perm
      (source.held ++ next.flatMap ThreadOp.holds ++ created.flatMap Thread.held))
    (logged : shared.initialised.Perm (shared.removed ++ entries))
    (left : shared.leftWait = true → entries = [])
    (allocated : (shared.allocated ++ op.uses).Perm
      (source.used ++ next.flatMap ThreadOp.uses ++ created.flatMap Thread.used))
    (distinct : shared.allocated.Nodup)
    (goesOn : ({ thread with pending := next ++ rest } : Thread).Shaped)
    (starts : ∀ thread ∈ created, thread.Shaped ∧ thread.Waits)
    (waits : shared.leftWait = false → source.leftWait = false ∧ op ≠ .wait)
    (keepsPools : .destroyPools ∉ next) :
    ({ shared with
        threads := front ++ { thread with pending := next ++ rest } :: back ++ created } :
      VmThreads).Valid where
  registered := by
    refine ⟨entries, lists, ?_, logged, left⟩
    apply (List.perm_append_right_iff op.holds).mp
    apply registered.trans
    rw [held, split]
    exact (flatMap_held_perm pending).symm
  allocated := by
    apply (List.perm_append_right_iff op.uses).mp
    apply allocated.trans
    rw [used, split]
    exact (flatMap_used_perm pending).symm
  distinct := distinct
  shaped := by
    intro other mem
    have among : ∀ other ∈ front ++ thread :: back, other.Shaped := split ▸ valid.shaped
    simp only [List.mem_append, List.mem_cons] at mem among
    rcases mem with (inFront | rfl | inBack) | new
    · exact among other (Or.inl inFront)
    · exact goesOn
    · exact among other (Or.inr (Or.inr inBack))
    · exact (starts other new).1
  waits := by
    intro leftWait other mem
    have among : ∀ other ∈ front ++ thread :: back, other.Waits :=
      split ▸ valid.waits (waits leftWait).1
    simp only [List.mem_append, List.mem_cons] at mem among
    rcases mem with (inFront | rfl | inBack) | new
    · exact among other (Or.inl inFront)
    · have before := among thread (Or.inr (Or.inl rfl))
      intro destroys
      simp only [List.mem_append, keepsPools, false_or] at destroys
      rw [Thread.Waits, pending] at before
      rcases List.mem_cons.mp (before (List.mem_cons_of_mem _ destroys)) with isWait | later
      · exact absurd isWait.symm (waits leftWait).2
      · exact List.mem_append_right _ later
    · exact among other (Or.inr (Or.inr inBack))
    · exact (starts other new).2

/-- A choice of the loop changes nothing that the threads share. -/
theorem Valid.choose {choice : ThreadChoice} (valid : source.Valid)
    (split : source.threads = front ++ thread :: back) (running : thread.running = true)
    (pending : thread.pending = []) :
    ({ source with threads := front ++ thread.choose choice :: back } : VmThreads).Valid := by
  have sameHeld : (thread.choose choice).held = thread.held := by
    cases choice with
    | instruction | coro => simp [Thread.choose, Thread.held, running, pending, ThreadOp.holds]
    | finish =>
        simp [Thread.choose, Thread.held, running, pending, ThreadOp.holds, ThreadOp.executeEnd,
          ThreadOp.contextDestroy, Thread.flatMap_holds_mainEnd (List.suffix_refl _)]
  have sameUsed : (thread.choose choice).used = thread.used := by
    cases choice with
    | instruction | coro => simp [Thread.choose, Thread.used, running, pending, ThreadOp.uses]
    | finish =>
        simp [Thread.choose, Thread.used, running, pending, ThreadOp.uses, ThreadOp.executeEnd,
          ThreadOp.contextDestroy, Thread.flatMap_uses_mainEnd]
  have goesOn : (thread.choose choice).Shaped := by
    rcases thread with ⟨self, main, _, _⟩
    subst running pending
    cases choice with
    | instruction => exact .running 0 List.mem_cons_self (List.suffix_refl _)
    | coro => exact .running 0 (List.mem_cons_of_mem _ List.mem_cons_self) (List.suffix_refl _)
    | finish => exact .finishing (List.suffix_refl _)
  have held : source.held = (front ++ thread.choose choice :: back).flatMap Thread.held := by
    rw [VmThreads.held, split]
    simp [sameHeld]
  have used : source.used = (front ++ thread.choose choice :: back).flatMap Thread.used := by
    rw [VmThreads.used, split]
    simp [sameUsed]
  rcases valid.registered with ⟨entries, lists, perm, logged, left⟩
  rw [held] at perm
  have allocated := valid.allocated
  rw [used] at allocated
  have waits : (thread.choose choice).Waits := by
    cases choice with
    | instruction | coro => simp [Thread.Waits, Thread.choose]
    | finish =>
        intro destroys
        cases main : thread.main with
        | true => simp [Thread.choose, ThreadOp.mainEnd, main]
        | false =>
            simp [Thread.choose, ThreadOp.mainEnd, ThreadOp.executeEnd, ThreadOp.contextDestroy,
              main] at destroys
  refine ⟨⟨entries, lists, perm, logged, left⟩, allocated, valid.distinct, ?_, ?_⟩
  · intro other mem
    have among : ∀ other ∈ front ++ thread :: back, other.Shaped := split ▸ valid.shaped
    simp only [List.mem_append, List.mem_cons] at mem among
    rcases mem with inFront | rfl | inBack
    · exact among other (Or.inl inFront)
    · exact goesOn
    · exact among other (Or.inr (Or.inr inBack))
  · intro leftWait other mem
    have among : ∀ other ∈ front ++ thread :: back, other.Waits := split ▸ valid.waits leftWait
    simp only [List.mem_append, List.mem_cons] at mem among
    rcases mem with inFront | rfl | inBack
    · exact among other (Or.inl inFront)
    · exact waits
    · exact among other (Or.inr (Or.inr inBack))

/-- Every operation keeps the registry to the contexts that are not removed yet. -/
theorem Valid.performs (valid : source.Valid)
    (split : source.threads = front ++ thread :: back) (pending : thread.pending = op :: rest)
    (performs : source.Performs op shared next created) :
    ({ shared with
        threads := front ++ { thread with pending := next ++ rest } :: back ++ created } :
      VmThreads).Valid := by
  rcases valid.registered with ⟨entries, lists, perm, logged, left⟩
  have shaped : thread.Shaped := valid.shaped thread (by simp [split])
  have goesOn : ({ thread with pending := [] ++ rest } : Thread).Shaped := shaped.rest pending
  cases performs with
  | touches touches =>
      have quiet := touches.quiet
      refine valid_of_performs valid split pending lists ?_ logged left ?_ valid.distinct goesOn
        (by simp) (fun leftWait => ⟨leftWait, quiet.2.2⟩) List.not_mem_nil
      · simpa [quiet.1] using perm
      · simpa [quiet.2.1] using valid.allocated
  | initContext address node nonzero unused nodeNonzero nodeUnused =>
      rcases shaped.rest_eq_nil pending (Or.inl rfl) with ⟨running, rfl⟩
      have inHeld : thread.self ∈ entries := by
        apply perm.mem_iff.mpr
        apply List.mem_flatMap.mpr
        exact ⟨thread, by simp [split], by simp [Thread.held, running]⟩
      refine valid_of_performs valid split pending (lists.insert nodeNonzero nodeUnused address)
        ?_ ?_ ?_ ?_ (List.nodup_cons.mpr ⟨unused, valid.distinct⟩) ?_ (by simp)
        (fun leftWait => ⟨leftWait, by simp⟩) (by simp)
      · simpa [ThreadOp.holds] using
          (perm.cons address).trans (List.perm_append_singleton address source.held).symm
      · exact (logged.cons address).trans List.perm_middle.symm
      · intro leftWait
        rw [left leftWait] at inHeld
        exact absurd inHeld List.not_mem_nil
      · simpa [ThreadOp.uses] using
          (valid.allocated.cons address).trans (List.perm_append_singleton address source.used).symm
      · rcases thread with ⟨self, main, _, _⟩
        subst running
        exact .running address
          (List.mem_cons_of_mem _ (List.mem_cons_of_mem _ List.mem_cons_self)) (List.suffix_refl _)
  | started child =>
      refine valid_of_performs valid split pending lists ?_ logged left ?_ valid.distinct goesOn ?_
        (fun leftWait => ⟨leftWait, by simp⟩) List.not_mem_nil
      · simpa [ThreadOp.holds, Thread.held] using perm.append_right [child]
      · simpa [ThreadOp.uses, Thread.used] using valid.allocated.append_right [child]
      · intro new mem
        rcases List.mem_singleton.mp mem with rfl
        refine ⟨.running 0 List.mem_cons_self List.nil_suffix, ?_⟩
        exact fun absurdity => absurd absurdity List.not_mem_nil
  | refused child =>
      rcases shaped.rest_eq_nil pending (Or.inr ⟨child, rfl⟩) with ⟨running, rfl⟩
      refine valid_of_performs valid split pending lists ?_ logged left ?_ valid.distinct ?_
        (by simp) (fun leftWait => ⟨leftWait, by simp⟩) (by simp [ThreadOp.contextDestroy])
      · simpa [ThreadOp.holds, ThreadOp.contextDestroy] using perm.append_right [child]
      · simpa [ThreadOp.uses, ThreadOp.contextDestroy] using valid.allocated.append_right [child]
      · rcases thread with ⟨self, main, _, _⟩
        subst running
        have routine : ThreadOp.contextDestroy child ++ [.free child] ∈ ThreadOp.routines child := by
          simp [ThreadOp.routines]
        exact .running child routine (by simp)
  | unregister context registry removes =>
      have mem : context ∈ entries := by
        apply perm.mem_iff.mpr
        apply List.mem_flatMap.mpr
        exact ⟨thread, by simp [split], by simp [Thread.held, pending, ThreadOp.holds]⟩
      refine valid_of_performs valid split pending
        (lists.of_remove_returns (valid.entries_nodup perm) removes) ?_ ?_ ?_ ?_ valid.distinct
        goesOn (by simp) (fun leftWait => ⟨leftWait, by simp⟩) List.not_mem_nil
      · simpa [ThreadOp.holds] using
          ((List.perm_append_singleton context _).trans (List.perm_cons_erase mem).symm).trans perm
      · apply logged.trans
        exact ((List.perm_cons_erase mem).append_left source.removed).trans List.perm_middle
      · intro leftWait
        rw [left leftWait]
        rfl
      · simpa [ThreadOp.uses] using valid.allocated
  | free context =>
      have mem : context ∈ source.allocated := by
        apply valid.allocated.mem_iff.mpr
        apply List.mem_flatMap.mpr
        exact ⟨thread, by simp [split], by simp [Thread.used, pending, ThreadOp.uses]⟩
      refine valid_of_performs valid split pending lists ?_ logged left ?_
        (valid.distinct.erase context) goesOn (by simp) (fun leftWait => ⟨leftWait, by simp⟩)
        List.not_mem_nil
      · simpa [ThreadOp.holds] using perm
      · simpa [ThreadOp.uses] using
          ((List.perm_append_singleton context _).trans (List.perm_cons_erase mem).symm).trans
            valid.allocated
  | wait empty =>
      refine valid_of_performs valid split pending lists ?_ logged
        (fun _ => lists.head_eq_zero_iff.mp empty) ?_ valid.distinct goesOn (by simp)
        (fun absurdity => by contradiction) List.not_mem_nil
      · simpa [ThreadOp.holds] using perm
      · simpa [ThreadOp.uses] using valid.allocated
  | collect | destroyPools =>
      refine valid_of_performs valid split pending lists ?_ logged left ?_ valid.distinct goesOn
        (by simp) (fun leftWait => ⟨leftWait, by simp⟩) List.not_mem_nil
      · simpa [ThreadOp.holds] using perm
      · simpa [ThreadOp.uses] using valid.allocated

theorem Valid.step (valid : source.Valid) (step : VmThreadsStep source event target) :
    target.Valid := by
  rcases step with ⟨front, thread, back, split, does⟩
  cases event with
  | choose choice =>
      rcases does with ⟨running, pending, rfl⟩
      exact valid.choose split running pending
  | perform op =>
      rcases does with ⟨rest, shared, next, created, pending, performs, rfl⟩
      exact valid.performs split pending performs

/-- A thread that may touch a pool or a symbol table is registered. -/
theorem Valid.self_mem {entries : List ℕ} (valid : source.Valid)
    (perm : entries.Perm source.held) (mem : thread ∈ source.threads)
    (touches : thread.MayTouch) : thread.self ∈ entries := by
  apply perm.mem_iff.mpr
  apply List.mem_flatMap.mpr
  exact ⟨thread, mem, (valid.shaped thread mem).self_mem_held touches⟩

theorem Valid.safe (valid : source.Valid) : source.Safe := by
  rcases valid.registered with ⟨entries, lists, perm, logged, left⟩
  refine ⟨?_, ?_, ?_⟩
  · intro thread mem touches
    exact ⟨entries, lists, valid.self_mem perm mem touches⟩
  · intro leftWait thread mem touches
    have inside := valid.self_mem perm mem touches
    rw [left leftWait] at inside
    exact List.not_mem_nil inside
  · intro leftWait
    rw [left leftWait, List.append_nil] at logged
    exact logged

theorem Valid.unlinks (valid : source.Valid) (step : VmThreadsStep source event target) :
    Unlinks source event target := by
  rintro context rfl
  rcases valid.registered with ⟨entries, lists, perm, _, _⟩
  rcases step with ⟨front, thread, back, split, rest, shared, next, created, pending, performs, rfl⟩
  have once := valid.entries_nodup perm
  have mem : context ∈ entries := by
    apply perm.mem_iff.mpr
    apply List.mem_flatMap.mpr
    exact ⟨thread, by simp [split], by simp [Thread.held, pending, ThreadOp.holds]⟩
  cases performs with
  | touches touches => exact absurd touches id
  | unregister _ registry removes =>
      exact ⟨entries, lists, once, mem, lists.of_remove_returns once removes⟩

theorem Valid.tearsDownAlone (valid : source.Valid) (step : VmThreadsStep source event target) :
    TearsDownAlone source event := by
  rintro rfl
  rcases step with ⟨front, thread, back, split, rest, shared, next, created, pending, _, _⟩
  have mem : thread ∈ source.threads := by simp [split]
  cases leftWait : source.leftWait with
  | true => exact valid.safe.alone leftWait
  | false =>
      have waits := valid.waits leftWait thread mem
      rw [Thread.Waits, pending, (valid.shaped thread mem).destroyPools_last pending] at waits
      exact absurd (waits List.mem_cons_self) (by decide)

/-- Whatever contexts are set up and end, in whatever order: none of them touches a pool or a symbol
table once it is removed, `vm_main` leaves its wait only when all are and destroys the pools only
then, and each is removed by itself. -/
theorem safe_and_unlinks {context node : ℕ} (nonzero : node ≠ 0)
    {steps : List (ThreadEvent × VmThreads)}
    (run : IsRun VmThreadsStep (initial context node) steps) :
    (∀ system ∈ visited (initial context node) steps, system.Safe) ∧
      ∀ transition ∈ transitions (initial context node) steps,
        Unlinks transition.1 transition.2.1 transition.2.2 ∧
          TearsDownAlone transition.1 transition.2.1 := by
  have meet : StepsMeet (fun _ _ => True) (initial context node) steps :=
    StepsMeet.of_forall fun _ _ => trivial
  constructor
  · intro system visits
    apply Valid.safe
    exact IsRun.forall_visited VmThreadsStep (fun _ _ => True) Valid
      (fun _ _ _ valid _ step => valid.step step) (valid_initial nonzero) run meet system visits
  · have holds : ∀ source event target, source.Valid → True → VmThreadsStep source event target →
        Unlinks source event target ∧ TearsDownAlone source event := by
      intro source event target valid _ step
      exact ⟨valid.unlinks step, valid.tearsDownAlone step⟩
    exact IsRun.forall_transitions VmThreadsStep (fun _ _ => True) Valid
      (fun _ _ _ valid _ step => valid.step step) holds (valid_initial nonzero) run meet

/-- The main context with what it is to do, and its child with the thread that has it, if any. -/
def sampleParent (pending : List ThreadOp) : VmThreads :=
  { initial 100 1 with threads := [⟨100, true, true, pending⟩] }

def sampleChild (pending : List ThreadOp) (created : List Thread) : VmThreads where
  threads := ⟨100, true, true, pending⟩ :: created
  registry := (initial 100 1).registry.insert 2 200
  allocated := [200, 100]
  initialised := [200, 100]
  removed := []
  leftWait := false

/-- The main context at its end, with what is left of it and of what its child does. -/
def sampleEnding (shared : VmThreads) (main child : List ThreadOp) (running : Bool) : VmThreads :=
  { shared with threads := [⟨100, true, false, main⟩, ⟨200, false, running, child⟩] }

/-- What the threads share once the main context is removed, and once both are. -/
def sampleMainLeft : VmThreads :=
  { sampleChild [] [] with
    registry := (((sampleChild [] []).registry.remove 2 100).toOption).getD .empty
    removed := [100] }

def sampleMainFreed : VmThreads := { sampleMainLeft with allocated := [200] }

def sampleBothLeft : VmThreads :=
  { sampleMainFreed with
    registry := ((sampleMainFreed.registry.remove 1 200).toOption).getD .empty
    removed := [200, 100] }

def sampleBothFreed : VmThreads := { sampleBothLeft with allocated := [] }

/-- What is left of the end of the main context, and of its child. -/
def sampleMainEnd (done : ℕ) : List ThreadOp :=
  (ThreadOp.executeEnd 100 ++ ThreadOp.mainEnd true).drop done

def sampleChildEnd (done : ℕ) : List ThreadOp := (ThreadOp.executeEnd 200).drop done

/-- A run in which the main context starts another one and ends before it. -/
def sampleSteps : List (ThreadEvent × VmThreads) :=
  [(.choose .coro, sampleParent [.popParams, .initContext]),
    (.perform .popParams, sampleParent [.initContext]),
    (.perform .initContext, sampleChild [.pushParams 200, .create 200] []),
    (.perform (.pushParams 200), sampleChild [.create 200] []),
    (.perform (.create 200), sampleChild [] [⟨200, false, true, []⟩]),
    (.choose .finish, sampleEnding (sampleChild [] []) (sampleMainEnd 0) [] true),
    (.perform .endScope, sampleEnding (sampleChild [] []) (sampleMainEnd 1) [] true),
    (.choose .instruction,
      sampleEnding (sampleChild [] []) (sampleMainEnd 1) [.instruction] true),
    (.perform (.destroyDataStack 100),
      sampleEnding (sampleChild [] []) (sampleMainEnd 2) [.instruction] true),
    (.perform (.destroyReturnStack 100),
      sampleEnding (sampleChild [] []) (sampleMainEnd 3) [.instruction] true),
    (.perform (.destroySymboltable 100),
      sampleEnding (sampleChild [] []) (sampleMainEnd 4) [.instruction] true),
    (.perform (.unregister 100),
      sampleEnding sampleMainLeft (sampleMainEnd 5) [.instruction] true),
    (.perform .instruction, sampleEnding sampleMainLeft (sampleMainEnd 5) [] true),
    (.perform (.free 100), sampleEnding sampleMainFreed (sampleMainEnd 6) [] true),
    (.choose .finish, sampleEnding sampleMainFreed (sampleMainEnd 6) (sampleChildEnd 0) false),
    (.perform .endScope,
      sampleEnding sampleMainFreed (sampleMainEnd 6) (sampleChildEnd 1) false),
    (.perform (.destroyDataStack 200),
      sampleEnding sampleMainFreed (sampleMainEnd 6) (sampleChildEnd 2) false),
    (.perform (.destroyReturnStack 200),
      sampleEnding sampleMainFreed (sampleMainEnd 6) (sampleChildEnd 3) false),
    (.perform (.destroySymboltable 200),
      sampleEnding sampleMainFreed (sampleMainEnd 6) (sampleChildEnd 4) false),
    (.perform (.unregister 200),
      sampleEnding sampleBothLeft (sampleMainEnd 6) (sampleChildEnd 5) false),
    (.perform .wait,
      sampleEnding { sampleBothLeft with leftWait := true } (sampleMainEnd 7)
        (sampleChildEnd 5) false),
    (.perform (.free 200),
      sampleEnding { sampleBothFreed with leftWait := true } (sampleMainEnd 7) [] false),
    (.perform .collect,
      sampleEnding { sampleBothFreed with leftWait := true } (sampleMainEnd 8) [] false),
    (.perform .destroyPools,
      sampleEnding { sampleBothFreed with leftWait := true } [] [] false)]

theorem main_performs {shared after : VmThreads} {main child : List ThreadOp} {running : Bool}
    {op : ThreadOp} (performs : (sampleEnding shared (op :: main) child running).Performs op
      (sampleEnding after (op :: main) child running) [] []) :
    VmThreadsStep (sampleEnding shared (op :: main) child running) (.perform op)
      (sampleEnding after main child running) :=
  ⟨[], ⟨100, true, false, op :: main⟩, _, rfl, _, _, _, _, rfl, performs, rfl⟩

theorem child_performs {shared after : VmThreads} {main child : List ThreadOp} {running : Bool}
    {op : ThreadOp} (performs : (sampleEnding shared main (op :: child) running).Performs op
      (sampleEnding after main (op :: child) running) [] []) :
    VmThreadsStep (sampleEnding shared main (op :: child) running) (.perform op)
      (sampleEnding after main child running) :=
  ⟨[_], ⟨200, false, running, op :: child⟩, [], rfl, _, _, _, _, rfl, performs, rfl⟩

theorem sampleSteps_isRun : IsRun VmThreadsStep (initial 100 1) sampleSteps := by
  refine ⟨⟨[], ⟨100, true, true, []⟩, [], rfl, rfl, rfl, rfl⟩,
    ⟨[], ⟨100, true, true, _⟩, [], rfl, _, _, _, _, rfl, .touches trivial, rfl⟩,
    ⟨[], ⟨100, true, true, _⟩, [], rfl, _, _, _, _, rfl, .initContext 200 2 ?_ ?_ ?_ rfl, rfl⟩,
    ⟨[], ⟨100, true, true, _⟩, [], rfl, _, _, _, _, rfl, .touches trivial, rfl⟩,
    ⟨[], ⟨100, true, true, _⟩, [], rfl, _, _, _, _, rfl, .started 200, rfl⟩,
    ⟨[], ⟨100, true, true, []⟩, [_], rfl, rfl, rfl, rfl⟩, main_performs (.touches trivial),
    ⟨[_], ⟨200, false, true, []⟩, [], rfl, rfl, rfl, rfl⟩, main_performs (.touches trivial),
    main_performs (.touches trivial), main_performs (.touches trivial),
    main_performs (.unregister 100 _ ⟨2, ?_⟩), child_performs (.touches trivial),
    main_performs (.free 100), ⟨[_], ⟨200, false, true, []⟩, [], rfl, rfl, rfl, rfl⟩,
    child_performs (.touches trivial), child_performs (.touches trivial),
    child_performs (.touches trivial), child_performs (.touches trivial),
    child_performs (.unregister 200 _ ⟨2, ?_⟩), main_performs (.wait rfl),
    child_performs (.free 200), main_performs .collect, main_performs .destroyPools, trivial⟩
  · decide
  · decide
  · decide
  · intro fuel enough
    rcases Nat.exists_eq_add_of_le' enough with ⟨more, rfl⟩
    rfl
  · intro fuel enough
    rcases Nat.exists_eq_add_of_le' enough with ⟨more, rfl⟩
    rfl

theorem safe_and_unlinks_sample :
    IsRun VmThreadsStep (initial 100 1) sampleSteps ∧
      (∀ system ∈ visited (initial 100 1) sampleSteps, system.Safe) ∧
        ∀ transition ∈ transitions (initial 100 1) sampleSteps,
          Unlinks transition.1 transition.2.1 transition.2.2 ∧
            TearsDownAlone transition.1 transition.2.1 :=
  ⟨sampleSteps_isRun, safe_and_unlinks (by decide) sampleSteps_isRun⟩

end VmThreads

end Dang