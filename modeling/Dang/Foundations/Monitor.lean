import Dang.Foundations.Run
import Mathlib.Data.List.Basic

/-!
# Monitors

Any number of threads that share a state under one lock, with condition variables to
wait on. A program tells what a thread does at each point of its code. A wait gives
the lock back and takes it again before it returns; it may end by a signal, by itself
and, if it is timed, because its time is up. A signal wakes one of the threads that
wait on its condition, if there is one.

What holds of the shared state whenever the lock is free, and what each point inside
of the lock may rely on, follow from the program's operations one by one.
-/

namespace Dang

/-- What a thread does at a point of its code. -/
inductive MonitorOp (Shared Input Condition Point : Type)
  /-- It calls one of the monitor's functions. -/
  | enter (calls : Point → Bool)
  /-- It takes the lock, or fails to. -/
  | lock (locked failed : Point)
  /-- It works on the shared state, and has the lock. -/
  | work (act : Input → Shared → Outcome (Shared × Point))
  /-- It waits, and goes on by whether the wait timed out. -/
  | wait (condition : Condition) (timed : Bool) (next : Bool → Point)
  | unlock (next : Point)
  | signal (condition : Condition) (next : Point)

/-- Where a thread is. -/
inductive MonitorThread (Point : Type)
  | running (point : Point)
  /-- In a wait, until something wakes it. -/
  | blocked (point : Point)
  /-- In a wait, until it has the lock back. -/
  | woken (timedOut : Bool) (point : Point)
  deriving DecidableEq, Repr

/-- The threads and what they share. -/
structure Monitor (Shared Point : Type) where
  shared : Shared
  /-- The thread that has the lock. -/
  owner : Option ℕ
  threads : List (MonitorThread Point)

/-- The action of a thread in a step. -/
inductive MonitorAction (Input Point : Type)
  | enter (call : Point)
  | lock
  | lockFails
  | work (input : Input)
  | wait
  /-- The wait ends without a signal. -/
  | wake (timedOut : Bool)
  /-- The thread that was woken takes the lock back. -/
  | resume
  | unlock
  | signal (woken : Option ℕ)

namespace Monitor

variable {Shared Input Condition Point : Type}
  (program : Point → MonitorOp Shared Input Condition Point)

/-- The thread waits on the condition. -/
def WaitsOn (condition : Condition) (thread : MonitorThread Point) : Prop :=
  ∃ point timed next, thread = .blocked point ∧ program point = .wait condition timed next

/-- A step of one of the threads. -/
inductive Step (state : Monitor Shared Point) :
    ℕ × MonitorAction Input Point → Monitor Shared Point → Prop
  | enter {self : ℕ} {point call : Point} {calls : Point → Bool}
      (here : state.threads[self]? = some (.running point)) (op : program point = .enter calls)
      (called : calls call = true) :
      Step state (self, .enter call)
        { state with threads := state.threads.set self (.running call) }
  | lock {self : ℕ} {point locked failed : Point}
      (here : state.threads[self]? = some (.running point))
      (op : program point = .lock locked failed) (free : state.owner = none) :
      Step state (self, .lock)
        { state with owner := some self, threads := state.threads.set self (.running locked) }
  | lockFails {self : ℕ} {point locked failed : Point}
      (here : state.threads[self]? = some (.running point))
      (op : program point = .lock locked failed) :
      Step state (self, .lockFails)
        { state with threads := state.threads.set self (.running failed) }
  | work {self : ℕ} {point next : Point} {input : Input} {shared : Shared}
      {act : Input → Shared → Outcome (Shared × Point)}
      (here : state.threads[self]? = some (.running point)) (op : program point = .work act)
      (acts : act input state.shared = .ok (shared, next)) :
      Step state (self, .work input)
        { state with shared := shared, threads := state.threads.set self (.running next) }
  | wait {self : ℕ} {point : Point} {condition : Condition} {timed : Bool} {next : Bool → Point}
      (here : state.threads[self]? = some (.running point))
      (op : program point = .wait condition timed next) :
      Step state (self, .wait)
        { state with owner := none, threads := state.threads.set self (.blocked point) }
  | wake {self : ℕ} {point : Point} {condition : Condition} {timed timedOut : Bool}
      {next : Bool → Point} (here : state.threads[self]? = some (.blocked point))
      (op : program point = .wait condition timed next) (due : timedOut = true → timed = true) :
      Step state (self, .wake timedOut)
        { state with threads := state.threads.set self (.woken timedOut point) }
  | resume {self : ℕ} {point : Point} {condition : Condition} {timed timedOut : Bool}
      {next : Bool → Point} (here : state.threads[self]? = some (.woken timedOut point))
      (op : program point = .wait condition timed next) (free : state.owner = none) :
      Step state (self, .resume)
        { state with
          owner := some self
          threads := state.threads.set self (.running (next timedOut)) }
  | unlock {self : ℕ} {point next : Point}
      (here : state.threads[self]? = some (.running point)) (op : program point = .unlock next) :
      Step state (self, .unlock)
        { state with owner := none, threads := state.threads.set self (.running next) }
  | signal {self other : ℕ} {point next sleeping : Point} {condition : Condition} {timed : Bool}
      {resumed : Bool → Point} (here : state.threads[self]? = some (.running point))
      (op : program point = .signal condition next)
      (sleeps : state.threads[other]? = some (.blocked sleeping))
      (waits : program sleeping = .wait condition timed resumed) :
      Step state (self, .signal (some other))
        { state with
          threads := (state.threads.set self (.running next)).set other (.woken false sleeping) }
  | signalNone {self : ℕ} {point next : Point} {condition : Condition}
      (here : state.threads[self]? = some (.running point))
      (op : program point = .signal condition next)
      (nobody : ∀ thread ∈ state.threads, ¬WaitsOn program condition thread) :
      Step state (self, .signal none)
        { state with threads := state.threads.set self (.running next) }

section Counting

/-- How many threads are at a point of a kind. -/
def tally (counted : MonitorThread Point → Bool) (state : Monitor Shared Point) : ℕ :=
  state.threads.countP counted

/-- A thread that moves counts where it was before, and where it is afterwards. -/
theorem countP_set_add {counted : MonitorThread Point → Bool}
    {threads : List (MonitorThread Point)} {self : ℕ} {before after : MonitorThread Point}
    (here : threads[self]? = some before) :
    (threads.set self after).countP counted + (counted before).toNat =
      threads.countP counted + (counted after).toNat := by
  rcases List.getElem?_eq_some_iff.mp here with ⟨inside, found⟩
  have counts : counted before = true → 0 < threads.countP counted := by
    intro counts
    apply List.countP_pos_iff.mpr
    exact ⟨before, List.mem_of_getElem? here, counts⟩
  rw [List.countP_set inside, found]
  cases old : counted before with
  | false =>
      cases counted after with
      | false => rfl
      | true => rfl
  | true =>
      have positive := counts old
      cases counted after with
      | false =>
          simp only [if_true, Bool.false_eq_true, if_false, Bool.toNat_true, Bool.toNat_false]
          omega
      | true =>
          simp only [if_true, Bool.toNat_true]
          omega

end Counting

section Guarding

variable (holds : Point → Bool) (invariant : Shared → Prop) (fact : Point → Shared → Prop)

/-- The operation keeps to the lock: it works on the shared state only with the lock, keeps the
invariant, and gets to points whose facts hold. -/
def Obeys (point : Point) : MonitorOp Shared Input Condition Point → Prop
  | .enter calls => holds point = false ∧ ∀ call, calls call = true → holds call = false
  | .lock locked failed => holds point = false ∧ holds failed = false ∧ holds locked = true ∧
      ∀ shared, invariant shared → fact locked shared
  | .work act => holds point = true ∧ ∀ input shared after next, invariant shared →
      fact point shared → act input shared = .ok (after, next) →
      holds next = true ∧ invariant after ∧ fact next after
  | .wait _ _ next => holds point = true ∧ ∀ timedOut, holds (next timedOut) = true ∧
      ∀ shared, invariant shared → fact (next timedOut) shared
  | .unlock next => holds point = true ∧ holds next = false
  | .signal _ next => holds point = false ∧ holds next = false

/-- The invariant holds, and a thread that is inside of the lock has it and finds the fact of its
point. -/
structure Guarded (state : Monitor Shared Point) : Prop where
  shared : invariant state.shared
  inside : ∀ self point, state.threads[self]? = some (.running point) → holds point = true →
    state.owner = some self ∧ fact point state.shared

variable {program holds invariant fact} {state target : Monitor Shared Point}

/-- One thread moves: the others are outside of the lock, or the lock and what is shared stay. -/
theorem Guarded.move (guarded : state.Guarded holds invariant fact) {self : ℕ}
    {moved : MonitorThread Point} {owner : Option ℕ} {shared : Shared} (kept : invariant shared)
    (own : ∀ point, moved = .running point → holds point = true →
      owner = some self ∧ fact point shared)
    (others : owner = state.owner ∧ shared = state.shared ∨ state.owner = none ∨
      state.owner = some self) :
    Guarded holds invariant fact
      { shared := shared, owner := owner, threads := state.threads.set self moved } := by
  refine ⟨kept, ?_⟩
  intro other point here inside
  by_cases same : self = other
  · subst same
    rw [List.getElem?_set_self'] at here
    rcases Option.map_eq_some_iff.mp here with ⟨_, _, moves⟩
    exact own point moves inside
  · change (state.threads.set self moved)[other]? = some (.running point) at here
    rw [List.getElem?_set_ne same] at here
    rcases guarded.inside other point here inside with ⟨owns, known⟩
    rcases others with ⟨rfl, rfl⟩ | free | mine
    · exact ⟨owns, known⟩
    · simp [free] at owns
    · simp [mine, same] at owns

/-- A program whose operations keep to the lock stays inside of what they rely on. -/
theorem Guarded.step {label : ℕ × MonitorAction Input Point}
    (obeys : ∀ point, Obeys holds invariant fact point (program point))
    (guarded : state.Guarded holds invariant fact) (step : Step program state label target) :
    target.Guarded holds invariant fact := by
  cases step with
  | @enter self point call calls here op called =>
      have rules := obeys point
      rw [op] at rules
      apply guarded.move guarded.shared
      · intro next moves inside
        cases moves
        rw [rules.2 call called] at inside
        contradiction
      · exact Or.inl ⟨rfl, rfl⟩
  | @lock self point locked failed here op free =>
      have rules := obeys point
      rw [op] at rules
      apply guarded.move guarded.shared
      · intro next moves inside
        cases moves
        exact ⟨rfl, rules.2.2.2 _ guarded.shared⟩
      · exact Or.inr (Or.inl free)
  | @lockFails self point locked failed here op =>
      have rules := obeys point
      rw [op] at rules
      apply guarded.move guarded.shared
      · intro next moves inside
        cases moves
        rw [rules.2.1] at inside
        contradiction
      · exact Or.inl ⟨rfl, rfl⟩
  | @work self point next input shared act here op acts =>
      have rules := obeys point
      rw [op] at rules
      rcases guarded.inside self point here rules.1 with ⟨owns, known⟩
      rcases rules.2 input _ _ _ guarded.shared known acts with ⟨_, kept, after⟩
      apply guarded.move kept
      · intro reached moves inside
        cases moves
        exact ⟨owns, after⟩
      · exact Or.inr (Or.inr owns)
  | @wait self point condition timed next here op =>
      have rules := obeys point
      rw [op] at rules
      apply guarded.move guarded.shared
      · intro next moves
        cases moves
      · exact Or.inr (Or.inr (guarded.inside self point here rules.1).1)
  | @wake self point condition timed timedOut next here op due =>
      apply guarded.move guarded.shared
      · intro next moves
        cases moves
      · exact Or.inl ⟨rfl, rfl⟩
  | @resume self point condition timed timedOut next here op free =>
      have rules := obeys point
      rw [op] at rules
      apply guarded.move guarded.shared
      · intro reached moves inside
        cases moves
        exact ⟨rfl, (rules.2 timedOut).2 _ guarded.shared⟩
      · exact Or.inr (Or.inl free)
  | @unlock self point next here op =>
      have rules := obeys point
      rw [op] at rules
      apply guarded.move guarded.shared
      · intro reached moves inside
        cases moves
        rw [rules.2] at inside
        contradiction
      · exact Or.inr (Or.inr (guarded.inside self point here rules.1).1)
  | @signal self other point next sleeping condition timed resumed here op sleeps waits =>
      have rules := obeys point
      rw [op] at rules
      have moved : Guarded holds invariant fact
          { state with threads := state.threads.set self (.running next) } := by
        apply guarded.move guarded.shared
        · intro reached moves inside
          cases moves
          rw [rules.2] at inside
          contradiction
        · exact Or.inl ⟨rfl, rfl⟩
      apply moved.move moved.shared
      · intro reached moves
        cases moves
      · exact Or.inl ⟨rfl, rfl⟩
  | @signalNone self point next condition here op nobody =>
      have rules := obeys point
      rw [op] at rules
      apply guarded.move guarded.shared
      · intro reached moves inside
        cases moves
        rw [rules.2] at inside
        contradiction
      · exact Or.inl ⟨rfl, rfl⟩

end Guarding

section Executing

variable [DecidableEq Condition]

/-- Executable form of waiting on a condition. -/
def waitsOn (condition : Condition) : MonitorThread Point → Bool
  | .blocked point =>
      match program point with
      | .wait waited _ _ => decide (waited = condition)
      | _ => false
  | _ => false

/-- The step a thread can make with an action. -/
def exec (state : Monitor Shared Point) (label : ℕ × MonitorAction Input Point) :
    Outcome (Monitor Shared Point) :=
  match state.threads[label.1]?, label.2 with
  | some (.running point), action =>
      match program point, action with
      | .enter calls, .enter call =>
          if calls call then
            .ok { state with threads := state.threads.set label.1 (.running call) }
          else .error .outOfFuel
      | .lock locked _, .lock =>
          if state.owner = none then
            .ok
              { state with
                owner := some label.1
                threads := state.threads.set label.1 (.running locked) }
          else .error .outOfFuel
      | .lock _ failed, .lockFails =>
          .ok { state with threads := state.threads.set label.1 (.running failed) }
      | .work act, .work input => do
          let (shared, next) ← act input state.shared
          .ok { state with shared := shared, threads := state.threads.set label.1 (.running next) }
      | .wait _ _ _, .wait =>
          .ok { state with owner := none, threads := state.threads.set label.1 (.blocked point) }
      | .unlock next, .unlock =>
          .ok { state with owner := none, threads := state.threads.set label.1 (.running next) }
      | .signal condition next, .signal none =>
          if state.threads.all fun thread => !waitsOn program condition thread then
            .ok { state with threads := state.threads.set label.1 (.running next) }
          else .error .outOfFuel
      | .signal condition next, .signal (some other) =>
          match state.threads[other]? with
          | some (.blocked sleeping) =>
              if waitsOn program condition (.blocked sleeping) then
                .ok
                  { state with
                    threads := (state.threads.set label.1 (.running next)).set other
                      (.woken false sleeping) }
              else .error .outOfFuel
          | _ => .error .outOfFuel
      | _, _ => .error .outOfFuel
  | some (.blocked point), .wake timedOut =>
      match program point with
      | .wait _ timed _ =>
          if timedOut = true → timed = true then
            .ok { state with threads := state.threads.set label.1 (.woken timedOut point) }
          else .error .outOfFuel
      | _ => .error .outOfFuel
  | some (.woken timedOut point), .resume =>
      match program point with
      | .wait _ _ next =>
          if state.owner = none then
            .ok
              { state with
                owner := some label.1
                threads := state.threads.set label.1 (.running (next timedOut)) }
          else .error .outOfFuel
      | _ => .error .outOfFuel
  | _, _ => .error .outOfFuel

theorem waitsOn_iff {condition : Condition} {thread : MonitorThread Point} :
    waitsOn program condition thread = true ↔ WaitsOn program condition thread := by
  cases thread with
  | blocked point =>
      simp only [waitsOn, WaitsOn]
      constructor
      · intro waits
        split at waits
        · rename_i waited timed next op
          have same : waited = condition := of_decide_eq_true waits
          exact ⟨point, timed, next, rfl, same ▸ op⟩
        · contradiction
      · rintro ⟨_, timed, next, same, op⟩
        cases same
        simp [op]
  | running point => simp [waitsOn, WaitsOn]
  | woken timedOut point => simp [waitsOn, WaitsOn]

/-- What is executed is a step. -/
theorem step_of_exec {state target : Monitor Shared Point}
    {label : ℕ × MonitorAction Input Point} (success : exec program state label = .ok target) :
    Step program state label target := by
  rcases label with ⟨self, action⟩
  simp only [exec] at success
  split at success
  · rename_i point here
    split at success
    · rename_i op
      split at success
      · rename_i called
        cases success
        exact .enter here op called
      · contradiction
    · rename_i op
      split at success
      · rename_i free
        cases success
        exact .lock here op free
      · contradiction
    · rename_i op
      cases success
      exact .lockFails here op
    · rename_i op
      simp only [Outcome.bind_eq_ok, Except.ok.injEq] at success
      rcases success with ⟨⟨shared, next⟩, acts, rfl⟩
      exact .work here op acts
    · rename_i op
      cases success
      exact .wait here op
    · rename_i op
      cases success
      exact .unlock here op
    · rename_i op
      split at success
      · rename_i nobody
        cases success
        refine .signalNone here op ?_
        intro thread mem waits
        have asleep := List.all_eq_true.mp nobody thread mem
        rw [(waitsOn_iff program).mpr waits] at asleep
        contradiction
      · contradiction
    · rename_i op
      split at success
      · rename_i sleeping sleeps
        split at success
        · rename_i waits
          cases success
          rcases (waitsOn_iff program).mp waits with ⟨_, timed, resumed, same, waited⟩
          cases same
          exact .signal here op sleeps waited
        · contradiction
      · contradiction
    · contradiction
  · rename_i point timedOut here
    split at success
    · rename_i op
      split at success
      · rename_i due
        cases success
        exact .wake here op due
      · contradiction
    · contradiction
  · rename_i timedOut point here
    split at success
    · rename_i op
      split at success
      · rename_i free
        cases success
        exact .resume here op free
      · contradiction
    · contradiction
  · contradiction

end Executing

end Monitor

end Dang
