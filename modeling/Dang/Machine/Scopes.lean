import Dang.Foundations.Outcome
import Mathlib.Data.Int.Notation
import Mathlib.Data.Nat.Notation
import Mathlib.Logic.Function.Basic
import Mathlib.Data.List.Basic

/-!
# Scopes

The lifetimes of symbol tables: how `symboltable_init` and `symboltable_destroy`
count references to a table, and which references a context and its return stack
hold. Addresses are natural numbers, with zero for the null pointer. The symbols
of a table play no part in its lifetime, and a count of references, each of which
is held in storage, does not overflow.

`Counted` says that the counts are right: the tables from the current one up are
linked in a chain, and each is referenced once for its own scope, once by the
scope inside it, and once by each saved state that returns to it.
-/

namespace Dang

/-- `symboltable_t`, without its symbols. -/
structure Scope where
  parent : ℕ
  references : ℕ
  deriving DecidableEq, Repr

/-- The symbol tables in storage, at their addresses. -/
abbrev Scopes := ℕ → Option Scope

namespace Scopes

/-- Following a pointer to a symbol table. -/
def read (scopes : Scopes) (address : ℕ) : Outcome Scope :=
  if address = 0 then .error .nullPointer
  else
    match scopes address with
    | some scope => .ok scope
    | none => .error .invalidAccess

/-- The table at an address with another count of references. -/
def setReferences (scopes : Scopes) (address references : ℕ) : Scopes :=
  Function.update scopes address ((scopes address).map fun scope =>
    { scope with references := references })

/-- `if (table != NULL) ++table->m_references` -/
def retain (scopes : Scopes) (address : ℕ) : Outcome Scopes :=
  if address = 0 then .ok scopes
  else do
    let scope ← scopes.read address
    .ok (scopes.setReferences address (scope.references + 1))

/-- `if (table != NULL) --table->m_references` -/
def dropReference (scopes : Scopes) (address : ℕ) : Outcome Scopes :=
  if address = 0 then .ok scopes
  else do
    let scope ← scopes.read address
    .ok (scopes.setReferences address (scope.references - 1))

/-- `symboltable_init` of storage at an address. -/
def init (scopes : Scopes) (address parent : ℕ) : Outcome Scopes :=
  Scopes.retain (Function.update scopes address (some ⟨parent, 1⟩)) parent

/-- `symboltable_destroy` -/
def destroy (scopes : Scopes) (address : ℕ) : Outcome (ℤ × Scopes) := do
  let scope ← scopes.read address
  Outcome.assertThat (0 < scope.references)
  if scope.references = 1 then do
    let scopes ← scopes.dropReference scope.parent
    .ok (0, Function.update scopes address (some ⟨0, 0⟩))
  else .ok (-1, scopes.setReferences address (scope.references - 1))

/-- `if (table != NULL) symboltable_destroy(table)`, as for a saved state. -/
def release (scopes : Scopes) (address : ℕ) : Outcome Scopes :=
  if address = 0 then .ok scopes
  else do
    let (_, scopes) ← scopes.destroy address
    .ok scopes

/-- `free` of a symbol table. -/
def free (scopes : Scopes) (address : ℕ) : Scopes := Function.update scopes address none

end Scopes

namespace Scopes

variable {scopes after : Scopes} {address other : ℕ}

theorem setReferences_eq_none (references : ℕ) (unused : scopes other = none) :
    scopes.setReferences address references other = none := by
  by_cases same : other = address
  · subst same
    simp [setReferences, unused]
  · rw [setReferences, Function.update_of_ne same, unused]

theorem live_of_read {scope : Scope} (success : scopes.read address = .ok scope) :
    scopes address = some scope := by
  unfold read at success
  split at success
  case isTrue => contradiction
  case isFalse =>
    split at success
    case h_1 live => exact Except.ok.inj success ▸ live
    case h_2 => contradiction

theorem ne_none_of_read {scope : Scope} (success : scopes.read address = .ok scope) :
    scopes address ≠ none := by
  simp [live_of_read success]

/-- Counting a reference sets up no table. -/
theorem retain_eq_none (success : scopes.retain address = .ok after)
    (unused : scopes other = none) : after other = none := by
  unfold retain at success
  split at success
  case isTrue => exact Except.ok.inj success ▸ unused
  case isFalse =>
    rcases Outcome.bind_eq_ok.mp success with ⟨scope, _, changed⟩
    exact Except.ok.inj changed ▸ setReferences_eq_none _ unused

theorem dropReference_eq_none (success : scopes.dropReference address = .ok after)
    (unused : scopes other = none) : after other = none := by
  unfold dropReference at success
  split at success
  case isTrue => exact Except.ok.inj success ▸ unused
  case isFalse =>
    rcases Outcome.bind_eq_ok.mp success with ⟨scope, _, changed⟩
    exact Except.ok.inj changed ▸ setReferences_eq_none _ unused

/-- Destroying a table sets up no table. -/
theorem destroy_eq_none {status : ℤ} (success : scopes.destroy address = .ok (status, after))
    (unused : scopes other = none) : after other = none := by
  rcases Outcome.bind_eq_ok.mp success with ⟨scope, read, destroys⟩
  rcases Outcome.bind_eq_ok.mp destroys with ⟨_, _, destroys⟩
  split at destroys
  case isTrue =>
    rcases Outcome.bind_eq_ok.mp destroys with ⟨dropped, drops, same⟩
    simp only [Except.ok.injEq, Prod.mk.injEq] at same
    rcases same with ⟨_, rfl⟩
    have apart : other ≠ address := by
      rintro rfl
      exact ne_none_of_read read unused
    rw [Function.update_of_ne apart]
    exact dropReference_eq_none drops unused
  case isFalse =>
    simp only [Except.ok.injEq, Prod.mk.injEq] at destroys
    rcases destroys with ⟨_, rfl⟩
    exact setReferences_eq_none _ unused

/-- Giving a reference back sets up no table. -/
theorem release_eq_none (success : scopes.release address = .ok after)
    (unused : scopes other = none) : after other = none := by
  unfold release at success
  split at success
  case isTrue => exact Except.ok.inj success ▸ unused
  case isFalse =>
    rcases Outcome.bind_eq_ok.mp success with ⟨⟨status, destroyed⟩, destroys, same⟩
    rcases Except.ok.inj same with rfl
    exact destroy_eq_none destroys unused

theorem free_eq_none (unused : scopes other = none) : scopes.free address other = none := by
  by_cases same : other = address
  · rw [same, free, Function.update_self]
  · rw [free, Function.update_of_ne same, unused]

/-- A table is destroyed, or nothing refers to it. -/
def Gone (scopes : Scopes) (address : ℕ) : Prop :=
  ∀ scope, scopes address = some scope → scope.references = 0

theorem gone_of_eq_none (unused : scopes address = none) : scopes.Gone address := by
  intro scope live
  rw [unused] at live
  contradiction

theorem gone_update {change : Option Scope} (gone : scopes.Gone other)
    (changed : ∀ scope, change = some scope → scope.references = 0) :
    Scopes.Gone (Function.update scopes address change) other := by
  intro scope live
  by_cases same : other = address
  · rw [same, Function.update_self] at live
    exact changed scope live
  · rw [Function.update_of_ne same] at live
    exact gone scope live

theorem gone_free (gone : scopes.Gone other) : (scopes.free address).Gone other :=
  gone_update gone (fun _ absurdity => by contradiction)

theorem gone_setReferences {references : ℕ} (gone : scopes.Gone other) (apart : other ≠ address) :
    (scopes.setReferences address references).Gone other := by
  intro scope live
  rw [setReferences, Function.update_of_ne apart] at live
  exact gone scope live

/-- Giving up a reference to its parent, no table that is gone comes back. -/
theorem gone_dropReference (success : scopes.dropReference address = .ok after)
    (gone : scopes.Gone other) : after.Gone other := by
  unfold dropReference at success
  split at success
  case isTrue => exact Except.ok.inj success ▸ gone
  case isFalse nonzero =>
    rcases Outcome.bind_eq_ok.mp success with ⟨scope, read, changed⟩
    rw [← Except.ok.inj changed]
    by_cases same : other = address
    · subst same
      have live := live_of_read read
      intro changed live'
      rw [setReferences, Function.update_self, live, Option.map_some, Option.some.injEq] at live'
      rw [← live', gone scope live]
    · exact gone_setReferences gone same

theorem gone_destroy {status : ℤ} (success : scopes.destroy address = .ok (status, after))
    (gone : scopes.Gone other) : after.Gone other := by
  rcases Outcome.bind_eq_ok.mp success with ⟨scope, read, destroys⟩
  rcases Outcome.bind_eq_ok.mp destroys with ⟨_, counted, destroys⟩
  have positive := Outcome.assertThat_eq_ok.mp counted
  split at destroys
  case isTrue =>
    rcases Outcome.bind_eq_ok.mp destroys with ⟨dropped, drops, same⟩
    simp only [Except.ok.injEq, Prod.mk.injEq] at same
    rcases same with ⟨_, rfl⟩
    apply gone_update (gone_dropReference drops gone)
    intro destroyed same
    rw [← Option.some.inj same]
  case isFalse =>
    simp only [Except.ok.injEq, Prod.mk.injEq] at destroys
    rcases destroys with ⟨_, rfl⟩
    apply gone_setReferences gone
    rintro rfl
    exact absurd (gone _ (live_of_read read)) (Nat.ne_of_gt positive)

theorem gone_release (success : scopes.release address = .ok after) (gone : scopes.Gone other) :
    after.Gone other := by
  unfold release at success
  split at success
  case isTrue => exact Except.ok.inj success ▸ gone
  case isFalse =>
    rcases Outcome.bind_eq_ok.mp success with ⟨⟨status, destroyed⟩, destroys, same⟩
    rcases Except.ok.inj same with rfl
    exact gone_destroy destroys gone

end Scopes

/-- The tables at which saved states return, the innermost first, each with the references
that the state counts. -/
abbrev Tops := List (ℕ × ℕ)

/-- The tables from an address up form a chain, to which the saved states return in turn. The
references that are counted for the first table, other than its own scope's and those of the
states, are `extra`. -/
inductive Counted (scopes : Scopes) : Tops → ℕ → List ℕ → ℕ → Prop
  | nil (extra : ℕ) : Counted scopes [] 0 [] extra
  | scope {tops : Tops} {address parent : ℕ} {chain : List ℕ} {extra : ℕ}
      (nonzero : address ≠ 0) (fresh : address ∉ chain)
      (live : scopes address = some ⟨parent, 1 + extra⟩)
      (outer : Counted scopes tops parent chain 1) :
      Counted scopes tops address (address :: chain) extra
  | state {tops : Tops} {address : ℕ} {chain : List ℕ} {extra : ℕ} (weight : ℕ)
      (returned : Counted scopes tops address chain (extra + weight)) :
      Counted scopes ((address, weight) :: tops) address chain extra

namespace Counted

variable {scopes : Scopes} {tops : Tops} {address : ℕ} {chain : List ℕ} {extra : ℕ}

/-- Only the tables of the chain matter. -/
theorem congr {scopes' : Scopes} (counts : Counted scopes tops address chain extra)
    (agree : ∀ member ∈ chain, scopes' member = scopes member) :
    Counted scopes' tops address chain extra := by
  induction counts with
  | nil extra => exact .nil extra
  | scope nonzero fresh live outer ih =>
      refine .scope nonzero fresh ?_ (ih fun member mem => agree member (List.mem_cons_of_mem _ mem))
      rw [agree _ List.mem_cons_self]
      exact live
  | state weight returned ih => exact .state weight (ih agree)

/-- The first table of the chain is the current one. -/
theorem chain_cases (counts : Counted scopes tops address chain extra) :
    (address = 0 ∧ chain = []) ∨ (address ≠ 0 ∧ ∃ rest, chain = address :: rest ∧ address ∉ rest) := by
  induction counts with
  | nil extra => exact Or.inl ⟨rfl, rfl⟩
  | scope nonzero fresh live outer ih => exact Or.inr ⟨nonzero, _, rfl, fresh⟩
  | state weight returned ih => exact ih

theorem ne_zero_of_mem (counts : Counted scopes tops address chain extra) {member : ℕ}
    (mem : member ∈ chain) : member ≠ 0 := by
  induction counts with
  | nil extra => simp at mem
  | scope nonzero fresh live outer ih =>
      rcases List.mem_cons.mp mem with rfl | later
      · exact nonzero
      · exact ih later
  | state weight returned ih => exact ih mem

theorem setReferences_of_ne (scopes : Scopes) {address other : ℕ} (references : ℕ)
    (apart : other ≠ address) : scopes.setReferences address references other = scopes other :=
  Function.update_of_ne apart _ _

theorem setReferences_self {parent old : ℕ} (references : ℕ)
    (live : scopes address = some ⟨parent, old⟩) :
    scopes.setReferences address references address = some ⟨parent, references⟩ := by
  simp [Scopes.setReferences, live]

/-- Changing the count of the first table changes the extra references. -/
theorem setExtra (counts : Counted scopes tops address chain extra) :
    ∃ base, 1 ≤ base ∧
      (address ≠ 0 → ∃ parent, scopes address = some ⟨parent, base + extra⟩) ∧
      ∀ other, Counted (scopes.setReferences address (base + other)) tops address chain other := by
  induction counts with
  | nil extra =>
      refine ⟨1, Nat.le_refl 1, fun nonzero => absurd rfl nonzero, fun other => .nil other⟩
  | scope nonzero fresh live outer ih =>
      refine ⟨1, Nat.le_refl 1, fun _ => ⟨_, live⟩, ?_⟩
      intro other
      refine .scope nonzero fresh (setReferences_self _ live) (outer.congr ?_)
      intro member mem
      apply setReferences_of_ne
      rintro rfl
      exact fresh mem
  | state weight returned ih =>
      rcases ih with ⟨base, positive, live, change⟩
      refine ⟨base + weight, by omega, ?_, ?_⟩
      · intro nonzero
        rcases live nonzero with ⟨parent, live⟩
        refine ⟨parent, ?_⟩
        rw [live, Nat.add_assoc, Nat.add_comm weight]
      · intro other
        apply Counted.state weight
        rw [Nat.add_assoc, Nat.add_comm weight]
        exact change (other + weight)

/-- A saved state returns to a table of the chain, or to none. -/
theorem top_mem {top weight : ℕ}
    (counts : Counted scopes ((top, weight) :: tops) address chain extra) :
    top = 0 ∨ top ∈ chain := by
  generalize same : (top, weight) :: tops = all at counts
  induction counts with
  | nil extra => contradiction
  | scope nonzero fresh live outer ih =>
      rcases ih same with zero | mem
      · exact Or.inl zero
      · exact Or.inr (List.mem_cons_of_mem _ mem)
  | state _ returned =>
      rcases List.cons.inj same with ⟨first, _⟩
      rcases Prod.mk.inj first with ⟨rfl, _⟩
      rcases returned.chain_cases with ⟨zero, _⟩ | ⟨_, rest, rfl, _⟩
      · exact Or.inl zero
      · exact Or.inr List.mem_cons_self

/-- Changing the count of the table that the innermost saved state returns to changes what the
state weighs. -/
theorem setWeight {top weight : ℕ}
    (counts : Counted scopes ((top, weight) :: tops) address chain extra) :
    ∃ base, 1 ≤ base ∧
      (top ≠ 0 → ∃ parent, scopes top = some ⟨parent, base + weight⟩) ∧
      ∀ other, Counted (scopes.setReferences top (base + other)) ((top, other) :: tops) address
        chain extra := by
  generalize same : (top, weight) :: tops = all at counts
  induction counts with
  | nil extra => contradiction
  | scope nonzero fresh live outer ih =>
      rcases ih same with ⟨base, positive, liveTop, change⟩
      refine ⟨base, positive, liveTop, ?_⟩
      intro other
      refine .scope nonzero fresh ?_ (change other)
      rw [setReferences_of_ne]
      · exact live
      · rintro rfl
        rcases top_mem (same ▸ outer) with zero | mem
        · exact nonzero zero
        · exact fresh mem
  | @state _ _ _ before _ returned =>
      rcases List.cons.inj same with ⟨first, rfl⟩
      rcases Prod.mk.inj first with ⟨rfl, rfl⟩
      rcases returned.setExtra with ⟨base, positive, live, change⟩
      refine ⟨base + before, by omega, ?_, ?_⟩
      · intro nonzero
        rcases live nonzero with ⟨parent, live⟩
        exact ⟨parent, by rw [live, Nat.add_assoc]⟩
      · intro other
        apply Counted.state other
        rw [Nat.add_assoc]
        exact change (before + other)

/-- Without a table nothing is counted. -/
theorem extra_of_zero (counts : Counted scopes tops 0 chain extra) (other : ℕ) :
    Counted scopes tops 0 chain other := by
  generalize same : 0 = address at counts
  induction counts generalizing other with
  | nil extra => exact .nil other
  | scope nonzero => exact absurd same.symm nonzero
  | state weight returned ih => exact .state weight (ih (other + weight) same)

theorem weight_of_zero {weight : ℕ}
    (counts : Counted scopes ((0, weight) :: tops) address chain extra)
    (other : ℕ) : Counted scopes ((0, other) :: tops) address chain extra := by
  generalize same : (0, weight) :: tops = all at counts
  induction counts with
  | nil extra => contradiction
  | scope nonzero fresh live outer ih => exact .scope nonzero fresh live (ih same)
  | state _ returned =>
      rcases List.cons.inj same with ⟨first, rfl⟩
      rcases Prod.mk.inj first with ⟨rfl, _⟩
      exact .state other (returned.extra_of_zero _)

theorem read_of {parent references : ℕ} (nonzero : address ≠ 0)
    (live : scopes address = some ⟨parent, references⟩) :
    scopes.read address = .ok ⟨parent, references⟩ := by
  rw [Scopes.read, if_neg nonzero, live]

theorem retain_of {parent references : ℕ} (nonzero : address ≠ 0)
    (live : scopes address = some ⟨parent, references⟩) :
    scopes.retain address = .ok (scopes.setReferences address (references + 1)) := by
  rw [Scopes.retain, if_neg nonzero, read_of nonzero live]
  rfl

theorem retain_other {after : Scopes} (success : scopes.retain address = .ok after) {other : ℕ}
    (apart : other ≠ address) : after other = scopes other := by
  unfold Scopes.retain at success
  split at success
  case isTrue => rw [Except.ok.inj success]
  case isFalse =>
    rcases Outcome.bind_eq_ok.mp success with ⟨scope, _, changed⟩
    rw [← Except.ok.inj changed]
    exact setReferences_of_ne scopes _ apart

/-- Giving a reference back that is not the last leaves the table in place. -/
theorem destroy_of {parent references : ℕ} (nonzero : address ≠ 0)
    (live : scopes address = some ⟨parent, references + 1⟩) (shared : 1 ≤ references) :
    scopes.destroy address = .ok (-1, scopes.setReferences address references) := by
  have several : references ≠ 0 := Nat.ne_of_gt shared
  rw [Scopes.destroy, read_of nonzero live, Outcome.ok_bind,
    Outcome.assertThat_of (Nat.succ_pos references)]
  simp [several]

theorem release_of {parent references : ℕ} (nonzero : address ≠ 0)
    (live : scopes address = some ⟨parent, references + 1⟩) (shared : 1 ≤ references) :
    scopes.release address = .ok (scopes.setReferences address references) := by
  rw [Scopes.release, if_neg nonzero, destroy_of nonzero live shared]
  rfl

/-- A reference to the current table is counted. -/
theorem retain_current (counts : Counted scopes tops address chain extra) :
    ∃ after, scopes.retain address = .ok after ∧
      Counted after tops address chain (extra + 1) := by
  rcases Nat.eq_zero_or_pos address with rfl | positive
  · exact ⟨scopes, if_pos rfl, counts.extra_of_zero _⟩
  · have nonzero := Nat.ne_of_gt positive
    rcases counts.setExtra with ⟨base, _, live, change⟩
    rcases live nonzero with ⟨parent, live⟩
    exact ⟨_, retain_of nonzero live, change (extra + 1)⟩

/-- A counted reference to the current table is given back. -/
theorem release_current (counts : Counted scopes tops address chain (extra + 1)) :
    ∃ after, scopes.release address = .ok after ∧ Counted after tops address chain extra := by
  rcases Nat.eq_zero_or_pos address with rfl | positive
  · exact ⟨scopes, if_pos rfl, counts.extra_of_zero _⟩
  · have nonzero := Nat.ne_of_gt positive
    rcases counts.setExtra with ⟨base, atLeast, live, change⟩
    rcases live nonzero with ⟨parent, live⟩
    exact ⟨_, release_of nonzero live (Nat.le_trans atLeast (Nat.le_add_right _ _)), change extra⟩

/-- A reference to the table that the innermost saved state returns to is counted. -/
theorem retain_top {top weight : ℕ}
    (counts : Counted scopes ((top, weight) :: tops) address chain extra) :
    ∃ after, scopes.retain top = .ok after ∧
      Counted after ((top, weight + 1) :: tops) address chain extra := by
  rcases Nat.eq_zero_or_pos top with rfl | positive
  · exact ⟨scopes, if_pos rfl, counts.weight_of_zero _⟩
  · have nonzero := Nat.ne_of_gt positive
    rcases counts.setWeight with ⟨base, _, live, change⟩
    rcases live nonzero with ⟨parent, live⟩
    exact ⟨_, retain_of nonzero live, change (weight + 1)⟩

/-- A counted reference to the table that the innermost saved state returns to is given back. -/
theorem release_top {top weight : ℕ}
    (counts : Counted scopes ((top, weight + 1) :: tops) address chain extra) :
    ∃ after, scopes.release top = .ok after ∧
      Counted after ((top, weight) :: tops) address chain extra := by
  rcases Nat.eq_zero_or_pos top with rfl | positive
  · exact ⟨scopes, if_pos rfl, counts.weight_of_zero _⟩
  · have nonzero := Nat.ne_of_gt positive
    rcases counts.setWeight with ⟨base, atLeast, live, change⟩
    rcases live nonzero with ⟨parent, live⟩
    exact ⟨_, release_of nonzero live (Nat.le_trans atLeast (Nat.le_add_right _ _)), change weight⟩

theorem live_of_mem (counts : Counted scopes tops address chain extra) {member : ℕ}
    (mem : member ∈ chain) : scopes member ≠ none := by
  induction counts with
  | nil extra => simp at mem
  | scope nonzero fresh live outer ih =>
      rcases List.mem_cons.mp mem with rfl | later
      · simp [live]
      · exact ih later
  | state weight returned ih => exact ih mem

/-- A table that is set up inside the current one becomes the current one. -/
theorem init_table (counts : Counted scopes tops address chain 0) {table : ℕ}
    (nonzero : table ≠ 0) (unused : scopes table = none) :
    ∃ after, scopes.init table address = .ok after ∧
      Counted after tops table (table :: chain) 0 := by
  have apart : table ∉ chain := fun mem => counts.live_of_mem mem unused
  have added : Counted (Function.update scopes table (some ⟨address, 1⟩)) tops address chain 0 := by
    apply counts.congr
    intro member mem
    apply Function.update_of_ne
    rintro rfl
    exact apart mem
  rcases added.retain_current with ⟨after, retained, counted⟩
  refine ⟨after, retained, .scope nonzero apart ?_ counted⟩
  have outside : table ≠ address := by
    rintro rfl
    rcases counts.chain_cases with ⟨zero, _⟩ | ⟨_, rest, rfl, _⟩
    · exact nonzero zero
    · exact apart List.mem_cons_self
  rw [retain_other retained outside]
  exact Function.update_self _ _ _

theorem drop_current (counts : Counted scopes tops address chain (extra + 1)) :
    ∃ after, scopes.dropReference address = .ok after ∧ Counted after tops address chain extra := by
  rcases Nat.eq_zero_or_pos address with rfl | positive
  · exact ⟨scopes, if_pos rfl, counts.extra_of_zero _⟩
  · have nonzero := Nat.ne_of_gt positive
    rcases counts.setExtra with ⟨base, _, live, change⟩
    rcases live nonzero with ⟨parent, live⟩
    refine ⟨scopes.setReferences address (base + extra), ?_, change extra⟩
    rw [Scopes.dropReference, if_neg nonzero, read_of nonzero live]
    rfl

/-- A state that weighs nothing can be left out. -/
theorem drop_weightless {top : ℕ}
    (counts : Counted scopes ((top, 0) :: tops) address chain extra) :
    Counted scopes tops address chain extra := by
  generalize same : (top, 0) :: tops = all at counts
  induction counts with
  | nil extra => contradiction
  | scope nonzero fresh live outer ih => exact .scope nonzero fresh live (ih same)
  | state _ returned =>
      rcases List.cons.inj same with ⟨first, rfl⟩
      rcases Prod.mk.inj first with ⟨_, rfl⟩
      exact returned

/-- A saved state is done with when its reference is given back. -/
theorem release_state {top : ℕ} (counts : Counted scopes ((top, 1) :: tops) address chain extra) :
    ∃ after, scopes.release top = .ok after ∧ Counted after tops address chain extra := by
  rcases counts.release_top with ⟨after, released, counts⟩
  exact ⟨after, released, counts.drop_weightless⟩

/-- Giving the current scope's reference back while a saved state returns to it. -/
theorem destroy_shared (counts : Counted scopes ((address, 1) :: tops) address chain 0)
    (nonzero : address ≠ 0) :
    ∃ parent references, scopes address = some ⟨parent, references + 1⟩ ∧
      scopes.destroy address = .ok (-1, scopes.setReferences address references) ∧
      Counted (scopes.setReferences address references) tops address chain 0 := by
  cases counts with
  | scope _ fresh _ outer =>
      rcases outer.top_mem with zero | mem
      · exact absurd zero nonzero
      · exact absurd mem fresh
  | state _ returned =>
      rcases returned.setExtra with ⟨base, atLeast, live, change⟩
      rcases live nonzero with ⟨parent, live⟩
      exact ⟨parent, base, live, destroy_of nonzero live atLeast, change 0⟩

/-- The current table is referenced by its own scope only, or a saved state returns to it. -/
theorem current_cases (counts : Counted scopes tops address chain 0) (nonzero : address ≠ 0) :
    (∃ parent rest, chain = address :: rest ∧ address ∉ rest ∧
        scopes address = some ⟨parent, 1⟩ ∧ Counted scopes tops parent rest 1) ∨
      ∃ weight outer, tops = (address, weight) :: outer := by
  cases counts with
  | nil extra => exact absurd rfl nonzero
  | scope _ fresh live outer => exact Or.inl ⟨_, _, rfl, fresh, live, outer⟩
  | state weight returned => exact Or.inr ⟨weight, _, rfl⟩

/-- The scope around the current one heads the rest of the chain. -/
theorem enclosing (counts : Counted scopes tops address chain extra) (nonzero : address ≠ 0) :
    ∃ parent references rest, chain = address :: rest ∧
      scopes address = some ⟨parent, references⟩ ∧
      ∃ outerTops outerExtra, Counted scopes outerTops parent rest outerExtra := by
  induction counts with
  | nil extra => exact absurd rfl nonzero
  | scope _ fresh live outer => exact ⟨_, _, _, rfl, live, _, _, outer⟩
  | state weight returned ih => exact ih nonzero

theorem eq_nil_iff (counts : Counted scopes tops address chain extra) :
    address = 0 ↔ chain = [] := by
  rcases counts.chain_cases with ⟨zero, rfl⟩ | ⟨nonzero, rest, rfl, _⟩
  · simp [zero]
  · simp [nonzero]

/-- A table in the chain is referenced. -/
theorem not_gone_of_mem (counts : Counted scopes tops address chain extra) {member : ℕ}
    (mem : member ∈ chain) : ¬ scopes.Gone member := by
  induction counts with
  | nil extra => simp at mem
  | scope nonzero fresh live outer ih =>
      rcases List.mem_cons.mp mem with rfl | later
      · intro gone
        have none := gone _ live
        simp at none
      · exact ih later
  | state weight returned ih => exact ih mem

/-- Destroying the current table, where no saved state returns to it. What becomes of its storage
does not matter to the others. -/
theorem destroy_scope {parent : ℕ} (outer : Counted scopes tops parent chain 1)
    (nonzero : address ≠ 0) (fresh : address ∉ chain)
    (live : scopes address = some ⟨parent, 1⟩) :
    ∃ after, scopes.destroy address = .ok (0, after) ∧ after.Gone address ∧
      ∀ rest : Scopes, (∀ other, other ≠ address → rest other = after other) →
        Counted rest tops parent chain 0 := by
  have read := read_of nonzero live
  rcases outer.drop_current with ⟨dropped, drops, counted⟩
  refine ⟨Function.update dropped address (some ⟨0, 0⟩), ?_, ?_, ?_⟩
  · rw [Scopes.destroy, read, Outcome.ok_bind, Outcome.assertThat_of Nat.one_pos]
    simp [drops]
  · intro scope destroyed
    rw [Function.update_self, Option.some.injEq] at destroyed
    rw [← destroyed]
  · intro rest agree
    apply counted.congr
    intro member mem
    have other : member ≠ address := by
      rintro rfl
      exact fresh mem
    rw [agree member other, Function.update_of_ne other]

/-- Ending a scope to which no saved state returns makes the one around it current, and leaves
nothing of the table behind. -/
theorem end_table {top : ℕ} (counts : Counted scopes ((top, 0) :: tops) address chain 0)
    (nonzero : address ≠ 0) (apart : address ≠ top) :
    ∃ parent rest after, chain = address :: rest ∧ scopes.read address = .ok ⟨parent, 1⟩ ∧
      scopes.destroy address = .ok (0, after) ∧
      Counted (after.free address) ((top, 0) :: tops) parent rest 0 := by
  cases counts with
  | @scope _ _ parent rest _ _ fresh live outer =>
      rcases outer.destroy_scope nonzero fresh live with ⟨after, destroyed, _, counted⟩
      refine ⟨parent, rest, after, rfl, read_of nonzero live, destroyed, counted _ ?_⟩
      intro other apart
      exact Function.update_of_ne apart _ _
  | state => exact absurd rfl apart

/-- Once the table of a saved state is current again, the state is done with. -/
theorem returned {top : ℕ} (counts : Counted scopes ((top, 0) :: tops) top chain 0) :
    Counted scopes tops top chain 0 := by
  cases counts with
  | scope nonzero fresh live outer =>
      rcases outer.top_mem with zero | mem
      · exact absurd zero nonzero
      · exact absurd mem fresh
  | state _ returned => exact returned

end Counted

end Dang
