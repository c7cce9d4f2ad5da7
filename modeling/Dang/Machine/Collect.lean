import Dang.Foundations.Lineage
import Dang.Foundations.Run
import Dang.Machine.Teardown

/-!
# Collecting symbol tables

`symboltable_init`, `symboltable_destroy` and `symboltable_garbage_collect` on the
symbol tables of all threads. A table is counted once for whoever set it up, until
that is given up, and once by each table whose parent it is. The collector takes the
tables that nothing holds from the front of the registry, and stops at the first one
that is held, so that it misses those behind.
-/

namespace Dang

/-- The symbol tables in storage and their registry. -/
structure TableSystem where
  registry : Registry
  scopes : Scopes
  /-- The tables that were set up and not yet given to `symboltable_destroy`. -/
  owned : List ℕ

/-- A call; `node` is what `calloc` returns in it for the entry of the registry. -/
inductive TableCall
  | init (table node parent : ℕ)
  | destroy (table : ℕ)
  | collect (status : ℤ)
  deriving DecidableEq, Repr

/-- One call that returns. A table is set up in storage that is free, destroyed once, and freed by
its caller when it was the last reference. -/
def TableStep (source : TableSystem) (call : TableCall) (target : TableSystem) : Prop :=
  match call with
  | .init table node parent =>
      table ≠ 0 ∧ table ≠ parent ∧ source.scopes table = none ∧
      (node ≠ 0 → source.registry.nodes node = none) ∧
        source.scopes.init table parent = .ok target.scopes ∧
        target.registry =
          (if node = 0 then source.registry else source.registry.insert node table) ∧
        target.owned = table :: source.owned
  | .destroy table => table ∈ source.owned ∧ target.owned = source.owned.erase table ∧
      ∃ status scopes, source.scopes.destroy table = .ok (status, scopes) ∧
        if status = 0 then
          target.scopes = scopes.free table ∧
            Outcome.Returns (fun fuel => source.registry.remove fuel table) target.registry
        else target.scopes = scopes ∧ target.registry = source.registry
  | .collect status => target.owned = source.owned ∧
      Outcome.Returns (fun fuel => garbageCollect fuel source.registry source.scopes)
        (status, target.registry, target.scopes)

/-- How many of the tables are children of the one. -/
def Scopes.childrenIn (scopes : Scopes) (tables : List ℕ) (table : ℕ) : ℕ :=
  tables.countP fun child => (scopes child).map Scope.parent = some table

namespace TableSystem

/-- No table is set up. -/
def initial : TableSystem := ⟨.empty, fun _ => none, []⟩

/-- The table has an entry in the registry. -/
def Registered (system : TableSystem) (table : ℕ) : Prop :=
  ∃ entries, system.registry.Lists entries ∧ table ∈ entries

/-- The one table is the parent of the other. -/
def ParentOf (system : TableSystem) (child parent : ℕ) : Prop :=
  ∃ references, system.scopes child = some ⟨parent, references⟩

/-- Whoever set up the table has not given it up, or there was no storage for its entry, without
which it is never collected. -/
def Rooted (system : TableSystem) (table : ℕ) : Prop :=
  table ∈ system.owned ∨ system.scopes table ≠ none ∧ ¬system.Registered table

/-- The table, or one of those inside it, is still held. -/
def Holds (system : TableSystem) (table : ℕ) : Prop :=
  Held system.ParentOf system.Rooted table

/-- In the registry, every table behind one that is held is held as well. -/
def HeldLast (system : TableSystem) : Prop :=
  ∀ entries, system.registry.Lists entries →
    entries.Pairwise fun first second => system.Holds first → system.Holds second

/-- What collecting has to do: no registered table is left without references, the tables that
are left have lost one reference for each child that was collected, those that are collected had no
other reference, and the status says whether the registry is empty. -/
structure Collects (source target : TableSystem) (status : ℤ) : Prop where
  complete : ∀ entries, target.registry.Lists entries → ∀ entry ∈ entries,
    ∃ scope, target.scopes entry = some scope ∧ 0 < scope.references
  exact : ∃ collected : List ℕ, collected.Nodup ∧
    (∀ table ∈ collected, source.Registered table ∧ ¬target.Registered table ∧
      target.scopes table = none) ∧
    ∀ table scope, source.scopes table = some scope →
      (table ∈ collected → scope.references = source.scopes.childrenIn collected table) ∧
      (table ∉ collected → source.scopes.childrenIn collected table ≤ scope.references ∧
        target.scopes table = some
          { scope with references := scope.references - source.scopes.childrenIn collected table })
  result : status = 0 ∧ target.registry.head = 0 ∨ status = 1 ∧ target.registry.head ≠ 0

end TableSystem

/-- The references to each table are counted: one if it is owned, and one for each child. -/
structure Scopes.Counts (scopes : Scopes) (lineage : Lineage) (owned : List ℕ) : Prop where
  live : ∀ table parent, (table, parent) ∈ lineage →
    scopes table = some ⟨parent, (if table ∈ owned then 1 else 0) + lineage.children table⟩
  unused : ∀ address, address ∉ lineage.members → scopes address = none

namespace TableSystem

/-- The tables in storage are those of the lineage, and the entries some of them, each in front
of its parent. -/
structure Sound (system : TableSystem) (lineage : Lineage) (entries : List ℕ) : Prop where
  ordered : lineage.Ordered
  counts : system.scopes.Counts lineage system.owned
  lists : system.registry.Lists entries
  once : entries.Nodup
  stored : ∀ entry ∈ entries, entry ∈ lineage.members
  sequence : entries.Pairwise fun first second => (second, first) ∉ lineage
  live : ∀ table ∈ system.owned, table ∈ lineage.members
  ownedOnce : system.owned.Nodup

end TableSystem

namespace Scopes

variable {scopes : Scopes} {lineage : Lineage} {owned : List ℕ} {table parent : ℕ}

theorem Counts.live_of_mem (counts : scopes.Counts lineage owned) (mem : table ∈ lineage.members) :
    ∃ parent, (table, parent) ∈ lineage ∧ scopes table =
      some ⟨parent, (if table ∈ owned then 1 else 0) + lineage.children table⟩ := by
  rcases Lineage.mem_members.mp mem with ⟨parent, inLineage⟩
  exact ⟨parent, inLineage, counts.live table parent inLineage⟩

theorem Counts.mem_of_live (counts : scopes.Counts lineage owned) {scope : Scope}
    (live : scopes table = some scope) : (table, scope.parent) ∈ lineage ∧
      scope.references = (if table ∈ owned then 1 else 0) + lineage.children table := by
  have mem : table ∈ lineage.members := by
    by_contra absent
    rw [counts.unused table absent] at live
    cases live
  rcases counts.live_of_mem mem with ⟨parent, inLineage, same⟩
  cases live.symm.trans same
  exact ⟨inLineage, rfl⟩

/-- A table without children that is not owned is freed, and its parent is counted once less. -/
theorem Counts.remove {owned' : List ℕ} (counts : scopes.Counts lineage owned)
    (ordered : lineage.Ordered) (mem : (table, parent) ∈ lineage)
    (owners : ∀ other, other ≠ table → (other ∈ owned' ↔ other ∈ owned)) :
    ∃ dropped, scopes.dropReference parent = .ok dropped ∧
      (dropped.free table).Counts (lineage.without table) owned' := by
  have isMember : table ∈ lineage.members := Lineage.mem_members.mpr ⟨parent, mem⟩
  by_cases top : parent = 0
  · refine ⟨scopes, if_pos top, ?_, ?_⟩
    · intro other otherParent inRest
      rcases Lineage.mem_without.mp inRest with ⟨inLineage, different⟩
      have nonzero := ordered.ne_zero (Lineage.mem_members.mpr ⟨otherParent, inLineage⟩)
      have children := ordered.children_without mem other
      have notParent : parent ≠ other := fun same => nonzero (same.symm.trans top)
      rw [if_neg notParent, Nat.add_zero] at children
      rw [free, Function.update_of_ne different, counts.live other otherParent inLineage, children]
      simp only [owners other different]
    · intro address absent
      by_cases same : address = table
      · rw [same, free, Function.update_self]
      · rw [free, Function.update_of_ne same]
        apply counts.unused
        intro inLineage
        exact absent (Lineage.mem_members_without.mpr ⟨inLineage, same⟩)
  · rcases ordered.parent_mem mem top with ⟨parentMember, apart⟩
    rcases counts.live_of_mem parentMember with ⟨grandparent, parentIn, parentLive⟩
    have reading : scopes.read parent = .ok ⟨grandparent,
        (if parent ∈ owned then 1 else 0) + lineage.children parent⟩ := by
      rw [read, if_neg top, parentLive]
    refine ⟨_, by rw [dropReference, if_neg top, reading]; rfl, ?_, ?_⟩
    · intro other otherParent inRest
      rcases Lineage.mem_without.mp inRest with ⟨inLineage, different⟩
      have children := ordered.children_without mem other
      have live := counts.live other otherParent inLineage
      rw [free, Function.update_of_ne different]
      by_cases here : other = parent
      · subst here
        rw [if_pos rfl] at children
        rw [setReferences, Function.update_self, live, Option.map_some]
        simp only [owners other different, Option.some.injEq, Scope.mk.injEq, true_and]
        omega
      · rw [if_neg (Ne.symm here), Nat.add_zero] at children
        rw [setReferences, Function.update_of_ne here, live, children]
        simp only [owners other different]
    · intro address absent
      by_cases same : address = table
      · rw [same, free, Function.update_self]
      · rw [free, Function.update_of_ne same]
        apply setReferences_eq_none
        apply counts.unused
        intro inLineage
        exact absent (Lineage.mem_members_without.mpr ⟨inLineage, same⟩)

/-- The parent of a table that is set up is in storage. -/
theorem Counts.parent_mem {after : Scopes} (counts : scopes.Counts lineage owned)
    (apart : table ≠ parent) (inits : scopes.init table parent = .ok after) (some : parent ≠ 0) :
    parent ∈ lineage.members := by
  rw [init, retain, if_neg some] at inits
  rcases Outcome.bind_eq_ok.mp inits with ⟨scope, reads, _⟩
  have live := live_of_read reads
  rw [Function.update_of_ne (Ne.symm apart)] at live
  exact Lineage.mem_members.mpr ⟨_, (counts.mem_of_live live).1⟩

/-- A table that is set up is owned, and its parent is counted once more. -/
theorem Counts.init {after : Scopes} (counts : scopes.Counts lineage owned)
    (ordered : lineage.Ordered) (nonzero : table ≠ 0) (apart : table ≠ parent)
    (fresh : table ∉ lineage.members) (unowned : table ∉ owned)
    (inits : scopes.init table parent = .ok after) :
    after.Counts ((table, parent) :: lineage) (table :: owned) := by
  have noChildren : lineage.children table = 0 := by
    apply Lineage.children_eq_zero.mpr
    intro child mem
    exact fresh (ordered.parent_mem mem nonzero).1
  have started : Function.update scopes table (some ⟨parent, 1⟩) table = some ⟨parent, 1⟩ :=
    Function.update_self _ _ _
  have others : ∀ other, other ≠ table →
      Function.update scopes table (some (⟨parent, 1⟩ : Scope)) other = scopes other :=
    fun other different => Function.update_of_ne different _ _
  rw [Scopes.init] at inits
  generalize Function.update scopes table (some (⟨parent, 1⟩ : Scope)) = begun at *
  have result : after table = some ⟨parent, 1⟩ ∧ ∀ other, other ≠ table →
      after other = if parent ≠ 0 ∧ parent = other then
        (scopes other).map (fun scope => { scope with references := scope.references + 1 })
      else scopes other := by
    by_cases top : parent = 0
    · rw [retain, if_pos top] at inits
      rcases Except.ok.inj inits with rfl
      refine ⟨started, ?_⟩
      intro other different
      simp only [top, ne_eq, not_true_eq_false, false_and, if_false, others other different]
    · rw [retain, if_neg top] at inits
      rcases Outcome.bind_eq_ok.mp inits with ⟨scope, reads, same⟩
      rcases Except.ok.inj same with rfl
      have live := live_of_read reads
      refine ⟨?_, ?_⟩
      · rw [setReferences, Function.update_of_ne apart, started]
      · intro other different
        by_cases here : parent = other
        · subst here
          rw [others parent different] at live
          simp [setReferences, live, others parent different, top]
        · rw [setReferences, Function.update_of_ne (Ne.symm here), others other different]
          simp [here]
  refine ⟨?_, ?_⟩
  · intro other otherParent mem
    rw [Lineage.children_cons]
    rcases List.mem_cons.mp mem with same | inLineage
    · rcases Prod.mk.inj same with ⟨rfl, rfl⟩
      rw [result.1, noChildren, if_neg (Ne.symm apart)]
      simp
    · have isMember := Lineage.mem_members.mpr ⟨otherParent, inLineage⟩
      have different : other ≠ table := by
        rintro rfl
        exact fresh isMember
      rw [result.2 other different, counts.live other otherParent inLineage]
      by_cases here : parent = other
      · have some : parent ≠ 0 := here ▸ ordered.ne_zero isMember
        simp [here, different, here ▸ some]
        omega
      · simp [here, different]
  · intro address absent
    simp only [Lineage.members, List.map_cons, List.mem_cons, not_or] at absent
    have unused := counts.unused address absent.2
    rw [result.2 address absent.1, unused]
    simp

/-- A table that is destroyed is not owned any more, and freed if that was the last reference. -/
theorem Counts.destroy {status : ℤ} {after : Scopes} (counts : scopes.Counts lineage owned)
    (ordered : lineage.Ordered) (once : owned.Nodup) (owner : table ∈ owned)
    (destroys : scopes.destroy table = .ok (status, after)) :
    status = 0 ∧ lineage.children table = 0 ∧
        (after.free table).Counts (lineage.without table) (owned.erase table) ∨
      status = -1 ∧ after.Counts lineage (owned.erase table) := by
  rcases Outcome.bind_eq_ok.mp destroys with ⟨scope, reads, rest⟩
  rcases Outcome.bind_eq_ok.mp rest with ⟨_, _, rest⟩
  rcases counts.mem_of_live (live_of_read reads) with ⟨inLineage, counted⟩
  have owners : ∀ other, other ≠ table → (other ∈ owned.erase table ↔ other ∈ owned) :=
    fun other different => List.mem_erase_of_ne different
  rw [if_pos owner] at counted
  split_ifs at rest with last
  · rcases counts.remove ordered inLineage owners with ⟨dropped, drops, removed⟩
    rw [drops, Outcome.ok_bind] at rest
    rcases Prod.mk.inj (Except.ok.inj rest) with ⟨rfl, rfl⟩
    refine Or.inl ⟨rfl, by omega, ?_⟩
    rw [free, Function.update_idem]
    exact removed
  · rcases Prod.mk.inj (Except.ok.inj rest) with ⟨rfl, rfl⟩
    refine Or.inr ⟨rfl, ?_, ?_⟩
    · intro other parent mem
      by_cases here : other = table
      · subst here
        rw [setReferences, Function.update_self, counts.live other parent mem, Option.map_some,
          if_neg once.not_mem_erase]
        simp only [counted, Option.some.injEq, Scope.mk.injEq, true_and]
        omega
      · rw [setReferences, Function.update_of_ne here, counts.live other parent mem]
        simp only [owners other here]
    · intro address absent
      exact setReferences_eq_none _ (counts.unused address absent)

end Scopes

namespace TableSystem

namespace Sound

variable {system : TableSystem} {lineage : Lineage} {entries : List ℕ} {table : ℕ}

theorem parentOf_iff (sound : system.Sound lineage entries) (child parent : ℕ) :
    system.ParentOf child parent ↔ (child, parent) ∈ lineage := by
  constructor
  · rintro ⟨references, live⟩
    exact (sound.counts.mem_of_live live).1
  · intro mem
    exact ⟨_, sound.counts.live child parent mem⟩

theorem registered_iff (sound : system.Sound lineage entries) (table : ℕ) :
    system.Registered table ↔ table ∈ entries := by
  constructor
  · rintro ⟨others, lists, mem⟩
    exact sound.lists.unique lists ▸ mem
  · intro mem
    exact ⟨entries, sound.lists, mem⟩

theorem stored_iff (sound : system.Sound lineage entries) (table : ℕ) :
    system.scopes table ≠ none ↔ table ∈ lineage.members := by
  constructor
  · intro live
    by_contra absent
    exact live (sound.counts.unused table absent)
  · intro mem
    rcases sound.counts.live_of_mem mem with ⟨parent, _, live⟩
    simp [live]

/-- What holds a table, by the lineage and the entries. -/
theorem holds_iff (sound : system.Sound lineage entries) (table : ℕ) :
    system.Holds table ↔ Held (fun child parent => (child, parent) ∈ lineage)
      (fun root => root ∈ system.owned ∨ root ∈ lineage.members ∧ root ∉ entries) table := by
  have roots : ∀ root, system.Rooted root ↔
      root ∈ system.owned ∨ root ∈ lineage.members ∧ root ∉ entries := by
    intro root
    rw [Rooted, sound.stored_iff, sound.registered_iff]
  constructor
  · intro held
    exact held.mono (fun child parent _ => (sound.parentOf_iff child parent).mp)
      (fun root => (roots root).mp)
  · intro held
    exact held.mono (fun child parent _ => (sound.parentOf_iff child parent).mpr)
      (fun root => (roots root).mpr)

/-- A registered table that is held has a positive count. -/
theorem positive_of_holds (sound : system.Sound lineage entries) (mem : table ∈ entries)
    (holds : system.Holds table) :
    ∃ scope, system.scopes table = some scope ∧ 0 < scope.references := by
  rcases sound.counts.live_of_mem (sound.stored table mem) with ⟨parent, _, live⟩
  refine ⟨_, live, ?_⟩
  cases (sound.holds_iff table).mp holds with
  | root isRoot =>
      rcases isRoot with owned | unregistered
      · simp [owned]
      · exact absurd mem unregistered.2
  | child inLineage _ =>
      have hasChild := Lineage.children_pos.mpr ⟨_, inLineage⟩
      dsimp only
      omega

/-- If every registered table has a positive count, all are held. -/
theorem holds_of_positive (sound : system.Sound lineage entries)
    (positive : ∀ entry ∈ entries, ∃ scope, system.scopes entry = some scope ∧
      0 < scope.references) (mem : table ∈ entries) : system.Holds table := by
  apply (sound.holds_iff table).mpr
  apply sound.ordered.forall_held _ table (sound.stored table mem)
  intro member isMember
  by_cases registered : member ∈ entries
  · rcases positive member registered with ⟨scope, live, some⟩
    rw [(sound.counts.mem_of_live live).2] at some
    by_cases owned : member ∈ system.owned
    · exact Or.inl (Or.inl owned)
    · rw [if_neg owned, Nat.zero_add] at some
      exact Or.inr some
  · exact Or.inl (Or.inr ⟨isMember, registered⟩)

/-- The first table in the registry is held if its count is positive. -/
theorem holds_first {entry : ℕ} {scope : Scope} (sound : system.Sound lineage (entry :: entries))
    (live : system.scopes entry = some scope) (positive : 0 < scope.references) :
    system.Holds entry := by
  apply (sound.holds_iff entry).mpr
  rw [(sound.counts.mem_of_live live).2] at positive
  by_cases owned : entry ∈ system.owned
  · exact .root (Or.inl owned)
  · rw [if_neg owned, Nat.zero_add] at positive
    rcases Lineage.children_pos.mp positive with ⟨child, inLineage⟩
    have isMember : entry ∈ lineage.members := sound.stored entry List.mem_cons_self
    have apart := (sound.ordered.parent_mem inLineage (sound.ordered.ne_zero isMember)).2
    -- a child in the registry would be in front
    have unregistered : child ∉ entry :: entries := by
      intro mem
      rcases List.mem_cons.mp mem with same | behind
      · exact apart same.symm
      · exact (List.pairwise_cons.mp sound.sequence).1 child behind inLineage
    apply Held.child inLineage
    exact .root (Or.inr ⟨Lineage.mem_members.mpr ⟨entry, inLineage⟩, unregistered⟩)

/-- Collecting the first table of the registry, which nothing refers to. -/
theorem collectFirst {entry : ℕ} {scope : Scope} (sound : system.Sound lineage (entry :: entries))
    (live : system.scopes entry = some scope) (dead : scope.references = 0) :
    ∃ next dropped, system.registry.nodes.read system.registry.head = .ok ⟨entry, next⟩ ∧
      system.scopes.dropReference scope.parent = .ok dropped ∧
      entry ∉ system.owned ∧ lineage.children entry = 0 ∧
      Sound ⟨⟨next, Function.update system.registry.nodes system.registry.head none⟩,
        dropped.free entry, system.owned⟩ (lineage.without entry) entries := by
  rcases sound.counts.mem_of_live live with ⟨inLineage, counted⟩
  have owned : entry ∉ system.owned := by
    intro mem
    rw [if_pos mem] at counted
    omega
  have childless : lineage.children entry = 0 := by
    omega
  rcases sound.lists.tail with ⟨_, next, reads, lists⟩
  rcases sound.counts.remove sound.ordered inLineage (fun _ _ => Iff.rfl) with
    ⟨dropped, drops, counts⟩
  rcases List.nodup_cons.mp sound.once with ⟨fresh, once⟩
  refine ⟨next, dropped, reads, drops, owned, childless, sound.ordered.without childless, counts,
    lists, once, ?_, ?_, ?_, sound.ownedOnce⟩
  · intro other mem
    apply Lineage.mem_members_without.mpr
    refine ⟨sound.stored other (List.mem_cons_of_mem _ mem), ?_⟩
    rintro rfl
    exact fresh mem
  · apply (List.pairwise_cons.mp sound.sequence).2.imp
    intro first second apart mem
    exact apart (Lineage.mem_without.mp mem).1
  · intro other mem
    apply Lineage.mem_members_without.mpr
    refine ⟨sound.live other mem, ?_⟩
    rintro rfl
    exact owned mem

end Sound

/-- What the collector has done: it has taken the tables in front from the registry, each of which
nothing held, and stopped at the end or at a table with a positive count. -/
structure Gathers (source after : TableSystem) (status : ℤ) (lineage : Lineage)
    (taken rest : List ℕ) : Prop where
  owned : after.owned = source.owned
  sound : after.Sound (lineage.withoutAll taken) rest
  dead : ∀ table ∈ taken, table ∉ source.owned ∧ (lineage.withoutAll taken).children table = 0
  children : ∀ table, (lineage.withoutAll taken).children table +
    lineage.childrenAmong taken table = lineage.children table
  holds : ∀ table, after.Holds table ↔ source.Holds table
  ends : status = 0 ∧ rest = [] ∨ status = 1 ∧ ∃ head tail scope, rest = head :: tail ∧
    after.scopes head = some scope ∧ 0 < scope.references

/-- Taking the first table leaves what is held. -/
theorem Sound.holds_collectFirst {system after : TableSystem} {lineage : Lineage} {entry : ℕ}
    {entries : List ℕ} (sound : system.Sound lineage (entry :: entries))
    (soundAfter : after.Sound (lineage.without entry) entries)
    (owned : after.owned = system.owned) (unowned : entry ∉ system.owned)
    (childless : lineage.children entry = 0) (table : ℕ) :
    after.Holds table ↔ system.Holds table := by
  have roots : (fun root => root ∈ after.owned ∨
      root ∈ (lineage.without entry).members ∧ root ∉ entries) =
        fun root => root ∈ system.owned ∨ root ∈ lineage.members ∧ root ∉ entry :: entries := by
    funext root
    rw [owned, Lineage.mem_members_without, List.mem_cons, not_or, and_assoc]
  have notRoot : ¬(entry ∈ system.owned ∨ entry ∈ lineage.members ∧ entry ∉ entry :: entries) := by
    simp [unowned]
  rw [sound.holds_iff, soundAfter.holds_iff, roots]
  exact Lineage.held_without childless notRoot

/-- The collector returns, having taken the dead tables from the front of the registry. -/
theorem Sound.garbageCollect {system : TableSystem} {lineage : Lineage} {entries : List ℕ}
    (sound : system.Sound lineage entries) :
    ∃ status after taken rest, entries = taken ++ rest ∧
      (∀ fuel, entries.length < fuel →
        Dang.garbageCollect fuel system.registry system.scopes =
          .ok (status, after.registry, after.scopes)) ∧
      system.Gathers after status lineage taken rest := by
  induction entries generalizing system lineage with
  | nil =>
      have empty := sound.lists.head_eq_zero_iff.mpr rfl
      refine ⟨0, system, [], [], rfl, ?_, rfl, ?_, by simp, ?_, fun _ => Iff.rfl, Or.inl ⟨rfl, rfl⟩⟩
      · intro fuel enough
        rcases Nat.exists_eq_add_of_lt enough with ⟨more, rfl⟩
        simp [Dang.garbageCollect, empty]
      · rw [Lineage.withoutAll_nil]
        exact sound
      · intro table
        simp [Lineage.withoutAll_nil, Lineage.childrenAmong]
  | cons entry entries ih =>
      rcases sound.lists.tail with ⟨nonempty, next, reads, _⟩
      have isMember : entry ∈ lineage.members := sound.stored entry List.mem_cons_self
      have nonzero := sound.ordered.ne_zero isMember
      rcases sound.counts.live_of_mem isMember with ⟨parent, inLineage, live⟩
      have reading : system.scopes.read entry = .ok ⟨parent,
          (if entry ∈ system.owned then 1 else 0) + lineage.children entry⟩ := by
        rw [Scopes.read, if_neg nonzero, live]
      by_cases positive : 0 < (if entry ∈ system.owned then 1 else 0) + lineage.children entry
      · refine ⟨1, system, [], entry :: entries, rfl, ?_, rfl, ?_, by simp, ?_, fun _ => Iff.rfl,
          Or.inr ⟨rfl, entry, entries, _, rfl, live, positive⟩⟩
        · intro fuel enough
          rcases Nat.exists_eq_add_of_lt enough with ⟨more, rfl⟩
          simp [Dang.garbageCollect, nonempty, reads, reading, positive]
        · rw [Lineage.withoutAll_nil]
          exact sound
        · intro table
          simp [Lineage.withoutAll_nil, Lineage.childrenAmong]
      · rcases sound.collectFirst live (Nat.eq_zero_of_not_pos positive) with
          ⟨next', dropped, reads', drops, unowned, childless, soundAfter⟩
        rcases ih soundAfter with ⟨status, after, taken, rest, split, returns, gathers⟩
        have absent : entry ∉ taken := by
          intro mem
          apply (List.nodup_cons.mp sound.once).1
          rw [split]
          exact List.mem_append_left _ mem
        have whole := Lineage.withoutAll_cons lineage entry taken
        refine ⟨status, after, entry :: taken, rest, by rw [split, List.cons_append], ?_,
          gathers.owned, whole ▸ gathers.sound, ?_, ?_, ?_, gathers.ends⟩
        · intro fuel enough
          rcases Nat.exists_eq_add_of_lt enough with ⟨more, rfl⟩
          have later := returns ((entry :: entries).length + more) (by
            simp only [List.length_cons]
            omega)
          simp only [Dang.garbageCollect, nonempty, if_false, reads', Outcome.ok_bind, reading,
            positive, drops]
          exact later
        · intro table mem
          rw [← whole]
          rcases List.mem_cons.mp mem with rfl | later
          · refine ⟨unowned, Nat.eq_zero_of_le_zero ?_⟩
            have atMost := Lineage.children_withoutAll_le (lineage.without table) taken table
            have before := sound.ordered.children_without inLineage table
            omega
          · exact gathers.dead table later
        · intro table
          have among := sound.ordered.childrenAmong_cons inLineage absent table
          have apart := sound.ordered.children_without inLineage table
          have later := gathers.children table
          rw [← whole, among]
          omega
        · intro table
          rw [gathers.holds]
          exact sound.holds_collectFirst soundAfter rfl unowned childless table

section Steps

variable {source target : TableSystem} {lineage : Lineage} {entries : List ℕ} {table : ℕ}

/-- Setting up a table puts it in front of the others. -/
theorem Sound.init {node parent : ℕ} (sound : source.Sound lineage entries)
    (step : TableStep source (.init table node parent) target) :
    target.Sound ((table, parent) :: lineage) (if node = 0 then entries else table :: entries) := by
  rcases step with ⟨nonzero, apart, unused, nodeUnused, inits, registry, owned⟩
  have fresh : table ∉ lineage.members := fun mem =>
    (sound.stored_iff table).mpr mem unused
  have unowned : table ∉ source.owned := fun mem => fresh (sound.live table mem)
  have unregistered : table ∉ entries := fun mem => fresh (sound.stored table mem)
  have isMember : table ∈ Lineage.members ((table, parent) :: lineage) := List.mem_cons_self
  have stillMember : ∀ other ∈ lineage.members,
      other ∈ Lineage.members ((table, parent) :: lineage) :=
    fun other mem => List.mem_cons_of_mem _ mem
  have sequence : entries.Pairwise fun first second =>
      (second, first) ∉ (table, parent) :: lineage := by
    apply sound.sequence.imp_of_mem
    intro first second _ inEntries behind mem
    rcases List.mem_cons.mp mem with same | inLineage
    · exact unregistered ((Prod.mk.inj same).1 ▸ inEntries)
    · exact behind inLineage
  refine ⟨⟨nonzero, fresh, sound.counts.parent_mem apart inits, sound.ordered⟩, ?_, ?_, ?_, ?_, ?_,
    ?_, ?_⟩
  · rw [owned]
    exact sound.counts.init sound.ordered nonzero apart fresh unowned inits
  · rw [registry]
    split_ifs with null
    · exact sound.lists
    · exact sound.lists.insert null (nodeUnused null) table
  · split_ifs
    · exact sound.once
    · exact List.nodup_cons.mpr ⟨unregistered, sound.once⟩
  · intro entry mem
    split_ifs at mem
    · exact stillMember entry (sound.stored entry mem)
    · rcases List.mem_cons.mp mem with rfl | later
      · exact isMember
      · exact stillMember entry (sound.stored entry later)
  · split_ifs
    · exact sequence
    · refine List.pairwise_cons.mpr ⟨?_, sequence⟩
      intro second inEntries mem
      rcases List.mem_cons.mp mem with same | inLineage
      · exact unregistered ((Prod.mk.inj same).1 ▸ inEntries)
      · exact fresh (sound.ordered.parent_mem inLineage nonzero).1
  · intro other mem
    rw [owned] at mem
    rcases List.mem_cons.mp mem with rfl | later
    · exact isMember
    · exact stillMember other (sound.live other later)
  · rw [owned]
    exact List.nodup_cons.mpr ⟨unowned, sound.ownedOnce⟩

/-- Destroying a table takes it out, or gives up a reference to it. -/
theorem Sound.destroy (sound : source.Sound lineage entries)
    (step : TableStep source (.destroy table) target) :
    ∃ lineage' entries', target.Sound lineage' entries' := by
  rcases step with ⟨owner, owned, status, scopes, destroys, rest⟩
  have ownedOnce : target.owned.Nodup := owned ▸ sound.ownedOnce.erase table
  rcases sound.counts.destroy sound.ordered sound.ownedOnce owner destroys with
    ⟨rfl, childless, counts⟩ | ⟨rfl, counts⟩
  · rw [if_pos rfl] at rest
    rcases rest with ⟨freed, removes⟩
    refine ⟨lineage.without table, entries.erase table, sound.ordered.without childless, ?_,
      sound.lists.of_remove_returns sound.once removes, sound.once.erase table, ?_, ?_, ?_,
      ownedOnce⟩
    · rw [freed, owned]
      exact counts
    · intro entry mem
      rcases sound.once.mem_erase_iff.mp mem with ⟨different, inEntries⟩
      exact Lineage.mem_members_without.mpr ⟨sound.stored entry inEntries, different⟩
    · apply (sound.sequence.sublist List.erase_sublist).imp
      intro first second behind mem
      exact behind (Lineage.mem_without.mp mem).1
    · intro other mem
      rw [owned] at mem
      rcases sound.ownedOnce.mem_erase_iff.mp mem with ⟨different, inOwned⟩
      exact Lineage.mem_members_without.mpr ⟨sound.live other inOwned, different⟩
  · have failed : ¬(-1 : ℤ) = 0 := by decide
    rw [if_neg failed] at rest
    rcases rest with ⟨same, kept⟩
    refine ⟨lineage, entries, sound.ordered, ?_, ?_, sound.once, sound.stored, sound.sequence, ?_,
      ownedOnce⟩
    · rw [same, owned]
      exact counts
    · rw [kept]
      exact sound.lists
    · intro other mem
      rw [owned] at mem
      exact sound.live other (List.mem_of_mem_erase mem)

/-- The collector, as a step, does what its loop does. -/
theorem Sound.gathers {status : ℤ} (sound : source.Sound lineage entries)
    (step : TableStep source (.collect status) target) :
    ∃ taken rest, entries = taken ++ rest ∧ source.Gathers target status lineage taken rest := by
  rcases step with ⟨owned, least, returns⟩
  rcases sound.garbageCollect with ⟨status', after, taken, rest, split, collects, gathers⟩
  have same := (returns (least + entries.length + 1) (by omega)).symm.trans
    (collects _ (by omega))
  simp only [Except.ok.injEq, Prod.mk.injEq] at same
  rcases same with ⟨rfl, registry, scopes⟩
  have whole : after = target := by
    rcases after with ⟨registry', scopes', owned'⟩
    rcases target with ⟨registry'', scopes'', owned''⟩
    have kept := gathers.owned
    simp only at registry scopes owned kept
    rw [registry, scopes, owned, kept]
  exact ⟨taken, rest, split, whole ▸ gathers⟩

/-- Every call keeps the tables sound. -/
theorem Sound.step {call : TableCall} (sound : ∃ lineage entries, source.Sound lineage entries)
    (step : TableStep source call target) : ∃ lineage entries, target.Sound lineage entries := by
  rcases sound with ⟨lineage, entries, sound⟩
  cases call with
  | init table node parent => exact ⟨_, _, sound.init step⟩
  | destroy table => exact sound.destroy step
  | collect status =>
      rcases sound.gathers step with ⟨taken, rest, _, gathers⟩
      exact ⟨_, _, gathers.sound⟩

end Steps

theorem sound_initial : initial.Sound [] [] where
  ordered := trivial
  counts := ⟨by simp, fun _ _ => rfl⟩
  lists := Registry.empty_lists
  once := List.nodup_nil
  stored := by simp
  sequence := List.Pairwise.nil
  live := by simp [initial]
  ownedOnce := List.nodup_nil

section Result

variable {source target : TableSystem} {status : ℤ} {lineage : Lineage} {taken rest : List ℕ}

/-- The tables that the collector takes were not held. -/
theorem Gathers.not_holds (gathers : source.Gathers target status lineage taken rest) {table : ℕ}
    (mem : table ∈ taken) : ¬source.Holds table := by
  rw [← gathers.holds, gathers.sound.holds_iff]
  rcases gathers.dead table mem with ⟨unowned, childless⟩
  intro held
  cases held with
  | root isRoot =>
      rcases isRoot with owned | ⟨isMember, _⟩
      · exact unowned (gathers.owned ▸ owned)
      · exact (Lineage.mem_members_withoutAll.mp isMember).2 mem
  | child inLineage _ => exact Lineage.children_eq_zero.mp childless _ inLineage

/-- No registered table is left without references if and only if every table behind one that is
held is held as well. -/
theorem Gathers.complete_iff (gathers : source.Gathers target status lineage taken rest)
    (sound : source.Sound lineage (taken ++ rest)) :
    (∀ entries, target.registry.Lists entries → ∀ entry ∈ entries,
      ∃ scope, target.scopes entry = some scope ∧ 0 < scope.references) ↔ source.HeldLast := by
  constructor
  · intro complete entries lists
    have positive := complete rest gathers.sound.lists
    have held : ∀ entry ∈ rest, source.Holds entry := fun entry mem =>
      (gathers.holds entry).mp (gathers.sound.holds_of_positive positive mem)
    rw [← sound.lists.unique lists, List.pairwise_append]
    refine ⟨?_, ?_, fun _ _ second mem _ => held second mem⟩
    · apply List.pairwise_of_forall_mem_list
      intro first mem second _ holds
      exact absurd holds (gathers.not_holds mem)
    · apply List.pairwise_of_forall_mem_list
      intro _ _ second mem _
      exact held second mem
  · intro heldLast entries lists entry mem
    rw [← gathers.sound.lists.unique lists] at mem
    apply gathers.sound.positive_of_holds mem
    rw [gathers.holds]
    rcases gathers.ends with ⟨_, rfl⟩ | ⟨_, head, tail, scope, rfl, live, positive⟩
    · cases mem
    · have first := (gathers.holds head).mp (gathers.sound.holds_first live positive)
      have behind := (List.pairwise_append.mp (heldLast _ sound.lists)).2.1
      rcases List.mem_cons.mp mem with rfl | later
      · exact first
      · exact (List.pairwise_cons.mp behind).1 entry later first

/-- The tables that are left have lost the references of the children that were collected. -/
theorem Gathers.exact (gathers : source.Gathers target status lineage taken rest)
    (sound : source.Sound lineage (taken ++ rest)) {table : ℕ} {scope : Scope}
    (live : source.scopes table = some scope) :
    (table ∈ taken → scope.references = source.scopes.childrenIn taken table) ∧
      (table ∉ taken → source.scopes.childrenIn taken table ≤ scope.references ∧
        target.scopes table = some
          { scope with references := scope.references - source.scopes.childrenIn taken table }) := by
  rcases sound.counts.mem_of_live live with ⟨inLineage, counted⟩
  have among : source.scopes.childrenIn taken table = lineage.childrenAmong taken table := by
    apply List.countP_congr
    intro child _
    simp only [decide_eq_true_eq, Option.map_eq_some_iff]
    rw [← sound.parentOf_iff]
    constructor
    · rintro ⟨found, childLive, rfl⟩
      exact ⟨found.references, childLive⟩
    · rintro ⟨references, childLive⟩
      exact ⟨_, childLive, rfl⟩
  have split := gathers.children table
  rw [among, counted]
  constructor
  · intro mem
    rcases gathers.dead table mem with ⟨unowned, childless⟩
    rw [if_neg unowned]
    omega
  · intro absent
    have left : (table, scope.parent) ∈ lineage.withoutAll taken := by
      simp [Lineage.withoutAll, inLineage, absent]
    refine ⟨by omega, ?_⟩
    rw [gathers.sound.counts.live table scope.parent left, gathers.owned, Option.some.injEq,
      Scope.mk.injEq]
    exact ⟨rfl, by omega⟩

theorem Gathers.collects_iff (gathers : source.Gathers target status lineage taken rest)
    (sound : source.Sound lineage (taken ++ rest)) :
    Collects source target status ↔ source.HeldLast := by
  rw [← gathers.complete_iff sound]
  constructor
  · intro collects
    exact collects.complete
  · intro complete
    rcases List.nodup_append.mp sound.once with ⟨once, _, apart⟩
    refine ⟨complete, ⟨taken, once, ?_, fun table scope => gathers.exact sound⟩, ?_⟩
    · intro table mem
      refine ⟨(sound.registered_iff table).mpr (List.mem_append_left _ mem), ?_, ?_⟩
      · rw [gathers.sound.registered_iff]
        exact fun inRest => apart table mem table inRest rfl
      · apply gathers.sound.counts.unused
        exact fun isMember => (Lineage.mem_members_withoutAll.mp isMember).2 mem
    · rcases gathers.ends with ⟨rfl, rfl⟩ | ⟨rfl, head, tail, _, rfl, _⟩
      · exact Or.inl ⟨rfl, gathers.sound.lists.head_eq_zero_iff.mpr rfl⟩
      · refine Or.inr ⟨rfl, ?_⟩
        intro empty
        cases gathers.sound.lists.head_eq_zero_iff.mp empty

end Result

/-- In every state of every run the collector returns, and does what it has to do if and only if
in the registry every table behind one that is held is held as well. -/
theorem collects_iff_heldLast {steps : List (TableCall × TableSystem)}
    (run : IsRun TableStep initial steps) :
    ∀ system ∈ visited initial steps,
      (∃ status target, TableStep system (.collect status) target) ∧
        ∀ status target, TableStep system (.collect status) target →
          (Collects system target status ↔ system.HeldLast) := by
  intro system visits
  have reached : ∃ lineage entries, system.Sound lineage entries := by
    apply IsRun.forall_visited TableStep (fun _ _ => True)
      (fun system => ∃ lineage entries, system.Sound lineage entries)
      (fun source call target sound _ step => Sound.step sound step)
      ⟨[], [], sound_initial⟩ run (StepsMeet.of_forall fun _ _ => trivial) system visits
  rcases reached with ⟨lineage, entries, sound⟩
  refine ⟨?_, ?_⟩
  · rcases sound.garbageCollect with ⟨status, after, taken, rest, _, collects, gathers⟩
    exact ⟨status, after, gathers.owned, entries.length + 1, fun fuel enough => collects fuel enough⟩
  · intro status target step
    rcases sound.gathers step with ⟨taken, rest, rfl, gathers⟩
    exact gathers.collects_iff sound

section Sample

/-- The tables after `symboltable_init` of a table that is registered at a node. -/
def withTable (system : TableSystem) (table node parent : ℕ) : TableSystem where
  registry := system.registry.insert node table
  scopes := (system.scopes.init table parent).toOption.getD system.scopes
  owned := table :: system.owned

/-- A table at 100, and one at 200 inside it. -/
def nested : TableSystem := (initial.withTable 100 1 0).withTable 200 2 100

/-- The outer table is given up, while it is referenced. -/
def outerEnded : TableSystem where
  registry := nested.registry
  scopes := nested.scopes.setReferences 100 1
  owned := [200]

/-- The inner table is destroyed as well, and nothing refers to the outer one any more. -/
def bothEnded : TableSystem where
  registry := (nested.registry.remove 3 200).toOption.getD nested.registry
  scopes := ((outerEnded.scopes.destroy 200).toOption.getD (0, outerEnded.scopes)).2.free 200
  owned := []

def endedSteps : List (TableCall × TableSystem) :=
  [(.init 100 1 0, initial.withTable 100 1 0), (.init 200 2 100, nested),
    (.destroy 100, outerEnded), (.destroy 200, bothEnded)]

theorem endedSteps_isRun : IsRun TableStep initial endedSteps := by
  refine ⟨⟨by decide, by decide, rfl, fun _ => rfl, rfl, rfl, rfl⟩,
    ⟨by decide, by decide, rfl, fun _ => rfl, rfl, rfl, rfl⟩,
    ⟨by decide, rfl, -1, _, rfl, rfl, rfl⟩, ⟨by decide, rfl, 0, _, rfl, rfl, 3, ?_⟩, trivial⟩
  intro fuel enough
  rcases Nat.exists_eq_add_of_le' enough with ⟨more, rfl⟩
  rfl

theorem collects_iff_heldLast_ended :
    IsRun TableStep initial endedSteps ∧ ∀ system ∈ visited initial endedSteps,
      (∃ status target, TableStep system (.collect status) target) ∧
        ∀ status target, TableStep system (.collect status) target →
          (Collects system target status ↔ system.HeldLast) :=
  ⟨endedSteps_isRun, collects_iff_heldLast endedSteps_isRun⟩

/-- A new table in front of one that nothing refers to. -/
def fresh : TableSystem := bothEnded.withTable 300 3 0

/-- The collector stops at the new table, and leaves the one behind it. -/
theorem not_collects_behind :
    IsRun TableStep initial (endedSteps ++ [(.init 300 3 0, fresh)]) ∧
      TableStep fresh (.collect 1) fresh ∧ ¬Collects fresh fresh 1 := by
  refine ⟨?_, ⟨rfl, 1, ?_⟩, ?_⟩
  · rcases endedSteps_isRun with ⟨first, second, third, fourth, _⟩
    exact ⟨first, second, third, fourth,
      ⟨by decide, by decide, rfl, fun _ => rfl, rfl, rfl, rfl⟩, trivial⟩
  · intro fuel enough
    rcases Nat.exists_eq_add_of_le' enough with ⟨more, rfl⟩
    rfl
  · intro collects
    have lists : fresh.registry.Lists [300, 100] :=
      ⟨[(3, 300), (1, 100)], ⟨rfl, by decide, 1, rfl, rfl, by decide, 0, rfl, rfl⟩, by decide, rfl⟩
    rcases collects.complete _ lists 100 (by decide) with ⟨scope, live, positive⟩
    have unreferenced : fresh.scopes 100 = some ⟨0, 0⟩ := rfl
    cases unreferenced.symm.trans live
    exact absurd positive (by decide)

end Sample

end TableSystem

end Dang
