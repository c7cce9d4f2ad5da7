import Dang.Foundations.Consecutive
import Dang.Pool.FreeList
import Dang.Pool.Blocks

/-!
# Searching the free list for a block

`_POOL_FIND_FREE_SEQUENCE_UNLOCKED` counts handles up from a free one, and where it meets one in use
it goes on behind the last free one, along the free list. In a list in ascending order it meets the
runs of free handles one after the other.
-/

namespace Dang

variable {α : Type}

namespace Pool

/-- The free list is exact and in ascending order: from the head it visits each handle that is not
in use, and ends at zero, and there are as many of them as `m_free_count` says. -/
structure AscendingFreeList (pool : Pool α) (members : List ℕ) : Prop where
  chain : Chain 0 pool.nextFree pool.freeListHead members
  ascending : members.Pairwise (· < ·)
  mem_iff : ∀ handle, handle ∈ members ↔ pool.HandleValid handle ∧ ¬pool.HandleInUse handle
  length : members.length = pool.freeCount

/-- What the loop of `_POOL_FIND_FREE_SEQUENCE_UNLOCKED` has counted: nothing, and then it stands
where the free list goes on, or the handles from `sequence` on, the last of which is `prev`. -/
def Counts (pool : Pool α) (iter sequence prev found : ℕ) (back : List ℕ) : Prop :=
  found = 0 ∧ iter = sequence ∧ Chain 0 pool.nextFree iter back ∨
    0 < found ∧ iter = sequence + found ∧ prev + 1 = iter

section Search

variable {pool : Pool α} {members front back : List ℕ} {iter sequence prev found len : ℕ}

/-- Where a handle is free, the free list goes on with it. -/
theorem AscendingFreeList.back_eq (free : pool.AscendingFreeList members)
    (split : members = front ++ (List.range' sequence found ++ back))
    (counts : pool.Counts iter sequence prev found back) (mem : iter ∈ members) :
    ∃ rest, back = iter :: rest := by
  rcases counts with ⟨rfl, rfl, chain⟩ | ⟨some, rfl, _⟩
  · cases back with
    | nil =>
        have valid := ((free.mem_iff iter).mp mem).1
        have zero : iter = 0 := chain
        exact absurd valid.1 (by omega)
    | cons first rest => exact ⟨rest, by rw [chain.1]⟩
  · rcases bounds_of_split free.ascending some split with ⟨below, above⟩
    have inBack : sequence + found ∈ back := by
      rw [split] at mem
      rcases List.mem_append.mp mem with early | mem
      · have smaller := below _ early
        omega
      · rcases List.mem_append.mp mem with inside | late
        · have bounds := List.mem_range'_1.mp inside
          omega
        · exact late
    cases back with
    | nil => cases inBack
    | cons first rest =>
        have least := above first List.mem_cons_self
        rcases List.mem_cons.mp inBack with same | later
        · exact ⟨rest, by rw [same]⟩
        · have ascending := free.ascending
          rw [split, List.pairwise_append, List.pairwise_append] at ascending
          have smaller := List.rel_of_pairwise_cons ascending.2.1.2.1 later
          omega

/-- Where a handle is in use, some before it were counted. -/
theorem Counts.pos_of_not_mem (counts : pool.Counts iter sequence prev found back)
    (split : members = front ++ (List.range' sequence found ++ back))
    (valid : pool.HandleValid iter) (outside : iter ∉ members) : 0 < found := by
  rcases counts with ⟨rfl, rfl, chain⟩ | ⟨some, _⟩
  · cases back with
    | nil =>
        have zero : iter = 0 := chain
        exact absurd valid.1 (by omega)
    | cons first rest =>
        refine absurd ?_ outside
        rw [split, chain.1]
        exact List.mem_append_right front List.mem_cons_self
  · exact some

/-- Where the handles end, so does the free list. -/
theorem AscendingFreeList.back_nil (free : pool.AscendingFreeList members)
    (split : members = front ++ (List.range' sequence found ++ back))
    (counts : pool.Counts iter sequence prev found back) (invalid : ¬pool.HandleValid iter)
    (outside : iter ∉ members) : back = [] := by
  cases back with
  | nil => rfl
  | cons first rest =>
      have mem : first ∈ members := by
        rw [split]
        exact List.mem_append_right front (List.mem_append_right _ List.mem_cons_self)
      rcases counts with ⟨_, _, chain⟩ | ⟨some, same, _⟩
      · rw [chain.1] at outside
        exact absurd mem outside
      · have least := (bounds_of_split free.ascending some split).2 first List.mem_cons_self
        have valid := ((free.mem_iff first).mp mem).1
        refine absurd ⟨?_, ?_⟩ invalid
        · omega
        · exact Nat.le_trans (by omega) valid.2

/-- Where a run ends, the free list goes on behind its last handle. -/
theorem AscendingFreeList.behind (free : pool.AscendingFreeList members)
    (split : members = front ++ (List.range' sequence found ++ back))
    (counts : pool.Counts iter sequence prev found back) (some : 0 < found) :
    prev ∈ members ∧ Chain 0 pool.nextFree (pool.nextFree prev) back := by
  rcases counts with ⟨none, _⟩ | ⟨_, above, last⟩
  · omega
  · have final : prev = sequence + (found - 1) := by omega
    have concat : List.range' sequence found = List.range' sequence (found - 1) ++ [prev] := by
      rw [final, ← List.range'_1_concat, Nat.sub_add_cancel some]
    have same : members = (front ++ List.range' sequence (found - 1)) ++ prev :: back := by
      rw [split, concat]
      simp
    constructor
    · rw [same]
      exact List.mem_append_right _ List.mem_cons_self
    · have chain := free.chain
      rw [same] at chain
      exact chain.behind

/-- The loop finds the lowest run there is, if it has fuel for two rounds for each handle that is
left. -/
theorem AscendingFreeList.searchSequence (free : pool.AscendingFreeList members)
    (split : members = front ++ (List.range' sequence found ++ back))
    (counts : pool.Counts iter sequence prev found back) (short : found < len)
    (none : ∀ start ∈ front, ¬Consecutive members start len) {fuel : ℕ}
    (enough : 2 * back.length + (if found = 0 then 1 else 2) ≤ fuel) :
    ∃ start, pool.searchSequence len fuel iter sequence prev found = .ok start ∧
      LowestRun members len start := by
  induction fuel generalizing front back iter sequence prev found with
  | zero => split at enough <;> omega
  | succ fuel ih =>
      simp only [Pool.searchSequence]
      by_cases mem : iter ∈ members
      · rcases (free.mem_iff iter).mp mem with ⟨valid, unused⟩
        rw [if_pos valid, if_neg unused]
        rcases free.back_eq split counts mem with ⟨rest, rfl⟩
        have position : iter = sequence + found := by
          rcases counts with ⟨rfl, same, _⟩ | ⟨_, same, _⟩
          · exact same
          · exact same
        have longer : members = front ++ (List.range' sequence (found + 1) ++ rest) := by
          rw [split, List.range'_concat, Nat.one_mul, ← position]
          simp
        by_cases last : found + 1 = len
        · rw [if_pos last]
          refine ⟨sequence, rfl, Or.inl ⟨?_, ?_⟩⟩
          · intro i below
            rw [longer]
            have inside : sequence + i ∈ List.range' sequence (found + 1) :=
              List.mem_range'_1.mpr (by omega)
            exact List.mem_append_right front (List.mem_append_left rest inside)
          · intro other run
            have start := run.start_mem (Nat.lt_of_le_of_lt (Nat.zero_le found) short)
            by_contra before
            rw [longer] at start
            rcases List.mem_append.mp start with early | start
            · exact none other early run
            · rcases List.mem_append.mp start with inside | late
              · have bounds := List.mem_range'_1.mp inside
                omega
              · have above := (bounds_of_split free.ascending (Nat.succ_pos found) longer).2 other late
                omega
        · rw [if_neg last]
          refine ih longer ?_ (by omega) none ?_
          · exact Or.inr ⟨Nat.succ_pos found, by omega, rfl⟩
          · rw [List.length_cons] at enough
            rw [if_neg (Nat.succ_ne_zero found)]
            split at enough <;> omega
      · have ended : ∀ start ∈ front ++ List.range' sequence found,
            ¬Consecutive members start len := by
          intro start inside
          rcases List.mem_append.mp inside with early | counted
          · exact none start early
          · refine Consecutive.not_of_missing ?_ short counted
            rcases counts with ⟨rfl, _⟩ | ⟨_, same, _⟩
            · cases counted
            · rw [← same]
              exact mem
        by_cases valid : pool.HandleValid iter
        · have used : pool.HandleInUse iter := by
            by_contra unused
            exact mem ((free.mem_iff iter).mpr ⟨valid, unused⟩)
          have some : 0 < found := counts.pos_of_not_mem split valid mem
          rcases free.behind split counts some with ⟨prevMem, chain⟩
          have read := wrapper_eq_ok.mpr ⟨((free.mem_iff prev).mp prevMem).1, rfl⟩
          rw [if_neg (Nat.ne_of_gt some)] at enough
          simp only [valid, if_true, used, read, Outcome.ok_bind]
          have restart : members = (front ++ List.range' sequence found) ++
              (List.range' (pool.nextFree prev) 0 ++ back) := by
            rw [split]
            simp
          refine ih restart (Or.inl ⟨rfl, rfl, chain⟩) (by omega) ended ?_
          rw [if_pos rfl]
          omega
        · rw [if_neg valid, if_neg (Nat.not_le.mpr short)]
          refine ⟨0, rfl, Or.inr ⟨rfl, ?_⟩⟩
          intro other run
          have start := run.start_mem (Nat.lt_of_le_of_lt (Nat.zero_le found) short)
          rw [split, free.back_nil split counts valid mem, List.append_nil] at start
          exact ended other start run

/-- `_POOL_FIND_FREE_SEQUENCE_UNLOCKED` returns the lowest run, if it looks for one. -/
theorem AscendingFreeList.findFreeSequence (free : pool.AscendingFreeList members)
    (positive : 0 < len) {fuel : ℕ} (enough : 2 * members.length < fuel) :
    ∃ start, pool.findFreeSequence fuel len = .ok start ∧
      if len < members.length then LowestRun members len start else start = 0 := by
  rw [Pool.findFreeSequence, Outcome.assertThat_of positive, Outcome.ok_bind, ← free.length]
  by_cases more : len < members.length
  · rw [if_pos more]
    have begun : members = [] ++ (List.range' pool.freeListHead 0 ++ members) := rfl
    have counts : pool.Counts pool.freeListHead pool.freeListHead 0 0 members :=
      Or.inl ⟨rfl, rfl, free.chain⟩
    rcases free.searchSequence begun counts positive nofun enough with ⟨start, searched, lowest⟩
    exact ⟨start, searched, by rw [if_pos more]; exact lowest⟩
  · rw [if_neg more]
    exact ⟨0, rfl, by rw [if_neg more]⟩

/-- The walk down to a free handle ends at the last one before, or at zero. -/
theorem AscendingFreeList.skipInUse (free : pool.AscendingFreeList members) {bound : ℕ}
    (within : bound ≤ pool.allocatedCount) :
    pool.skipInUse bound ≤ bound ∧
      (pool.skipInUse bound = 0 ∨ pool.skipInUse bound ∈ members) ∧
      ∀ member ∈ members, member ≤ bound → member ≤ pool.skipInUse bound := by
  induction bound with
  | zero => exact ⟨Nat.le_refl 0, Or.inl rfl, fun _ _ below => below⟩
  | succ bound ih =>
      rw [Pool.skipInUse]
      by_cases used : pool.HandleInUse (bound + 1)
      · rw [if_pos used]
        rcases ih (Nat.le_of_succ_le within) with ⟨below, found, last⟩
        refine ⟨Nat.le_succ_of_le below, found, ?_⟩
        intro member mem least
        have apart : member ≠ bound + 1 := by
          rintro rfl
          exact ((free.mem_iff _).mp mem).2 used
        exact last member mem (by omega)
      · rw [if_neg used]
        have mem := (free.mem_iff (bound + 1)).mpr ⟨⟨Nat.succ_pos bound, within⟩, used⟩
        exact ⟨Nat.le_refl _, Or.inr mem, fun _ _ below => below⟩

/-- The handles of a list that are not in a block. -/
def remaining (members : List ℕ) (start len : ℕ) : List ℕ :=
  members.filter fun member => decide (member < start ∨ start + len ≤ member)

theorem remaining_eq (below : ∀ member ∈ front, member < sequence)
    (above : ∀ member ∈ back, sequence + len ≤ member) :
    remaining (front ++ (List.range' sequence len ++ back)) sequence len = front ++ back := by
  have before : remaining front sequence len = front := by
    apply List.filter_eq_self.mpr
    intro member mem
    exact decide_eq_true (Or.inl (below member mem))
  have behind : remaining back sequence len = back := by
    apply List.filter_eq_self.mpr
    intro member mem
    exact decide_eq_true (Or.inr (above member mem))
  have none : remaining (List.range' sequence len) sequence len = [] := by
    apply List.filter_eq_nil_iff.mpr
    intro member mem
    have bounds := List.mem_range'_1.mp mem
    rw [decide_eq_true_eq]
    omega
  unfold remaining at before behind none ⊢
  rw [List.filter_append, List.filter_append, before, behind, none, List.nil_append]

theorem nextFree_update (pool : Pool α) (handle target : ℕ) :
    (pool.update handle fun wrapper => { wrapper with nextFree := target }).nextFree =
      Function.update pool.nextFree handle target := by
  funext other
  by_cases same : other = handle
  · simp [nextFree, items_update, same]
  · simp [nextFree, items_update, same]

/-- Where the last number of an ascending list is a member, the list ends with it. -/
theorem exists_concat {last : ℕ} (ascending : front.Pairwise (· < ·)) (mem : last ∈ front)
    (greatest : ∀ member ∈ front, member ≤ last) : ∃ others, front = others ++ [last] := by
  rcases List.append_of_mem mem with ⟨others, rest, rfl⟩
  rw [List.pairwise_append] at ascending
  cases rest with
  | nil => exact ⟨others, rfl⟩
  | cons next rest =>
      have larger := List.rel_of_pairwise_cons ascending.2.1 List.mem_cons_self
      have smaller := greatest next
        (List.mem_append_right others (List.mem_cons_of_mem last List.mem_cons_self))
      omega

/-- Taking a block off the free list leaves the other handles on it. -/
theorem AscendingFreeList.unlinkSequence (free : pool.AscendingFreeList members) {start : ℕ}
    (positive : 0 < len) (run : Consecutive members start len) :
    ∃ after, pool.unlinkSequence start len = .ok after ∧
      Chain 0 after.nextFree after.freeListHead (remaining members start len) ∧
      (remaining members start len).Pairwise (· < ·) := by
  have split := run.split free.ascending
  have ascending := free.ascending.filter fun member => decide (member < start)
  generalize members.filter (· < start) = front at split ascending
  generalize members.filter (start + len ≤ ·) = back at split
  rcases bounds_of_split free.ascending positive split with ⟨below, above⟩
  have counts : pool.Counts (start + len) start (start + len - 1) len back :=
    Or.inr ⟨positive, rfl, by omega⟩
  rcases free.behind split counts positive with ⟨lastMem, chain⟩
  have startValid := ((free.mem_iff start).mp (run.start_mem positive)).1
  have read := wrapper_eq_ok.mpr ⟨((free.mem_iff _).mp lastMem).1, rfl⟩
  rcases free.skipInUse (Nat.le_trans (Nat.sub_le start 1) startValid.2) with ⟨within, found, most⟩
  have left : remaining members start len = front ++ back := by
    rw [split]
    exact remaining_eq below above
  have kept : (remaining members start len).Pairwise (· < ·) := free.ascending.filter _
  rw [left] at kept ⊢
  simp only [Pool.unlinkSequence, read, Outcome.ok_bind]
  generalize pool.skipInUse (start - 1) = prev at within found most
  by_cases head : prev = 0
  · rw [if_pos head]
    have empty : front = [] := by
      cases front with
      | nil => rfl
      | cons first rest =>
          have mem : first ∈ members := split ▸ List.mem_append_left _ List.mem_cons_self
          have valid := ((free.mem_iff first).mp mem).1.1
          have early := below first List.mem_cons_self
          have zero := most first mem (by omega)
          omega
    subst empty
    exact ⟨_, rfl, chain, kept⟩
  · rw [if_neg head]
    have prevMem := found.resolve_left head
    have inFront : prev ∈ front := by
      rw [split] at prevMem
      rcases List.mem_append.mp prevMem with inside | prevMem
      · exact inside
      · rcases List.mem_append.mp prevMem with inside | late
        · have bounds := List.mem_range'_1.mp inside
          have least := startValid.1
          omega
        · have larger := above prev late
          omega
    have greatest : ∀ member ∈ front, member ≤ prev := by
      intro member mem
      have early := below member mem
      exact most member (split ▸ List.mem_append_left _ mem) (by omega)
    rcases exists_concat ascending inFront greatest with ⟨others, rfl⟩
    refine ⟨_, modify_of ((free.mem_iff prev).mp prevMem).1, ?_, kept⟩
    have whole : members = others ++ prev :: (List.range' start len ++ back) := by
      rw [split]
      simp
    have nodup := free.ascending.imp Nat.ne_of_lt
    have chained := free.chain
    rw [whole] at nodup chained
    rw [nextFree_update, List.append_assoc]
    exact chained.unlink nodup chain

/-- In an exact free list in ascending order the search for a block ends. With more free handles
than the block has it returns the lowest run of them there is, and zero where there is none or
there are too few. Taking the block off the list leaves the other handles on it in order. -/
theorem free_run_search (free : pool.AscendingFreeList members) (positive : 0 < len) :
    ∃ start, Outcome.Returns (fun fuel => pool.findFreeSequence fuel len) start ∧
      (if len < members.length then LowestRun members len start else start = 0) ∧
      (start ≠ 0 → ∃ after, pool.unlinkSequence start len = .ok after ∧
        Chain 0 after.nextFree after.freeListHead (remaining members start len) ∧
        (remaining members start len).Pairwise (· < ·)) := by
  rcases free.findFreeSequence positive (Nat.lt_succ_self _) with ⟨start, _, lowest⟩
  refine ⟨start, ⟨2 * members.length + 1, ?_⟩, lowest, ?_⟩
  · intro fuel enough
    rcases free.findFreeSequence positive enough with ⟨other, found, alike⟩
    have same : other = start := by
      split at lowest
      case isTrue more =>
        rw [if_pos more] at alike
        exact alike.unique lowest
      case isFalse few =>
        rw [if_neg few] at alike
        rw [alike, lowest]
    rw [← same]
    exact found
  · intro nonzero
    apply free.unlinkSequence positive
    split at lowest
    case isTrue =>
      rcases lowest with ⟨run, _⟩ | ⟨zero, _⟩
      · exact run
      · exact absurd zero nonzero
    case isFalse => exact absurd lowest nonzero

end Search

/-- A pool of four items, of which the second one is in use. -/
def gapPool : Pool Unit where
  allocatedCount := 4
  count := 1
  freeCount := 3
  items handle := ⟨(), 0, none, if handle = 2 then stateInUse else if handle = 1 then 3
    else if handle = 3 then 4 else 0⟩
  freeListHead := 1

theorem gapPool_ascending : gapPool.AscendingFreeList [1, 3, 4] where
  chain := ⟨rfl, by decide, rfl, by decide, rfl, by decide, rfl⟩
  ascending := by decide
  mem_iff handle := by
    constructor
    · intro mem
      simp only [List.mem_cons, List.not_mem_nil, or_false] at mem
      rcases mem with rfl | rfl | rfl
      all_goals exact ⟨by decide, by decide⟩
    · rintro ⟨valid, unused⟩
      have apart : handle ≠ 2 := by
        rintro rfl
        exact unused rfl
      have bounds : 0 < handle ∧ handle ≤ 4 := valid
      have either : handle = 1 ∨ handle = 3 ∨ handle = 4 := by omega
      simpa using either
  length := rfl

/-- Two consecutive handles are found behind the gap. -/
theorem free_run_search_gap :
    Outcome.Returns (fun fuel => gapPool.findFreeSequence fuel 2) 3 ∧
      ∃ after, gapPool.unlinkSequence 3 2 = .ok after ∧
        Chain 0 after.nextFree after.freeListHead [1] := by
  rcases free_run_search gapPool_ascending (show 0 < 2 by decide) with ⟨start, returns, lowest, unlinks⟩
  have run : Consecutive [1, 3, 4] 3 2 := by decide
  have same : start = 3 := by
    rw [if_pos (by decide)] at lowest
    rcases lowest with ⟨found, least⟩ | ⟨_, none⟩
    · have atMost := least 3 run
      have first := found 0 (by decide)
      have second := found 1 (by decide)
      simp only [List.mem_cons, List.not_mem_nil, or_false] at first second
      omega
    · exact absurd run (none 3)
  subst same
  rcases unlinks (by decide) with ⟨after, unlinked, chain, _⟩
  exact ⟨returns, after, unlinked, chain⟩

end Pool

end Dang
