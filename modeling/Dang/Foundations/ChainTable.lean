import Mathlib.Data.List.Basic
import Mathlib.Data.Nat.Notation
import Mathlib.Tactic.Common

/-!
# Walks over a table of chains

A walk lists the items of a table's chains, one chain a round, until it has listed a
number of items. It is in order if it takes the chains one after the other. If it takes the
number of items listed so far for the index of the next chain, it lists the same items
exactly if the table is aligned: the items before each chain that is not empty are as many
as its index.
-/

namespace Dang

namespace ChainTable

variable {α κ : Type}

/-- The items that a walk lists in the rounds left, with `i` listed before, if it stays inside
the table. It ends with `n` items listed. -/
def walked (index : ℕ → ℕ → ℕ) (n : ℕ) (chains : List (List α)) : ℕ → ℕ → ℕ → Option (List α)
  | 0, _, _ => some []
  | rounds + 1, round, i =>
      if i < n then do
        let chain ← chains[index round i]?
        let others ← walked index n chains rounds (round + 1) (i + (chain.take (n - i)).length)
        some (chain.take (n - i) ++ others)
      else some []

/-- The number of items in the chains before an index. -/
def before (chains : List (List α)) (place : ℕ) : ℕ := (chains.take place).flatten.length

/-- There are as many items before each chain that is not empty as is its index. -/
def Aligned (chains : List (List α)) : Prop :=
  ∀ place chain, chains[place]? = some chain → chain ≠ [] → before chains place = place

variable {chains : List (List α)} {place : ℕ} {chain : List α}

@[simp]
theorem before_zero (chains : List (List α)) : before chains 0 = 0 := rfl

theorem before_add (chains : List (List α)) (place : ℕ) :
    before chains place + (chains.drop place).flatten.length = chains.flatten.length := by
  unfold before
  rw [← List.length_append, ← List.flatten_append, List.take_append_drop]

theorem flatten_drop (found : chains[place]? = some chain) :
    (chains.drop place).flatten = chain ++ (chains.drop (place + 1)).flatten := by
  rcases List.getElem?_eq_some_iff.mp found with ⟨inside, rfl⟩
  rw [List.drop_eq_getElem_cons inside, List.flatten_cons]

theorem before_succ (found : chains[place]? = some chain) :
    before chains (place + 1) = before chains place + chain.length := by
  have here := before_add chains place
  have next := before_add chains (place + 1)
  rw [flatten_drop found, List.length_append] at here
  omega

/-- A chain and the items before it are not more than there are. -/
theorem take_eq (found : chains[place]? = some chain) :
    chain.take (chains.flatten.length - before chains place) = chain := by
  apply List.take_of_length_le
  have here := before_add chains place
  rw [flatten_drop found, List.length_append] at here
  omega

theorem walked_done {index : ℕ → ℕ → ℕ} {n rounds round i : ℕ} (done : n ≤ i) :
    walked index n chains rounds round i = some [] := by
  cases rounds with
  | zero => rfl
  | succ rounds => rw [walked, if_neg (Nat.not_lt.mpr done)]

/-- A walk in order lists all items. -/
theorem walked_inOrder (rounds place : ℕ) (left : rounds + place = chains.length) :
    walked (fun round _ => round) chains.flatten.length chains rounds place
      (before chains place) = some (chains.drop place).flatten := by
  induction rounds generalizing place with
  | zero =>
      rw [List.drop_of_length_le (by omega)]
      rfl
  | succ rounds ih =>
      have inside : place < chains.length := by omega
      have found := List.getElem?_eq_getElem inside
      have total := before_add chains place
      by_cases more : before chains place < chains.flatten.length
      · have rest := ih (place + 1) (by omega)
        rw [before_succ found] at rest
        simp only [walked, if_pos more, found, take_eq found, Option.bind_eq_bind,
          Option.bind_some, rest]
        rw [flatten_drop found]
      · rw [walked_done (by omega)]
        symm
        apply congrArg some
        apply List.eq_nil_of_length_eq_zero
        omega

/-- A walk that takes the number of items listed for an index lists all items of an aligned
table. -/
theorem walked_of_aligned (rounds round place : ℕ) {left : ℕ} (aligned : Aligned chains)
    (length : chains.length = place + left) (enough : left ≤ rounds) :
    walked (fun _ i => i) chains.flatten.length chains rounds round (before chains place) =
      some (chains.drop place).flatten := by
  induction left generalizing place rounds round with
  | zero =>
      have total := before_add chains place
      rw [List.drop_of_length_le (by omega), List.flatten_nil] at total ⊢
      rw [walked_done]
      rw [← total]
      exact Nat.le_refl _
  | succ left ih =>
      have inside : place < chains.length := by omega
      have found := List.getElem?_eq_getElem inside
      have next := before_succ found
      rw [flatten_drop found]
      cases first : chains[place] with
      | nil =>
          simp only [first, List.length_nil, Nat.add_zero] at next
          rw [← next, List.nil_append]
          apply ih
          · omega
          · omega
      | cons item items =>
          rw [first] at found next
          have same := aligned place _ found (List.cons_ne_nil _ _)
          have whole := take_eq found
          have total := before_add chains place
          rw [flatten_drop found, List.length_append, List.length_cons] at total
          rcases Nat.exists_eq_add_one_of_ne_zero (show rounds ≠ 0 by omega) with ⟨less, rfl⟩
          have rest := ih less (round + 1) (place + 1) (by omega) (by omega)
          rw [next] at rest
          rw [same] at whole rest total ⊢
          simp only [walked, if_pos (show place < chains.flatten.length by omega), found, whole,
            Option.bind_eq_bind, Option.bind_some, rest]

/-- At an empty chain a walk that takes the number of items listed for an index is stuck. -/
theorem walked_stuck {n rounds round i : ℕ} (empty : chains[i]? = some []) :
    walked (fun _ i => i) n chains rounds round i = some [] := by
  induction rounds generalizing round with
  | zero => rfl
  | succ rounds ih => simp [walked, empty, ih]

/-- The chains from a place on are aligned if such a walk lists items with the keys of their
items there. The key of an item tells the index of its chain. -/
theorem aligned_from_of_walked (place : ℕ) {key : α → κ} (index : κ → ℕ)
    (placed : ∀ place chain item, chains[place]? = some chain → item ∈ chain →
      index (key item) = place)
    {rounds round left : ℕ} {items : List α} (length : chains.length = place + left)
    (listed : walked (fun _ i => i) chains.flatten.length chains rounds round
      (before chains place) = some items)
    (same : items.map key = (chains.drop place).flatten.map key) :
    ∀ later chain, place ≤ later → chains[later]? = some chain → chain ≠ [] →
      before chains later = later := by
  induction left generalizing place rounds round items with
  | zero =>
      intro later chain after found
      rw [List.getElem?_eq_none (by omega)] at found
      contradiction
  | succ left ih =>
      have inside : place < chains.length := by omega
      have found := List.getElem?_eq_getElem inside
      have next := before_succ found
      have total := before_add chains place
      have rest := flatten_drop found
      intro later chain after foundLater nonempty
      cases first : chains[place] with
      | nil =>
          rw [first] at found next rest
          simp only [List.length_nil, Nat.add_zero] at next
          rw [← next] at listed
          rw [rest, List.nil_append] at same
          rcases Nat.eq_or_lt_of_le after with rfl | beyond
          · rw [found] at foundLater
            cases foundLater
            contradiction
          · exact ih (place + 1) (by omega) listed same later chain beyond foundLater nonempty
      | cons item others =>
          rw [first] at found next rest
          rw [rest] at same total
          cases rounds with
          | zero =>
              cases listed
              simp at same
          | succ rounds =>
              have more : before chains place < chains.flatten.length := by
                simp only [List.length_append, List.length_cons] at total
                omega
              simp only [walked, if_pos more, Option.bind_eq_bind, Option.bind_eq_some_iff,
                Option.some.injEq] at listed
              rcases listed with ⟨taken, foundTaken, later', listed, rfl⟩
              have here : before chains place = place := by
                cases taken with
                | nil =>
                    simp only [List.take_nil, List.length_nil, Nat.add_zero,
                      walked_stuck foundTaken, Option.some.injEq] at listed
                    subst listed
                    simp at same
                | cons head tail =>
                    rw [show chains.flatten.length - before chains place =
                      chains.flatten.length - before chains place - 1 + 1 by omega] at same
                    simp only [List.take_succ_cons, List.cons_append, List.map_cons,
                      List.cons.injEq] at same
                    rw [← placed _ _ _ foundTaken List.mem_cons_self, same.1]
                    exact placed _ _ _ found List.mem_cons_self
              rw [here, found, Option.some.injEq] at foundTaken
              subst foundTaken
              have whole := take_eq found
              rw [whole] at listed same
              rw [← next] at listed
              rcases Nat.eq_or_lt_of_le after with rfl | beyond
              · exact here
              · apply ih (place + 1) (by omega) listed _ later chain beyond foundLater nonempty
                simpa using same

/-- A walk that takes the number of items listed for an index lists items with the keys of all
items, in order, only if the table is aligned. -/
theorem aligned_of_walked {key : α → κ} (index : κ → ℕ)
    (placed : ∀ place chain item, chains[place]? = some chain → item ∈ chain →
      index (key item) = place)
    {rounds round : ℕ} {items : List α}
    (listed : walked (fun _ i => i) chains.flatten.length chains rounds round 0 = some items)
    (same : items.map key = chains.flatten.map key) : Aligned chains := by
  intro place chain
  apply aligned_from_of_walked 0 index placed (Nat.zero_add _).symm listed _ place chain
    (Nat.zero_le place)
  rw [List.drop_zero]
  exact same

end ChainTable

end Dang
