import Mathlib.Data.Nat.Notation
import Mathlib.Tactic.Common

/-!
# Scanners

A scanner reads a list from the front in rounds, each of which leaves less of it to the next one.
So scanning ends, whatever there is to read, and what each round does settles the result.
-/

namespace Dang

/-- What one round comes to: the scanner goes on with the rest, or it has its result. -/
inductive Round (α σ τ : Type) : Type
  | more (state : σ) (rest : List α)
  | done (result : τ)

/-- A round that goes on has consumed something. -/
structure Scanner (α σ τ : Type) where
  round : σ → List α → Round α σ τ
  consumes : ∀ {state input next rest}, round state input = .more next rest →
    rest.length < input.length

namespace Scanner

variable {α σ τ : Type}

/-- Scanning with more rounds to spare than there are items. -/
def scanWithin (scanner : Scanner α σ τ) :
    (rounds : ℕ) → (state : σ) → (input : List α) → input.length < rounds → τ
  | rounds + 1, state, input, within =>
      match came : scanner.round state input with
      | .more next rest =>
          scanner.scanWithin rounds next rest
            (Nat.lt_of_lt_of_le (scanner.consumes came) (Nat.le_of_lt_succ within))
      | .done result => result

/-- Scanning to the end. -/
def scan (scanner : Scanner α σ τ) (state : σ) (input : List α) : τ :=
  scanner.scanWithin (input.length + 1) state input (Nat.lt_succ_self _)

variable {scanner : Scanner α σ τ} {state next : σ} {input rest : List α} {result : τ}

/-- How many rounds there are to spare makes no difference. -/
theorem scanWithin_eq {first second : ℕ} (within : input.length < first)
    (within' : input.length < second) :
    scanner.scanWithin first state input within = scanner.scanWithin second state input within' := by
  induction first generalizing second state input with
  | zero => exact absurd within (Nat.not_lt_zero _)
  | succ first ih =>
      cases second with
      | zero => exact absurd within' (Nat.not_lt_zero _)
      | succ second =>
          unfold scanWithin
          split
          case h_1 => exact ih _ _
          case h_2 => rfl

theorem scan_of_more (came : scanner.round state input = .more next rest) :
    scanner.scan state input = scanner.scan next rest := by
  unfold scan
  rw [scanWithin]
  split
  case h_1 came' =>
    cases came.symm.trans came'
    exact scanWithin_eq _ _
  case h_2 came' => cases came.symm.trans came'

theorem scan_of_done (came : scanner.round state input = .done result) :
    scanner.scan state input = result := by
  unfold scan
  rw [scanWithin]
  split
  case h_1 came' => cases came.symm.trans came'
  case h_2 came' =>
    cases came.symm.trans came'
    rfl

/-- The rule for what holds of scanning from any state and any input. -/
theorem induct (scanner : Scanner α σ τ) {motive : σ → List α → Prop}
    (more : ∀ {state input next rest}, scanner.round state input = .more next rest →
      motive next rest → motive state input)
    (done : ∀ {state input result}, scanner.round state input = .done result →
      motive state input) (state : σ) (input : List α) : motive state input := by
  generalize long : input.length = length
  induction length using Nat.strongRecOn generalizing state input with
  | ind length ih =>
      subst long
      cases came : scanner.round state input with
      | more next rest => exact more came (ih _ (scanner.consumes came) next rest rfl)
      | done result => exact done came

/-- An invariant of the rounds decides about the result. -/
theorem scan_of_invariant (scanner : Scanner α σ τ) (invariant : σ → Prop) (result : τ → Prop)
    (more : ∀ {state input next rest}, scanner.round state input = .more next rest →
      invariant state → invariant next)
    (done : ∀ {state input last}, scanner.round state input = .done last →
      invariant state → result last)
    (initially : invariant state) : result (scanner.scan state input) := by
  induction state, input using scanner.induct with
  | more came ih =>
      rw [scan_of_more came]
      exact ih (more came initially)
  | done came =>
      rw [scan_of_done came]
      exact done came initially

end Scanner

end Dang
