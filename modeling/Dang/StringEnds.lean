import Dang.Foundations.Run
import Dang.StringBuffer

/-!
# The zero behind a string

`string_cstr` hands out `m_bytes` for a C string, which ends at a zero byte. A new string is shorter
than its storage, which is zero behind it, and so it stays as long as a call leaves room: what
`string_assign` does not use it fills with zeros, and `string_chomp` writes one. But every function
is content with storage that is as large as the string.
-/

namespace Dang

/-- A call of one of the functions that make strings of strings. -/
inductive BuildCall
  | dup
  | change (call : StringCall)

namespace StringT

/-- The pointer to the bytes is a C string, which ends in them. -/
def Terminated (string : StringT) : Prop :=
  string.length < string.allocatedSize ∧ string.bytes[string.length]? = some 0

instance (string : StringT) : Decidable string.Terminated := inferInstanceAs (Decidable (_ ∧ _))

/-- A call that is answered, with the string it leaves. -/
def Builds (source : StringT) (call : BuildCall) (target : StringT) : Prop :=
  ∃ memory : Memory, match call with
    | .dup => source.dup memory = .ok (some target)
    | .change call => ∃ status, source.serve memory call = .ok (status, target)

/-- A call that needs no more space than was allocated. -/
def Fits (source : StringT) : BuildCall → Prop
  | .change (.reserve newSize) => newSize.toNat ≤ source.allocatedSize
  | .change (.assign str) => str.length ≤ source.allocatedSize
  | .change (.append str) => source.length + str.length ≤ source.allocatedSize
  | .change (.appendc _) => source.length + 1 ≤ source.allocatedSize
  | _ => True

/-- A call that leaves some of the space that was allocated. -/
def LeavesRoom (source : StringT) : BuildCall → Prop
  | .change (.assign str) => str.length < source.allocatedSize
  | .change (.append str) => source.length + str.length < source.allocatedSize
  | .change (.appendc _) => source.length + 1 < source.allocatedSize
  | _ => True

instance (source : StringT) : (call : BuildCall) → Decidable (source.Fits call)
  | .dup | .change (.chomp _) => inferInstanceAs (Decidable True)
  | .change (.reserve _) | .change (.assign _) | .change (.append _) | .change (.appendc _) =>
      inferInstanceAs (Decidable (_ ≤ _))

instance (source : StringT) : (call : BuildCall) → Decidable (source.LeavesRoom call)
  | .dup | .change (.reserve _) | .change (.chomp _) => inferInstanceAs (Decidable True)
  | .change (.assign _) | .change (.append _) | .change (.appendc _) =>
      inferInstanceAs (Decidable (_ < _))

/-- All bytes behind the string are zero, and there is one. -/
structure Padded (string : StringT) : Prop where
  within : string.length < string.allocatedSize
  half : string.allocatedSize ≤ 2 ^ 63
  zeros : ∀ index, string.length ≤ index → index < string.allocatedSize →
    string.bytes[index]? = some 0

variable {memory : Memory} {source target start : StringT} {bytes block : Bytes}

theorem Padded.terminated (padded : source.Padded) : source.Terminated :=
  ⟨padded.within, padded.zeros source.length (Nat.le_refl _) padded.within⟩

/-- What changes in storage of the same size. -/
theorem Padded.of_size (size : target.allocatedSize = source.allocatedSize)
    (half : source.allocatedSize ≤ 2 ^ 63) (room : target.length < source.allocatedSize)
    (zeros : ∀ index, target.length ≤ index → index < source.allocatedSize →
      target.bytes[index]? = some 0) : target.Padded := by
  refine ⟨?_, ?_, ?_⟩
  · rw [size]
    exact room
  · rw [size]
    exact half
  · rw [size]
    exact zeros

/-- What is stored behind a padded string leaves it padded, if it leaves room. -/
theorem Padded.of_stored (padded : source.Padded)
    (stored : Buffer.store source.bytes source.length block = .ok bytes)
    (room : source.length + block.length < source.allocatedSize) :
    Padded ⟨bytes, source.length + block.length⟩ := by
  refine Padded.of_size (Buffer.length_of_store stored) padded.half room ?_
  intro index least inside
  dsimp only at least ⊢
  rw [Buffer.getElem?_of_store stored, if_neg (by omega)]
  exact padded.zeros index (by omega) inside

/-- A new string is padded if `nextupow2` has a size for it. -/
theorem padded_of_alloc {initialLength : ℕ} {initialValue : Option Bytes}
    (small : initialLength < 2 ^ 63)
    (made : alloc memory initialLength initialValue = .ok (some start)) : start.Padded := by
  have larger := lt_nextupow2 small
  have half := nextupow2_le_half (show initialLength < 2 ^ 64 by omega)
  have size : allocatedSize ⟨List.replicate (nextupow2 initialLength) 0, 0⟩ =
      nextupow2 initialLength := List.length_replicate
  have blank : Padded ⟨List.replicate (nextupow2 initialLength) 0, 0⟩ := by
    refine ⟨?_, ?_, ?_⟩
    · rw [size]
      exact Nat.zero_lt_of_lt larger
    · rw [size]
      exact half
    · rw [size]
      intro index _ inside
      exact List.getElem?_replicate_of_lt inside
  rcases alloc_cases made with ⟨_, ⟨_, rfl⟩ | ⟨value, block, bytes, _, loaded, stored, rfl⟩⟩
  · exact blank
  · have long := Buffer.length_of_load loaded
    rw [← long, ← Nat.zero_add block.length]
    refine blank.of_stored stored ?_
    rw [size]
    dsimp only
    omega

/-- `string_append` stores what fits behind the string. -/
theorem appended_of_fits (half : source.allocatedSize ≤ 2 ^ 63) {str : Bytes} {status : ℤ}
    (fits : source.length + str.length ≤ source.allocatedSize)
    (success : source.append memory str = .ok (status, target)) :
    ∃ bytes, Buffer.store source.bytes source.length str = .ok bytes ∧
      target = ⟨bytes, source.length + str.length⟩ := by
  unfold append at success
  rw [if_neg (by omega), Outcome.ok_bind] at success
  rcases Outcome.bind_eq_ok.mp success with ⟨bytes, stored, result⟩
  cases result
  exact ⟨bytes, stored, by rw [sizeAdd_eq (by omega)]⟩

/-- So does `string_appendc`. -/
theorem appendedChar_of_fits (half : source.allocatedSize ≤ 2 ^ 63) {c status : ℤ}
    (fits : source.length + 1 ≤ source.allocatedSize)
    (success : source.appendc memory c = .ok (status, target)) :
    ∃ bytes, Buffer.store source.bytes source.length [charOfInt c] = .ok bytes ∧
      target = ⟨bytes, source.length + 1⟩ := by
  unfold appendc at success
  rw [sizeAdd_eq (by omega), reserve_of_le memory fits, Outcome.ok_bind] at success
  rcases Outcome.bind_eq_ok.mp success with ⟨bytes, stored, result⟩
  cases result
  exact ⟨bytes, stored, rfl⟩

/-- `string_assign` fills what it leaves with zeros. -/
theorem padded_of_assigned (half : source.allocatedSize ≤ 2 ^ 63) {str : Bytes} {status : ℤ}
    (room : str.length < source.allocatedSize)
    (success : source.assign memory str = .ok (status, target)) : target.Padded := by
  rw [assign_of_le memory (Nat.le_of_lt room)] at success
  cases success
  refine Padded.of_size (allocatedSize_assigned (Nat.le_of_lt room)) half room ?_
  intro index least inside
  dsimp only at least ⊢
  rw [List.getElem?_append_right least]
  exact List.getElem?_replicate_of_lt (by omega)

/-- `string_chomp` writes a zero where it takes a byte away. -/
theorem Padded.chomp (padded : source.Padded) {delimiter : ℤ}
    (success : source.chomp delimiter = .ok target) : target.Padded := by
  unfold StringT.chomp at success
  split at success
  case isFalse =>
    cases success
    exact padded
  case isTrue nonempty =>
    split at success
    case h_1 => cases success
    case h_2 last _ =>
      split at success
      case isFalse =>
        cases success
        exact padded
      case isTrue =>
        rcases Outcome.bind_eq_ok.mp success with ⟨bytes, stored, result⟩
        cases result
        have within := padded.within
        refine Padded.of_size (Buffer.length_of_store stored) padded.half ?_ ?_
        · dsimp only
          omega
        · intro index least inside
          dsimp only at least ⊢
          rw [Buffer.getElem?_of_store stored, List.length_singleton]
          rcases Nat.eq_or_lt_of_le least with same | beyond
          · rw [if_pos (by omega), ← same, Nat.sub_self]
            rfl
          · rw [if_neg (by omega)]
            exact padded.zeros index (by omega) inside

/-- A call that leaves room keeps a string padded. -/
theorem Padded.builds (padded : source.Padded) {call : BuildCall} (fits : source.Fits call)
    (room : source.LeavesRoom call) (builds : source.Builds call target) : target.Padded := by
  have half := padded.half
  have within := padded.within
  rcases builds with ⟨memory, made⟩
  cases call with
  | dup => exact padded_of_alloc (by omega) made
  | change call =>
      rcases made with ⟨status, served⟩
      cases call with
      | reserve newSize =>
          rw [serve, reserve_of_le memory fits] at served
          cases served
          exact padded
      | assign str => exact padded_of_assigned half room served
      | append str =>
          rcases appended_of_fits half fits served with ⟨bytes, stored, rfl⟩
          exact padded.of_stored stored room
      | appendc c =>
          rcases appendedChar_of_fits half fits served with ⟨bytes, stored, rfl⟩
          exact padded.of_stored stored room
      | chomp delimiter =>
          rcases Outcome.bind_eq_ok.mp served with ⟨after, chomped, result⟩
          cases result
          exact padded.chomp chomped

/-- A call that leaves no room leaves a string as long as its storage. -/
theorem Terminated.leavesRoom (half : source.allocatedSize ≤ 2 ^ 63) {call : BuildCall}
    (fits : source.Fits call) (builds : source.Builds call target)
    (terminated : target.Terminated) : source.LeavesRoom call := by
  have within := terminated.1
  rcases builds with ⟨memory, made⟩
  cases call with
  | dup => trivial
  | change call =>
      rcases made with ⟨status, served⟩
      cases call with
      | reserve | chomp => trivial
      | assign str =>
          rw [serve, assign_of_le memory fits] at served
          cases served
          rw [allocatedSize_assigned fits] at within
          exact within
      | append str =>
          rcases appended_of_fits half fits served with ⟨bytes, stored, rfl⟩
          rw [allocatedSize, Buffer.length_of_store stored] at within
          exact within
      | appendc c =>
          rcases appendedChar_of_fits half fits served with ⟨bytes, stored, rfl⟩
          rw [allocatedSize, Buffer.length_of_store stored] at within
          exact within

/-- Strings whose calls fit are C strings all along exactly if there was a size for the first one
and every call leaves room. -/
theorem terminated_iff_leavesRoom {memory : Memory} (initialLength : BitVec 64)
    {initialValue : Option Bytes} {start : StringT} {steps : List (BuildCall × StringT)}
    (made : alloc memory initialLength.toNat initialValue = .ok (some start))
    (run : IsRun Builds start steps) (fit : StepsMeet Fits start steps) :
    (∀ state ∈ visited start steps, state.Terminated) ↔
      initialLength.toNat < 2 ^ 63 ∧ StepsMeet LeavesRoom start steps := by
  rcases Nat.lt_or_ge initialLength.toNat (2 ^ 63) with small | large
  · rw [and_iff_right small]
    refine IsRun.forall_visited_iff _ Padded ?_ ?_ ?_ (padded_of_alloc small made)
      (run.and_meet fit)
    · intro source call target padded room builds
      exact padded.builds builds.2 room builds.1
    · intro state padded
      exact padded.terminated
    · intro source call target padded builds terminated
      exact terminated.leavesRoom padded.half builds.2 builds.1
  · -- The size that `nextupow2` has for the first string is zero.
    constructor
    · intro always
      have within := (always start (by simp [visited])).1
      rw [(alloc_eq_ok made).2.2, nextupow2_of_large large initialLength.isLt] at within
      exact absurd within (Nat.not_lt_zero _)
    · rintro ⟨small, _⟩
      omega

/-- A byte takes the place of one that is dropped, in a string with storage for two. -/
theorem terminated_iff_leavesRoom_sample :
    ∃ start : StringT, ∃ steps : List (BuildCall × StringT),
      alloc .ample (1 : BitVec 64).toNat (some (ascii "a")) = .ok (some start) ∧
        IsRun Builds start steps ∧ steps.length = 3 ∧
        ∀ state ∈ visited start steps, state.Terminated := by
  have made : alloc .ample (1 : BitVec 64).toNat (some (ascii "a")) =
      .ok (some ⟨ascii "a\x00", 1⟩) := by decide
  have run : IsRun Builds ⟨ascii "a\x00", 1⟩ [(.change (.chomp 97), ⟨ascii "\x00\x00", 0⟩),
      (.change (.appendc 98), ⟨ascii "b\x00", 1⟩), (.dup, ⟨ascii "b\x00", 1⟩)] :=
    ⟨⟨.ample, 0, by decide⟩, ⟨.ample, 0, by decide⟩, ⟨.ample, by decide⟩, trivial⟩
  refine ⟨_, _, made, run, rfl, ?_⟩
  refine (terminated_iff_leavesRoom 1 made run ?_).mpr ⟨by decide, ?_⟩
  · exact ⟨by decide, by decide, by decide, trivial⟩
  · exact ⟨by decide, by decide, by decide, trivial⟩

/-- There is storage for a second byte, but not for a zero behind it. -/
theorem not_terminated_full :
    ¬ ∀ (initialLength : BitVec 64) (initialValue : Option Bytes) (start : StringT)
        (steps : List (BuildCall × StringT)),
      alloc .ample initialLength.toNat initialValue = .ok (some start) →
        IsRun Builds start steps → StepsMeet Fits start steps →
        ∀ state ∈ visited start steps, state.Terminated := by
  intro always
  have made : alloc .ample (1 : BitVec 64).toNat (some (ascii "a")) =
      .ok (some ⟨ascii "a\x00", 1⟩) := by decide
  have full : Builds ⟨ascii "a\x00", 1⟩ (.change (.appendc 98)) ⟨ascii "ab", 2⟩ :=
    ⟨.ample, 0, by decide⟩
  have fits : Fits ⟨ascii "a\x00", 1⟩ (.change (.appendc 98)) := by decide
  have terminated := always 1 _ _ [(.change (.appendc 98), ⟨ascii "ab", 2⟩)] made
    ⟨full, trivial⟩ ⟨fits, trivial⟩ ⟨ascii "ab", 2⟩ (by simp [visited])
  exact absurd terminated (by decide)

end StringT

end Dang
