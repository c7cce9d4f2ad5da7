import Dang.Machine.ValueStack
import Dang.StringBuffer

/-!
# Concatenating strings

`inst_CAT` pops strings off the data stack and appends them, the top first, to a string that is
allocated with the sum of their lengths. It never has to grow.
-/

namespace Dang

/-- `sizeof(string_t *)` -/
def sizeofPointer : ℕ := 8

/-- The loop of `inst_CAT` that appends the strings. -/
def StringT.appendAll (memory : Memory) (result : StringT) : List StringT → Outcome StringT
  | [] => .ok result
  | string :: strings => do
      let (_, result) ← result.append memory string.contents
      appendAll memory result strings

namespace ValueStack

variable (formatFloat : BitVec 64 → Bytes) (conversions : Conversions)

/-- The loop of `inst_CAT` that pops the strings and adds up their lengths, from round `i` on. Each
round asks for storage when it pops a value, and for its string value. -/
def popStrings (memory : ℕ → Memory) (i len : ℕ) (stack : ValueStack) :
    ℕ → Outcome (List StringT × ℕ × ValueStack)
  | 0 => .ok ([], len, stack)
  | rounds + 1 => do
      let (tmp, stack) ← stack.vmDsPop (memory (2 * i))
      match ← tmp.getStringValue formatFloat (memory (2 * i + 1)) with
      | none => .error .nullPointer
      | some string => do
          let (strings, len, stack) ←
            popStrings memory (i + 1) (sizeAdd len string.length) stack rounds
          .ok (string :: strings, len, stack)

/-- What `inst_CAT` makes of the number of strings. It allocates the list of them, the result,
which `string_append` may make larger, a copy of it, and before that the strings. -/
def catStrings (memory : ℕ → Memory) (n : ℕ) (stack : ValueStack) : Outcome (Value × ValueStack) :=
  if 0 < n then
    if (memory 0).calloc n sizeofPointer then do
      let (strings, len, stack) ← stack.popStrings formatFloat (fun i => memory (i + 6)) 0 0 n
      match ← StringT.alloc (memory 1) len none with
      | none => .error .assertion
      | some result => do
          let result ← result.appendAll (memory 2) strings
          match ← StringT.alloc (memory 3) result.length (some result.contents) with
          | none => .error .nullPointer
          | some copy => .ok (.string copy.contents, stack)
    else .ok (.undefined, stack)
  else .ok (.undefined, stack)

/-- `inst_CAT` -/
def cat (memory : ℕ → Memory) (stack : ValueStack) : Outcome (ℤ × ValueStack) := do
  let (count, stack) ← stack.vmDsPop (memory 5)
  let (s, stack) ← stack.catStrings formatFloat memory (count.intValue conversions).toNat
  let (_, stack) ← stack.vmDsPush (memory 4) s
  .ok (1, stack)

/-- The strings one after the other. No strings leave an undefined value. -/
def concatenation (items : List Value) : Value :=
  if items = [] then .undefined else .string (items.flatMap (Value.stringValue formatFloat))

theorem stringValue_concatenation (items : List Value) :
    (concatenation formatFloat items).stringValue formatFloat =
      items.flatMap (Value.stringValue formatFloat) := by
  unfold concatenation
  split
  case isTrue empty =>
    rw [empty]
    rfl
  case isFalse => rfl

/-- There is storage for the copies of the values that are popped, for the list of the strings, for
each of them, for what they are together, and for the copies of that in the scalar and on the
stack. -/
structure CatSupplied (memory : ℕ → Memory) (count : Value) (items : List Value) : Prop where
  count : Stored (memory 5) count
  list : items ≠ [] → (memory 0).calloc items.length sizeofPointer = true
  popped : ∀ i item, items[i]? = some item → Stored (memory (2 * i + 6)) item
  each : ∀ i item, items[i]? = some item →
    (memory (2 * i + 7)).Stores (item.stringValue formatFloat)
  result : items ≠ [] → (memory 1).Stores (items.flatMap (Value.stringValue formatFloat))
  copy : items ≠ [] → (memory 3).Stores (items.flatMap (Value.stringValue formatFloat))
  pushed : items ≠ [] → (memory 4).Stores (items.flatMap (Value.stringValue formatFloat))

end ValueStack

/-- Appending strings to one that has room for them. -/
theorem StringT.appendAll_of (memory : Memory) {result : StringT} {bytes : Bytes}
    {strings : List StringT} {texts : List Bytes} (holds : result.Holds bytes)
    (each : List.Forall₂ StringT.Holds strings texts)
    (room : bytes.length + texts.flatten.length ≤ result.allocatedSize) :
    ∃ target, result.appendAll memory strings = .ok target ∧
      target.Holds (bytes ++ texts.flatten) := by
  induction each generalizing result bytes with
  | nil =>
      refine ⟨result, rfl, ?_⟩
      rw [List.flatten_nil, List.append_nil]
      exact holds
  | @cons string text strings texts known _ ih =>
      have length := StringT.length_contents holds.length_le
      rw [holds.contents_eq] at length
      rw [List.flatten_cons, List.length_append] at room
      rcases StringT.append_within memory holds (show result.length + text.length ≤
        result.allocatedSize by omega) with ⟨middle, appended, middleHolds, same⟩
      rcases ih middleHolds (by rw [same, List.length_append]; omega) with ⟨target, done, after⟩
      refine ⟨target, ?_, ?_⟩
      · simp only [StringT.appendAll, known.contents_eq, appended, Outcome.ok_bind, done]
      · rw [List.flatten_cons, ← List.append_assoc]
        exact after

namespace ValueStack

variable {formatFloat : BitVec 64 → Bytes} {conversions : Conversions} {stack : ValueStack}
  {items rest : List Value} {count : Value} {capacity : ℕ}

/-- The strings are popped in order, and their lengths add up. -/
theorem Shows.popStrings (memory : ℕ → Memory) {i len : ℕ}
    (shows : stack.Shows (items ++ rest) capacity)
    (popped : ∀ j item, items[j]? = some item → Stored (memory (2 * (i + j))) item)
    (each : ∀ j item, items[j]? = some item →
      (memory (2 * (i + j) + 1)).Stores (item.stringValue formatFloat))
    (small : len + (items.map (Value.stringValue formatFloat)).flatten.length < 2 ^ 63) :
    ∃ strings next, stack.popStrings formatFloat memory i len items.length =
        .ok (strings, len + (items.map (Value.stringValue formatFloat)).flatten.length, next) ∧
      List.Forall₂ StringT.Holds strings (items.map (Value.stringValue formatFloat)) ∧
      next.Shows rest capacity := by
  induction items generalizing stack i len with
  | nil => exact ⟨[], stack, rfl, List.Forall₂.nil, shows⟩
  | cons item items ih =>
      rw [List.map_cons, List.flatten_cons, List.length_append] at small ⊢
      rcases shows.pop (popped 0 item rfl) with ⟨next, popping, shown⟩
      rcases each 0 item rfl with ⟨short, granted⟩
      have made := Value.getStringValue_some.mpr ⟨⟨short, granted⟩, rfl⟩
      have laterPopped : ∀ j item, items[j]? = some item →
          Stored (memory (2 * (i + 1 + j))) item := by
        intro j item found
        rw [show i + 1 + j = i + (j + 1) by omega]
        exact popped (j + 1) item found
      have laterEach : ∀ j item, items[j]? = some item →
          (memory (2 * (i + 1 + j) + 1)).Stores (item.stringValue formatFloat) := by
        intro j item found
        rw [show i + 1 + j = i + (j + 1) by omega]
        exact each (j + 1) item found
      rcases ih shown laterPopped laterEach
        (by omega : len + (item.stringValue formatFloat).length + _ < 2 ^ 63) with
        ⟨strings, last, done, holds, emptied⟩
      refine ⟨_, last, ?_, List.Forall₂.cons (StringT.holds_alloc short) holds, emptied⟩
      simp only [Nat.add_zero] at popping made
      simp only [List.length_cons, ValueStack.popStrings, popping, Outcome.ok_bind, made,
        sizeAdd_eq (show len + (item.stringValue formatFloat).length < 2 ^ 64 by omega), done,
        Nat.add_assoc]

/-- The concatenation has storage where there is any for the bytes of it. -/
theorem stored_concatenation {memory : Memory} (stores : items ≠ [] →
    memory.Stores (items.flatMap (Value.stringValue formatFloat))) :
    Stored memory (concatenation formatFloat items) := by
  unfold concatenation
  split
  case isTrue => exact stored_undefined
  case isFalse some => exact stored_string.mpr (stores some)

/-- What `inst_CAT` makes of the items that its count stands for. -/
theorem Shows.catStrings {memory : ℕ → Memory} (shows : stack.Shows (items ++ rest) capacity)
    (supplied : CatSupplied formatFloat memory count items) :
    ∃ next, stack.catStrings formatFloat memory items.length =
      .ok (concatenation formatFloat items, next) ∧ next.Shows rest capacity := by
  rcases supplied with ⟨_, list, popped, each, result, copy, _⟩
  unfold ValueStack.catStrings
  rcases Nat.eq_zero_or_pos items.length with zero | positive
  · rw [List.length_eq_zero_iff] at zero
    subst zero
    exact ⟨stack, rfl, shows⟩
  · have some : items ≠ [] := List.ne_nil_of_length_pos positive
    rw [if_pos positive, if_pos (list some), concatenation, if_neg some]
    rcases result some with ⟨small, granted⟩
    rcases copy some with ⟨_, copied⟩
    rw [List.flatMap_def] at small granted copied ⊢
    have named : ∀ j item, items[j]? = Option.some item →
        Stored (memory (2 * (0 + j) + 6)) item := by
      intro j item found
      rw [Nat.zero_add]
      exact popped j item found
    have told : ∀ j item, items[j]? = Option.some item →
        (memory (2 * (0 + j) + 1 + 6)).Stores (item.stringValue formatFloat) := by
      intro j item found
      rw [Nat.zero_add]
      exact each j item found
    rcases shows.popStrings (fun i => memory (i + 6)) named told
      (by rwa [Nat.zero_add] : 0 + _ < 2 ^ 63) with ⟨strings, next, popping, holds, emptied⟩
    generalize items.map (Value.stringValue formatFloat) = texts at *
    rw [Nat.zero_add] at popping
    have larger := lt_nextupow2 small
    have blank : StringT.Holds ⟨List.replicate (nextupow2 texts.flatten.length) 0, 0⟩ [] := by
      refine ⟨Nat.zero_le _, ?_, StringT.contents_of_length_eq_zero rfl⟩
      rw [StringT.allocatedSize, List.length_replicate]
      exact nextupow2_le_half (Nat.lt_trans small (by decide))
    have made : StringT.alloc (memory 1) texts.flatten.length none =
        .ok (Option.some ⟨List.replicate (nextupow2 texts.flatten.length) 0, 0⟩) := by
      simp only [StringT.alloc, granted, if_true]
    rcases StringT.appendAll_of (memory 2) blank holds (by
        rw [StringT.allocatedSize, List.length_replicate, List.length_nil]
        omega) with ⟨joined, appended, after⟩
    rw [List.nil_append] at after
    have length := StringT.length_contents after.length_le
    rw [after.contents_eq] at length
    have duplicate := StringT.alloc_some.mpr ⟨copied, small, rfl⟩
    refine ⟨next, ?_, emptied⟩
    simp only [popping, Outcome.ok_bind, made, appended, after.contents_eq, ← length, duplicate,
      StringT.contents_append]

/-- `inst_CAT` leaves the concatenation in place of the strings and their number. -/
theorem Shows.cat {memory : ℕ → Memory} (shows : stack.Shows (count :: (items ++ rest)) capacity)
    (counts : (count.intValue conversions).toNat = items.length)
    (supplied : CatSupplied formatFloat memory count items) :
    ∃ next, stack.cat formatFloat conversions memory = .ok (1, next) ∧
      next.Shows (concatenation formatFloat items :: rest) capacity := by
  rcases shows.pop supplied.count with ⟨first, popped, shown⟩
  rcases shown.catStrings supplied with ⟨second, joining, emptied⟩
  have low := shows.length_le
  rw [List.length_cons, List.length_append] at low
  rcases emptied.push_within (by omega) (stored_concatenation supplied.pushed) with
    ⟨next, pushed, left⟩
  refine ⟨next, ?_, left⟩
  simp only [ValueStack.cat, popped, Outcome.ok_bind, counts, joining, pushed]

end ValueStack

end Dang
