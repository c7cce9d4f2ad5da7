import Dang.Machine.Concat

/-!
# Strings taken apart

`inst_XPLOD` pushes a string for each byte of a string, and `inst_CAT` joins them again.
`inst_CHR` sets a byte of a new string but not its length, so that what it pushes is empty.
-/

namespace Dang

/-- The loop of `inst_XPLOD` that makes the characters, from round `i` on. -/
def StringT.charactersFrom (memory : ℕ → Memory) (i : ℕ) (buf : StringT) :
    Bytes → Outcome (List Value)
  | [] => .ok []
  | byte :: str => do
      let (_, buf) ← buf.assign (memory i) [byte]
      match ← buf.dup (memory i) with
      | none => .error .nullPointer
      | some character => do
          let characters ← charactersFrom memory (i + 1) buf str
          .ok (.string character.contents :: characters)

namespace ValueStack

variable (formatFloat : BitVec 64 → Bytes) (conversions : Conversions)

/-- Where `inst_XPLOD` pushes the characters of the string, and how many there are. Without
storage for the list of them there are none. -/
def pushCharacters (memory : ℕ → Memory) (str : StringT) (stack : ValueStack) :
    Outcome (ℕ × ValueStack) :=
  if 0 < str.length then
    if (memory 1).calloc str.length sizeofScalar then do
      match ← StringT.alloc (memory 2) 1 none with
      | none => .error .assertion
      | some buf => do
          let characters ← buf.charactersFrom (fun i => memory (i + 6)) 0 str.contents
          let (_, stack) ← stack.vmDsNpush (memory 3) characters
          .ok (str.length, stack)
    else .ok (0, stack)
  else .ok (0, stack)

/-- `inst_XPLOD` -/
def xplod (memory : ℕ → Memory) (stack : ValueStack) : Outcome (ℤ × ValueStack) := do
  let (s, stack) ← stack.vmDsPop (memory 5)
  match ← s.getStringValue formatFloat (memory 0) with
  | none => .error .nullPointer
  | some str => do
      let (n, stack) ← stack.pushCharacters memory str
      let (_, stack) ← stack.vmDsPush (memory 4) (.int (BitVec.ofNat 64 n))
      .ok (1, stack)

/-- `inst_CHR`: the length of the string that it allocates stays zero. -/
def chr (memory : ℕ → Memory) (stack : ValueStack) : Outcome (ℤ × ValueStack) := do
  let (i, stack) ← stack.vmDsPop (memory 3)
  match ← StringT.alloc (memory 0) 1 none with
  | none => .error .nullPointer
  | some str => do
      let bytes ← Buffer.store str.bytes 0 [charOfInt (i.intValue conversions).toInt]
      match ← StringT.dup (memory 1) ⟨bytes, str.length⟩ with
      | none => .error .nullPointer
      | some a => do
          let (_, stack) ← stack.vmDsPush (memory 2) (.string a.contents)
          .ok (1, stack)

/-- What `inst_ORD` makes of a string: the first byte as a `char`, if there is one. -/
def ordOf (str : StringT) : Outcome Value :=
  if 0 < str.length then
    match str.bytes[0]? with
    | none => .error .invalidAccess
    | some byte => .ok (.int (BitVec.ofInt 64 (charValue byte)))
  else .ok .undefined

/-- `inst_ORD` -/
def ord (memory : ℕ → Memory) (stack : ValueStack) : Outcome (ℤ × ValueStack) := do
  let (a, stack) ← stack.vmDsPop (memory 2)
  match ← a.getStringValue formatFloat (memory 0) with
  | none => .error .nullPointer
  | some str => do
      let i ← ordOf str
      let (_, stack) ← stack.vmDsPush (memory 1) i
      .ok (1, stack)

/-- A string of one byte for each byte of the text. -/
def characters (text : Bytes) : List Value := text.map fun byte => .string [byte]

/-- There is storage for the copy of the value that is popped, for its text, for the list of its
characters, for the string that they go through, for each of them, for as many more values on the
stack, and for the copies of the characters there. -/
structure XplodSupplied (memory : ℕ → Memory) (value : Value) (text : Bytes)
    (capacity depth : ℕ) : Prop where
  popped : Stored (memory 5) value
  string : (memory 0).Stores text
  list : text ≠ [] → (memory 1).calloc text.length sizeofScalar = true
  buffer : text ≠ [] → (memory 2).calloc 1 (sizeofStringT + nextupow2 1) = true
  each : ∀ i < text.length, (memory (i + 6)).calloc 1 (sizeofStringT + nextupow2 1) = true
  characters : Room (memory 3) capacity (depth + text.length)
  copies : text ≠ [] → (memory 3).calloc 1 (sizeofStringT + nextupow2 1) = true
  count : Room (memory 4) (grown capacity (depth + text.length)) (depth + text.length + 1)

/-- `inst_XPLOD` puts the characters of the value on top of the rest, the first one uppermost, and
their number on top of them; and `inst_CAT` right after it leaves one value with the string that the
value has. -/
def Rejoins (memory again : ℕ → Memory) (stack : ValueStack) (value : Value) (rest : List Value) :
    Prop :=
  ∃ exploded reached joined s, stack.xplod formatFloat memory = .ok (1, exploded) ∧
    exploded.Shows (.int (BitVec.ofNat 64 (value.stringValue formatFloat).length) ::
      (characters (value.stringValue formatFloat) ++ rest)) reached ∧
    exploded.cat formatFloat conversions again = .ok (1, joined) ∧
    joined.Shows (s :: rest) reached ∧ s.stringValue formatFloat = value.stringValue formatFloat

/-- `inst_ORD` and then `inst_CHR` put one value on top of the stack in place of another. -/
def Recodes (memory again : ℕ → Memory) (before after : Value) : Prop :=
  ∀ (stack : ValueStack) (rest : List Value) (capacity : ℕ),
    stack.Shows (before :: rest) capacity →
      ∃ coded next, stack.ord formatFloat memory = .ok (1, coded) ∧
        coded.chr conversions again = .ok (1, next) ∧ next.Shows (after :: rest) capacity

/-- The string on top of the rest is taken apart, each of the values that this leaves is recoded,
and joining those gives the string again. -/
def RoundTrips (memory : ℕ → Memory) (codes chars : ℕ → ℕ → Memory) (again : ℕ → Memory)
    (stack : ValueStack) (text : Bytes) (rest : List Value) : Prop :=
  ∃ exploded reached before after, stack.xplod formatFloat memory = .ok (1, exploded) ∧
    exploded.Shows (.int (BitVec.ofNat 64 before.length) :: (before ++ rest)) reached ∧
    after.length = before.length ∧
    (∀ i value other, before[i]? = some value → after[i]? = some other →
      Recodes formatFloat conversions (codes i) (chars i) value other) ∧
    ∀ recoded : ValueStack,
      recoded.Shows (.int (BitVec.ofNat 64 before.length) :: (after ++ rest)) reached →
        ∃ joined s, recoded.cat formatFloat conversions again = .ok (1, joined) ∧
          joined.Shows (s :: rest) reached ∧ s.stringValue formatFloat = text

end ValueStack

/-- A buffer with room for one byte makes each byte a string by itself. -/
theorem StringT.charactersFrom_of {memory : ℕ → Memory} {buf : StringT} {text : Bytes} {i : ℕ}
    (room : 1 ≤ buf.allocatedSize) (half : buf.allocatedSize ≤ 2 ^ 63)
    (each : ∀ j < text.length,
      (memory (i + j)).calloc 1 (sizeofStringT + nextupow2 1) = true) :
    buf.charactersFrom memory i text = .ok (ValueStack.characters text) := by
  induction text generalizing buf i with
  | nil => rfl
  | cons byte text ih =>
      have fits : [byte].length ≤ buf.allocatedSize := room
      have granted := each 0 (Nat.zero_lt_succ _)
      rw [Nat.add_zero] at granted
      have holds := StringT.holds_assigned fits half
      have size := StringT.allocatedSize_assigned fits
      have copied := StringT.alloc_some.mpr ⟨granted, show [byte].length < 2 ^ 63 by simp, rfl⟩
      have later := ih (size.symm ▸ room) (size.symm ▸ half) fun j inside => by
        have next := each (j + 1) (Nat.succ_lt_succ inside)
        rw [show i + 1 + j = i + (j + 1) by omega]
        exact next
      simp only [charactersFrom, StringT.assign_of_le (memory i) fits, Outcome.ok_bind,
        StringT.dup_eq holds, copied, later, StringT.contents_append, ValueStack.characters,
        List.map_cons]

namespace ValueStack

variable {formatFloat : BitVec 64 → Bytes} {conversions : Conversions} {stack : ValueStack}
  {rest : List Value} {value : Value} {text : Bytes} {capacity : ℕ} {memory : ℕ → Memory}

theorem length_characters (text : Bytes) : (characters text).length = text.length :=
  List.length_map _

/-- Each character asks for the storage of a string of one byte. -/
theorem allStored_characters {memory : Memory}
    (granted : text ≠ [] → memory.calloc 1 (sizeofStringT + nextupow2 1) = true) :
    AllStored memory (characters text) := by
  intro value mem
  rcases List.mem_map.mp mem with ⟨byte, inside, rfl⟩
  have short : [byte].length < 2 ^ 63 := by simp
  exact stored_string.mpr ⟨short, granted (List.ne_nil_of_mem inside)⟩

theorem flatMap_characters (text : Bytes) :
    (characters text).flatMap (Value.stringValue formatFloat) = text := by
  rw [characters, List.flatMap_map]
  exact List.flatMap_singleton' text

/-- A text with storage for the list of its characters is short. -/
theorem XplodSupplied.length_lt {depth : ℕ}
    (supplied : XplodSupplied memory value text capacity depth) : text.length < 2 ^ 60 := by
  rcases Nat.eq_zero_or_pos text.length with zero | positive
  · omega
  · have object := (memory 1).calloc_fits _ _
      (supplied.list (List.ne_nil_of_length_pos positive))
    rw [sizeofScalar, sizeMax] at object
    omega

/-- `inst_XPLOD` leaves the characters and their number in place of the string. -/
theorem Shows.xplod (shows : stack.Shows (value :: rest) capacity)
    (known : value.stringValue formatFloat = text)
    (supplied : XplodSupplied memory value text capacity rest.length) :
    ∃ next reached, stack.xplod formatFloat memory = .ok (1, next) ∧
      next.Shows (.int (BitVec.ofNat 64 text.length) :: (characters text ++ rest)) reached := by
  rcases shows.pop supplied.popped with ⟨first, popped, shown⟩
  have copied := StringT.alloc_some.mpr ⟨supplied.string.2, supplied.string.1, rfl⟩
  have length := length_characters text
  have pushing : ∃ second, first.pushCharacters memory
        ⟨text ++ List.replicate (nextupow2 text.length - text.length) 0, text.length⟩ =
          .ok (text.length, second) ∧
      second.Shows (characters text ++ rest) (grown capacity (rest.length + text.length)) := by
    unfold pushCharacters
    rcases Nat.eq_zero_or_pos text.length with zero | positive
    · rw [List.length_eq_zero_iff] at zero
      subst zero
      have kept : grown capacity (rest.length + ([] : Bytes).length) = capacity :=
        if_pos shown.length_le
      refine ⟨first, rfl, ?_⟩
      rw [kept]
      exact shown
    · have nonempty : text ≠ [] := List.ne_nil_of_length_pos positive
      have listed := supplied.list nonempty
      have buffer : StringT.alloc (memory 2) 1 none =
          .ok (some ⟨List.replicate (nextupow2 1) 0, 0⟩) := by
        simp only [StringT.alloc, supplied.buffer nonempty, if_true]
      have made : StringT.charactersFrom (fun i => memory (i + 6)) 0
          ⟨List.replicate (nextupow2 1) 0, 0⟩ text = .ok (characters text) := by
        apply StringT.charactersFrom_of (by decide) (by decide)
        intro j inside
        rw [Nat.zero_add]
        exact supplied.each j inside
      have some : characters text ≠ [] := by
        rw [characters, ne_eq, List.map_eq_nil_iff]
        exact nonempty
      have object : (characters text).length * sizeofScalar ≤ sizeMax := by
        rw [length]
        exact (memory 1).calloc_fits _ _ listed
      have room := supplied.characters
      rw [← length] at room
      have stored := allStored_characters supplied.copies
      rcases shown.npush (memory 3) some object stored with ⟨_, second, pushed, both⟩ | ⟨none, _⟩
      · refine ⟨second, ?_, length ▸ both⟩
        simp only [if_pos positive, if_pos listed, buffer, Outcome.ok_bind, StringT.contents_append,
          made, pushed]
      · exact absurd room none
  rcases pushing with ⟨second, pushed, both⟩
  have room := supplied.count
  rw [← length, Nat.add_comm rest.length, ← List.length_append] at room
  rw [← length, Nat.add_comm rest.length, ← List.length_append] at both
  rcases both.push (.int (BitVec.ofNat 64 text.length)) room (stored_int _) with ⟨next, counted, all⟩
  refine ⟨next, _, ?_, all⟩
  rw [← known] at copied pushed counted
  simp only [ValueStack.xplod, popped, Outcome.ok_bind, Value.getStringValue, copied, pushed,
    counted]

/-- A string that is taken apart is put together again. -/
theorem rejoins_of_supplied (again : ℕ → Memory) (shows : stack.Shows (value :: rest) capacity)
    (supplied : XplodSupplied memory value (value.stringValue formatFloat) capacity rest.length)
    (joins : CatSupplied formatFloat again
      (.int (BitVec.ofNat 64 (value.stringValue formatFloat).length))
      (characters (value.stringValue formatFloat))) :
    Rejoins formatFloat conversions memory again stack value rest := by
  rcases shows.xplod rfl supplied with ⟨exploded, reached, exploding, shown⟩
  have short := supplied.length_lt
  have counts : ((Value.int (BitVec.ofNat 64 (value.stringValue formatFloat).length)).intValue
      conversions).toNat = (characters (value.stringValue formatFloat)).length := by
    rw [length_characters, Value.intValue, BitVec.toNat_ofNat]
    exact Nat.mod_eq_of_lt (by omega)
  rcases shown.cat counts joins with ⟨joined, joining, left⟩
  refine ⟨exploded, reached, joined, _, exploding, shown, joining, left, ?_⟩
  rw [stringValue_concatenation, flatMap_characters]

theorem rejoins_of_supplied_sample :
    Rejoins (fun _ => []) ⟨id, fun _ => 0⟩ (fun _ => .ample) (fun _ => .ample)
      (stacked [.string (ascii "ab"), .int 7]) (.string (ascii "ab")) [.int 7] := by
  have shows : (stacked [.string (ascii "ab"), .int 7]).Shows [.string (ascii "ab"), .int 7] 16 :=
    shows_stacked (by decide)
  have room : ∀ capacity count, nextupow2 count * sizeofScalar ≤ sizeMax →
      Room .ample capacity count := by
    intro capacity count fits _
    exact decide_eq_true fits
  have supplied : XplodSupplied (fun _ => .ample) (.string (ascii "ab")) (ascii "ab") 16 1 := by
    refine ⟨by decide, by decide, fun _ => by decide, fun _ => by decide, fun _ _ => by decide, ?_,
      fun _ => by decide, ?_⟩
    · exact room _ _ (by decide)
    · exact room _ _ (by decide)
  have character : ∀ (i : ℕ) (item : Value), (characters (ascii "ab"))[i]? = some item →
      item = Value.string [97] ∨ item = Value.string [98] := by
    intro i item found
    exact List.mem_pair.mp (List.mem_of_getElem? found)
  have joins : CatSupplied (fun _ => []) (fun _ => .ample) (.int 2) (characters (ascii "ab")) := by
    refine ⟨by decide, fun _ => by decide, ?_, ?_, fun _ => by decide, fun _ => by decide,
      fun _ => by decide⟩
    · intro i item found
      rcases character i item found with rfl | rfl
      · decide
      · decide
    · intro i item found
      rcases character i item found with rfl | rfl
      · decide
      · decide
  exact rejoins_of_supplied (fun _ => .ample) shows supplied joins

/-- Without storage for the list of the characters there are none. -/
theorem not_rejoins_exhausted :
    (stacked [.string (ascii "ab")]).Shows [.string (ascii "ab")] 16 ∧
      ¬ Rejoins (fun _ => []) ⟨id, fun _ => 0⟩ (fun i => if i = 1 then .exhausted else .ample)
        (fun _ => .ample) (stacked [.string (ascii "ab")]) (.string (ascii "ab")) [] := by
  refine ⟨shows_stacked (by decide), ?_⟩
  rintro ⟨exploded, reached, joined, s, exploding, shown, _⟩
  have none : (stacked [.string (ascii "ab")]).xplod (fun _ => [])
      (fun i => if i = 1 then .exhausted else .ample) = .ok (1, stacked [.int 0]) := by
    rfl
  cases none.symm.trans exploding
  cases shown.contents

section Codes

variable {items : List Value} {count : Value} {next : ValueStack} {status : ℤ}

/-- `inst_CHR` leaves a string of no length, whatever it pops. -/
theorem Shows.chr_eq_ok (shows : stack.Shows (value :: rest) capacity)
    (success : stack.chr conversions memory = .ok (status, next)) :
    next.Shows (.string [] :: rest) capacity := by
  rcases Outcome.bind_eq_ok.mp success with ⟨⟨i, first⟩, popped, later⟩
  rcases shows.pop_eq_ok popped with ⟨_, left, same, shown⟩
  rw [List.cons.injEq] at same
  rcases same with ⟨rfl, rfl⟩
  rcases Outcome.bind_eq_ok.mp later with ⟨allocated, made, later⟩
  cases allocated with
  | none => cases later
  | some str =>
      rcases Outcome.bind_eq_ok.mp later with ⟨bytes, _, later⟩
      rcases Outcome.bind_eq_ok.mp later with ⟨copied, copying, later⟩
      cases copied with
      | none => cases later
      | some a =>
          have none : str.length = 0 := (StringT.alloc_eq_ok made).2.1
          have empty : a.length = 0 := (StringT.alloc_eq_ok copying).2.1.trans none
          rcases Outcome.bind_eq_ok.mp later with ⟨⟨_, other⟩, pushed, result⟩
          cases result
          rw [← StringT.contents_of_length_eq_zero empty]
          exact shown.push_within_eq_ok shows.length_le pushed

/-- Strings of no length are popped as such. -/
theorem Shows.popStrings_blank {memory : ℕ → Memory} {i total : ℕ} {strings : List StringT}
    (shows : stack.Shows (items ++ rest) capacity)
    (blank : ∀ item ∈ items, item.stringValue formatFloat = [])
    (success : stack.popStrings formatFloat memory i 0 items.length = .ok (strings, total, next)) :
    total = 0 ∧ (∀ string ∈ strings, string.contents = []) ∧ next.Shows rest capacity := by
  induction items generalizing stack i strings with
  | nil =>
      cases success
      exact ⟨rfl, by simp, shows⟩
  | cons item items ih =>
      rcases Outcome.bind_eq_ok.mp success with ⟨⟨tmp, first⟩, popped, later⟩
      rcases shows.pop_eq_ok popped with ⟨_, left, same, shown⟩
      rw [List.cons_append, List.cons.injEq] at same
      rcases same with ⟨rfl, rfl⟩
      have empty := blank _ List.mem_cons_self
      rcases Outcome.bind_eq_ok.mp later with ⟨allocated, made, later⟩
      rw [Value.getStringValue, empty] at made
      cases allocated with
      | none => cases later
      | some string =>
          have none : string.length = 0 := (StringT.alloc_eq_ok made).2.1
          rcases Outcome.bind_eq_ok.mp later with ⟨⟨others, sum, last⟩, popping, result⟩
          rw [none] at popping
          cases result
          rcases ih shown (fun item mem => blank item (List.mem_cons_of_mem _ mem)) popping with
            ⟨zero, each, left⟩
          refine ⟨zero, ?_, left⟩
          intro other mem
          rcases List.mem_cons.mp mem with rfl | later
          · exact StringT.contents_of_length_eq_zero none
          · exact each other later

/-- Strings that hold nothing leave a string as it is. -/
theorem appendAll_blank {memory : Memory} {result target : StringT} {strings : List StringT}
    (zero : result.length = 0) (blank : ∀ string ∈ strings, string.contents = [])
    (success : result.appendAll memory strings = .ok target) : target.length = 0 := by
  induction strings generalizing result with
  | nil =>
      cases success
      exact zero
  | cons string strings ih =>
      have short : ¬result.allocatedSize < ([] : Bytes).length := Nat.not_lt_zero _
      simp only [StringT.appendAll, blank string List.mem_cons_self, StringT.append, if_neg short,
        Outcome.ok_bind] at success
      rcases Outcome.bind_eq_ok.mp success with ⟨⟨_, middle⟩, appended, later⟩
      rcases Outcome.bind_eq_ok.mp appended with ⟨stored, _, result⟩
      cases result
      refine ih ?_ (fun other mem => blank other (List.mem_cons_of_mem _ mem)) later
      change sizeAdd _ _ = 0
      rw [zero]
      rfl

/-- What `inst_CAT` leaves on top of strings that are all empty has no bytes either. -/
theorem Shows.cat_blank (shows : stack.Shows (count :: (items ++ rest)) capacity)
    (counts : (count.intValue conversions).toNat = items.length)
    (blank : ∀ item ∈ items, item.stringValue formatFloat = [])
    (success : stack.cat formatFloat conversions memory = .ok (status, next)) :
    ∃ s below, next.Shows (s :: below) capacity ∧ s.stringValue formatFloat = [] := by
  rcases Outcome.bind_eq_ok.mp success with ⟨⟨number, first⟩, popped, later⟩
  rcases shows.pop_eq_ok popped with ⟨_, left, same, shown⟩
  rw [List.cons.injEq] at same
  rcases same with ⟨rfl, rfl⟩
  rcases Outcome.bind_eq_ok.mp later with ⟨⟨s, second⟩, joined, later⟩
  rw [counts] at joined
  rcases Outcome.bind_eq_ok.mp later with ⟨⟨_, last⟩, pushed, result⟩
  cases result
  have low := shows.length_le
  rw [List.length_cons, List.length_append] at low
  have emptied : ∃ below, second.Shows below capacity ∧ below.length < capacity ∧
      s.stringValue formatFloat = [] := by
    unfold ValueStack.catStrings at joined
    split at joined
    case isFalse none =>
      cases joined
      exact ⟨_, shown, by rw [List.length_append]; omega, rfl⟩
    split at joined
    case isFalse =>
      cases joined
      exact ⟨_, shown, by rw [List.length_append]; omega, rfl⟩
    rcases Outcome.bind_eq_ok.mp joined with ⟨⟨strings, total, third⟩, popping, later⟩
    rcases shown.popStrings_blank blank popping with ⟨zero, each, left⟩
    rcases Outcome.bind_eq_ok.mp later with ⟨allocated, made, later⟩
    cases allocated with
    | none => cases later
    | some start =>
        rcases Outcome.bind_eq_ok.mp later with ⟨result, appended, later⟩
        rcases Outcome.bind_eq_ok.mp later with ⟨copied, copying, later⟩
        cases copied with
        | none => cases later
        | some copy =>
            have short := appendAll_blank (StringT.alloc_eq_ok made).2.1 each appended
            have bare : copy.length = 0 := (StringT.alloc_eq_ok copying).2.1.trans short
            cases later
            exact ⟨rest, left, by omega, StringT.contents_of_length_eq_zero bare⟩
  rcases emptied with ⟨below, left, within, bare⟩
  exact ⟨s, below, left.push_within_eq_ok within pushed, bare⟩

variable {codes chars : ℕ → ℕ → Memory} {again : ℕ → Memory} {before after : Value}

/-- What `inst_ORD` leaves for a string: undefined if it is empty. -/
def ordinal : Bytes → Value
  | [] => .undefined
  | byte :: _ => .int (BitVec.ofInt 64 (charValue byte))

/-- `inst_ORD` -/
theorem Shows.ord_eq_ok (shows : stack.Shows (value :: rest) capacity)
    (success : stack.ord formatFloat memory = .ok (status, next)) :
    next.Shows (ordinal (value.stringValue formatFloat) :: rest) capacity := by
  rcases Outcome.bind_eq_ok.mp success with ⟨⟨a, first⟩, popped, later⟩
  rcases shows.pop_eq_ok popped with ⟨_, left, same, shown⟩
  rw [List.cons.injEq] at same
  rcases same with ⟨rfl, rfl⟩
  rcases Outcome.bind_eq_ok.mp later with ⟨allocated, made, later⟩
  cases allocated with
  | none => cases later
  | some str =>
      rcases StringT.alloc_some.mp made with ⟨_, _, rfl⟩
      have settled : ordOf ⟨value.stringValue formatFloat ++ List.replicate
          (nextupow2 (value.stringValue formatFloat).length -
            (value.stringValue formatFloat).length) 0,
          (value.stringValue formatFloat).length⟩ =
            .ok (ordinal (value.stringValue formatFloat)) := by
        cases value.stringValue formatFloat with
        | nil => rfl
        | cons byte text => rfl
      simp only [settled, Outcome.ok_bind] at later
      rcases Outcome.bind_eq_ok.mp later with ⟨⟨_, other⟩, pushed, result⟩
      cases result
      exact shown.push_within_eq_ok shows.length_le pushed

/-- A value that is recoded becomes a string of no length. -/
theorem Recodes.eq_blank (recodes : Recodes formatFloat conversions memory again before after) :
    after = .string [] := by
  rcases recodes (stacked [before]) [] 16 (shows_stacked (by simp)) with
    ⟨coded, next, ordinal, character, shown⟩
  have single := (shows_stacked (by simp)).ord_eq_ok ordinal
  have blank := single.chr_eq_ok character
  have same := blank.contents.symm.trans shown.contents
  rw [List.cons.injEq] at same
  exact same.1.symm

/-- What is taken apart, recoded and joined again is empty. -/
theorem RoundTrips.eq_nil
    (trips : RoundTrips formatFloat conversions memory codes chars again stack text rest) :
    text = [] := by
  rcases trips with ⟨exploded, reached, before, after, _, shown, same, recodes, joins⟩
  have blank : ∀ item ∈ after, item = .string [] := by
    intro item mem
    rcases List.getElem?_of_mem mem with ⟨i, found⟩
    have inside : i < before.length := by
      rw [← same]
      exact (List.getElem?_eq_some_iff.mp found).1
    exact (recodes i before[i] item (List.getElem?_eq_getElem inside) found).eq_blank
  have object : before.length * sizeofScalar ≤ sizeMax := by
    have within := shown.length_le
    have fits := shown.valid.fits
    rw [shown.capacity, valueFunctions_size] at fits
    rw [List.length_cons, List.length_append] at within
    exact Nat.le_trans (Nat.mul_le_mul_right sizeofScalar (by omega)) fits
  have fits : (Value.int (BitVec.ofNat 64 before.length) :: (after ++ rest)).length =
      (Value.int (BitVec.ofNat 64 before.length) :: (before ++ rest)).length := by simp [same]
  rcases shown.exists_of_length fits with ⟨recoded, holds⟩
  rcases joins recoded holds with ⟨joined, s, joining, left, rfl⟩
  have counts := (intValue_length conversions object).trans same.symm
  rcases holds.cat_blank counts (fun item mem => by rw [blank item mem]; rfl) joining with
    ⟨other, below, shows, bare⟩
  have equal := left.contents.symm.trans shows.contents
  rw [List.cons.injEq] at equal
  rw [equal.1]
  exact bare

/-- The empty string needs storage for two copies of it. -/
theorem xplodSupplied_nil {depth : ℕ} (within : depth < capacity)
    (popped : (memory 5).Stores []) (string : (memory 0).Stores []) :
    XplodSupplied memory (.string []) [] capacity depth := by
  have kept : grown capacity (depth + ([] : Bytes).length) = capacity :=
    if_pos (Nat.le_of_lt within)
  refine ⟨stored_string.mpr popped, string, fun some => absurd rfl some,
    fun some => absurd rfl some, ?_, ?_, fun some => absurd rfl some, ?_⟩
  · intro i inside
    exact absurd inside (Nat.not_lt_zero i)
  · intro short
    exact absurd within (Nat.not_lt.mpr (Nat.le_of_lt short))
  · rw [kept]
    intro short
    exact absurd within (Nat.not_lt.mpr (Nat.le_of_lt_succ short))

theorem catSupplied_nil (formatFloat : BitVec 64 → Bytes) (memory : ℕ → Memory) (i : BitVec 64) :
    CatSupplied formatFloat memory (.int i) [] where
  count := stored_int i
  list some := absurd rfl some
  popped i item found := by cases found
  each i item found := by cases found
  result some := absurd rfl some
  copy some := absurd rfl some
  pushed some := absurd rfl some

/-- Exactly the empty string survives `inst_ORD` and `inst_CHR`, and `inst_CHR` never pushes a
character. -/
theorem roundTrips_iff_empty (memory again : ℕ → Memory) (codes chars : ℕ → ℕ → Memory) :
    (∀ (stack : ValueStack) (text : Bytes) (rest : List Value) (capacity : ℕ),
      stack.Shows (.string text :: rest) capacity →
        (RoundTrips formatFloat conversions memory codes chars again stack text rest ↔
          text = [] ∧ (memory 5).Stores [] ∧ (memory 0).Stores [])) ∧
      ∀ (stack : ValueStack) (i : BitVec 64) (rest : List Value) (capacity : ℕ),
        stack.Shows (.int i :: rest) capacity →
          ¬∃ next reached, stack.chr conversions memory = .ok (1, next) ∧
            next.Shows (.string [charOfInt i.toInt] :: rest) reached := by
  constructor
  · intro stack text rest capacity shows
    constructor
    · intro trips
      have empty := trips.eq_nil
      subst empty
      rcases trips with ⟨exploded, _, _, _, exploding, _⟩
      rcases Outcome.bind_eq_ok.mp exploding with ⟨⟨s, first⟩, popped, later⟩
      rcases shows.pop_eq_ok popped with ⟨stored, _, same, _⟩
      rw [List.cons.injEq] at same
      rcases same with ⟨rfl, _⟩
      rcases Outcome.bind_eq_ok.mp later with ⟨allocated, made, later⟩
      cases allocated with
      | none => cases later
      | some str =>
          exact ⟨rfl, stored_string.mp stored, (Value.getStringValue_some.mp made).1⟩
    · rintro ⟨rfl, popped, string⟩
      have supplied := xplodSupplied_nil shows.length_le popped string
      rcases shows.xplod rfl supplied with ⟨exploded, reached, exploding, shown⟩
      refine ⟨exploded, reached, [], [], exploding, shown, rfl, ?_, ?_⟩
      · intro i value other found
        cases found
      · intro recoded holds
        rcases holds.cat rfl (catSupplied_nil formatFloat again _) with ⟨joined, joining, left⟩
        exact ⟨joined, _, joining, left, rfl⟩
  · rintro stack i rest capacity shows ⟨next, reached, character, pushed⟩
    have blank := shows.chr_eq_ok character
    have same := blank.contents.symm.trans pushed.contents
    cases same

theorem roundTrips_iff_empty_sample :
    RoundTrips (fun _ => []) ⟨id, fun _ => 0⟩ (fun _ => .ample) (fun _ _ => .ample)
      (fun _ _ => .ample) (fun _ => .ample) (stacked [.string [], .int 7]) [] [.int 7] :=
  ((roundTrips_iff_empty (fun _ => .ample) (fun _ => .ample) _ _).1 _ _ _ 16
    (shows_stacked (by decide))).mpr ⟨rfl, by decide, by decide⟩

/-- A single letter comes back as the empty string. -/
theorem not_roundTrips_letter :
    (stacked [.string (ascii "a")]).Shows [.string (ascii "a")] 16 ∧
      ¬RoundTrips (fun _ => []) ⟨id, fun _ => 0⟩ (fun _ => .ample) (fun _ _ => .ample)
        (fun _ _ => .ample) (fun _ => .ample) (stacked [.string (ascii "a")]) (ascii "a") [] ∧
      (stacked [.int 97]).chr ⟨id, fun _ => 0⟩ (fun _ => .ample) =
        .ok (1, stacked [.string []]) := by
  refine ⟨shows_stacked (by decide), ?_, rfl⟩
  intro trips
  exact absurd trips.eq_nil (by decide)

end Codes

end ValueStack

end Dang
