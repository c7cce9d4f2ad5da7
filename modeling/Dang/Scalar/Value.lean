import Dang.Scalar.Basic
import Dang.Scalar.Store
import Dang.StringBuffer

/-!
# Values of scalars

A scalar with the contents of its string in place of the address, and what storage its
copies and its string value ask for. The text of a float is the C library's, so it is a
parameter.
-/

namespace Dang

/-- The value of a `scalar_t`. -/
inductive Value
  | undefined
  | int (value : BitVec 64)
  | float (bits : BitVec 64)
  | string (bytes : Bytes)
  | reference (kind : ReferenceKind) (handle : ℕ)
  | function (handle : ℕ)
  deriving DecidableEq, Repr

instance : Inhabited Value := ⟨.undefined⟩

/-- The name `anon_scalar_get_string_value` prints for a kind of reference. -/
def ReferenceKind.printed : ReferenceKind → String
  | .scalar => "SCALAR"
  | .array => "ARRAY"
  | .hash => "HASH"
  | .channel => "CHANNEL"
  | .stream => "STREAM"

/-- `anon_scalar_get_string_value`: `formatFloat` is what `%f` prints, of which the buffer
holds 99 bytes. -/
def Value.stringValue (formatFloat : BitVec 64 → Bytes) : Value → Bytes
  | .undefined => []
  | .int value => ascii (toString value.toInt)
  | .float bits => (formatFloat bits).take 99
  | .string bytes => bytes
  | .reference kind handle => ascii (kind.printed ++ "(" ++ toString handle ++ ")")
  | .function handle => ascii ("FUNCTION(" ++ toString handle ++ ")")

/-- There is storage for a string with these bytes. From half the range of `size_t` on
`nextupow2` asks for none. -/
def Memory.Stores (memory : Memory) (bytes : Bytes) : Prop :=
  bytes.length < 2 ^ 63 ∧ memory.calloc 1 (sizeofStringT + nextupow2 bytes.length) = true

instance (memory : Memory) (bytes : Bytes) : Decidable (memory.Stores bytes) :=
  inferInstanceAs (Decidable (_ ∧ _))

/-- Where every `calloc` up to `SIZE_MAX` bytes finds storage, there is storage for a string. -/
theorem Memory.stores_of_ample {memory : Memory} {bytes : Bytes}
    (ample : ∀ size ≤ sizeMax, memory.calloc 1 size = true) (small : bytes.length < 2 ^ 63) :
    memory.Stores bytes := by
  have made := StringT.alloc_of_ample ample small
  exact ⟨small, (StringT.alloc_some.mp made).1⟩

/-- The bytes of what `string_dup` makes of a string with these bytes. Where it finds no storage,
the null pointer it returns is kept for a string, and is followed by whatever uses that next: the
run is over. -/
def dupBytes (memory : Memory) (bytes : Bytes) : Outcome Bytes := do
  match ← StringT.alloc memory bytes.length (some bytes) with
  | none => .error .nullPointer
  | some copy => .ok copy.contents

namespace Value

/-- `anon_scalar_clone` into a scalar that is undefined. What references refer to is not
followed. -/
def clone (memory : Memory) : Value → Outcome Value
  | .string bytes => do
      let bytes ← dupBytes memory bytes
      .ok (.string bytes)
  | other => .ok other

instance : ScalarValue Value where
  clone := clone

/-- `anon_scalar_get_string_value`, or a null pointer. Without an initial value a string of no
length is the same. -/
def getStringValue (formatFloat : BitVec 64 → Bytes) (memory : Memory) (value : Value) :
    Outcome (Option StringT) :=
  StringT.alloc memory (value.stringValue formatFloat).length (some (value.stringValue formatFloat))

end Value

variable {memory : Memory} {bytes copy : Bytes}

theorem dupBytes_eq_ok : dupBytes memory bytes = .ok copy ↔ memory.Stores bytes ∧ copy = bytes := by
  unfold dupBytes
  constructor
  · intro success
    rcases Outcome.bind_eq_ok.mp success with ⟨made, allocated, result⟩
    cases made with
    | none => cases result
    | some string =>
        rcases StringT.alloc_some.mp allocated with ⟨granted, small, rfl⟩
        cases result
        exact ⟨⟨small, granted⟩, StringT.contents_append _ _⟩
  · rintro ⟨⟨small, granted⟩, rfl⟩
    have allocated := StringT.alloc_some.mpr ⟨granted, small, rfl⟩
    simp only [allocated, Outcome.ok_bind, StringT.contents_append]

/-- Only the copy of a string asks for storage. -/
theorem stored_string : Stored memory (Value.string bytes) ↔ memory.Stores bytes := by
  constructor
  · intro stored
    rcases Outcome.bind_eq_ok.mp stored with ⟨copy, copied, _⟩
    exact (dupBytes_eq_ok.mp copied).1
  · intro stores
    exact Outcome.bind_eq_ok.mpr ⟨bytes, dupBytes_eq_ok.mpr ⟨stores, rfl⟩, rfl⟩

@[simp]
theorem stored_undefined : Stored memory Value.undefined := rfl

@[simp]
theorem stored_int (value : BitVec 64) : Stored memory (Value.int value) := rfl

@[simp]
theorem stored_reference (kind : ReferenceKind) (handle : ℕ) :
    Stored memory (Value.reference kind handle) := rfl

instance (memory : Memory) : (value : Value) → Decidable (Stored memory value)
  | .string _ => decidable_of_iff _ stored_string.symm
  | .undefined => isTrue rfl
  | .int _ => isTrue rfl
  | .float _ => isTrue rfl
  | .reference _ _ => isTrue rfl
  | .function _ => isTrue rfl

/-- What is copied is the value itself. -/
theorem Value.clone_eq_ok {value made : Value} :
    ScalarValue.clone memory value = .ok made ↔ Stored memory value ∧ made = value := by
  constructor
  · intro success
    cases value with
    | string bytes =>
        rcases Outcome.bind_eq_ok.mp success with ⟨copy, copied, result⟩
        rcases dupBytes_eq_ok.mp copied with ⟨stores, rfl⟩
        cases result
        exact ⟨stored_string.mpr stores, rfl⟩
    | undefined =>
        cases success
        exact ⟨rfl, rfl⟩
    | int number =>
        cases success
        exact ⟨rfl, rfl⟩
    | float bits =>
        cases success
        exact ⟨rfl, rfl⟩
    | reference kind handle =>
        cases success
        exact ⟨rfl, rfl⟩
    | function handle =>
        cases success
        exact ⟨rfl, rfl⟩
  · rintro ⟨stored, rfl⟩
    exact stored

/-- The string value of a scalar asks for the storage of a string. -/
theorem Value.getStringValue_some {formatFloat : BitVec 64 → Bytes} {value : Value}
    {string : StringT} :
    value.getStringValue formatFloat memory = .ok (some string) ↔
      memory.Stores (value.stringValue formatFloat) ∧
        string = ⟨value.stringValue formatFloat ++
          List.replicate (nextupow2 (value.stringValue formatFloat).length -
            (value.stringValue formatFloat).length) 0, (value.stringValue formatFloat).length⟩ := by
  unfold getStringValue Memory.Stores
  rw [StringT.alloc_some, and_assoc, and_left_comm]

end Dang
