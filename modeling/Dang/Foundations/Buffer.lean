import Dang.Foundations.Outcome
import Mathlib.Data.Nat.Digits.Defs

/-!
# Buffers

Blocks stored into a buffer of a fixed length and loaded from it, and numbers in
their little-endian representation. What a block says is read back unless a later
block overlaps it.
-/

namespace Dang

namespace Buffer

variable {α : Type}

/-- The items of a block are written from a position on. -/
def store (buffer : List α) (position : ℕ) (block : List α) : Outcome (List α) :=
  if position + block.length ≤ buffer.length then
    .ok (buffer.take position ++ block ++ buffer.drop (position + block.length))
  else .error .invalidAccess

/-- The items of a block are read from a position on. -/
def load (buffer : List α) (position size : ℕ) : Outcome (List α) :=
  if position + size ≤ buffer.length then .ok ((buffer.drop position).take size)
  else .error .invalidAccess

variable {buffer stored block : List α} {position : ℕ}

theorem store_of_le (inside : position + block.length ≤ buffer.length) :
    store buffer position block =
      .ok (buffer.take position ++ block ++ buffer.drop (position + block.length)) :=
  if_pos inside

theorem store_eq_ok : store buffer position block = .ok stored ↔
    position + block.length ≤ buffer.length ∧
      stored = buffer.take position ++ block ++ buffer.drop (position + block.length) := by
  unfold store
  split
  case isTrue inside => simp [inside, eq_comm]
  case isFalse outside => simp [outside]

theorem length_of_store (success : store buffer position block = .ok stored) :
    stored.length = buffer.length := by
  rcases store_eq_ok.mp success with ⟨inside, rfl⟩
  simp only [List.length_append, List.length_take, List.length_drop]
  omega

/-- What is before the block stays. -/
theorem take_before_store (success : store buffer position block = .ok stored) :
    stored.take position = buffer.take position := by
  rcases store_eq_ok.mp success with ⟨inside, rfl⟩
  rw [List.append_assoc]
  apply List.take_left'
  rw [List.length_take]
  omega

/-- Up to the end of the block there is what was before it, and the block. -/
theorem take_of_store (success : store buffer position block = .ok stored) :
    stored.take (position + block.length) = buffer.take position ++ block := by
  rcases store_eq_ok.mp success with ⟨inside, rfl⟩
  apply List.take_left'
  rw [List.length_append, List.length_take]
  omega

/-- Each item afterwards is the block's where the block lies, and the old one elsewhere. -/
theorem getElem?_of_store (success : store buffer position block = .ok stored) (index : ℕ) :
    stored[index]? =
      if position ≤ index ∧ index < position + block.length then block[index - position]?
      else buffer[index]? := by
  rcases store_eq_ok.mp success with ⟨inside, rfl⟩
  have taken : (buffer.take position).length = position := by
    rw [List.length_take]
    omega
  rw [List.append_assoc]
  rcases Nat.lt_or_ge index position with before | after
  · rw [List.getElem?_append_left (by omega), List.getElem?_take_of_lt before, if_neg (by omega)]
  · rw [List.getElem?_append_right (by omega), taken]
    rcases Nat.lt_or_ge index (position + block.length) with within | beyond
    · rw [List.getElem?_append_left (by omega), if_pos ⟨after, within⟩]
    · rw [List.getElem?_append_right (by omega), List.getElem?_drop, if_neg (by omega)]
      congr 1
      omega

/-- A block stored right after another makes one block with it. -/
theorem store_append {first second : List α} :
    (store buffer position first >>= fun written => store written (position + first.length) second) =
      store buffer position (first ++ second) := by
  unfold store
  by_cases inside : position + first.length ≤ buffer.length
  · have taken : (buffer.take position).length = position := by
      rw [List.length_take]
      omega
    have written : (buffer.take position ++ first ++
        buffer.drop (position + first.length)).length = buffer.length := by
      simp only [List.length_append, List.length_drop, taken]
      omega
    have prefixLength : (buffer.take position ++ first).length = position + first.length := by
      rw [List.length_append, taken]
    rw [if_pos inside, Outcome.ok_bind, written, List.length_append, ← Nat.add_assoc]
    congr 2
    rw [List.take_left' prefixLength, List.append_assoc (buffer.take position ++ first),
      ← prefixLength, List.drop_length_add_append, List.drop_drop, prefixLength]
    simp [List.append_assoc]
  · rw [if_neg inside, if_neg (by rw [List.length_append]; omega), Outcome.error_bind]

theorem load_eq_ok {size : ℕ} : load buffer position size = .ok block ↔
    position + size ≤ buffer.length ∧ block = (buffer.drop position).take size := by
  unfold load
  split
  case isTrue inside => simp [inside, eq_comm]
  case isFalse outside => simp [outside]

/-- What a load reads is settled by the items of its range. -/
theorem load_eq_ok_of_getElem? {size : ℕ} (inside : position + size ≤ buffer.length)
    (long : block.length = size)
    (items : ∀ index, index < size → buffer[position + index]? = block[index]?) :
    load buffer position size = .ok block := by
  refine load_eq_ok.mpr ⟨inside, ?_⟩
  apply List.ext_getElem?
  intro index
  rcases Nat.lt_or_ge index size with within | beyond
  · rw [List.getElem?_take_of_lt within, List.getElem?_drop, items index within]
  · rw [List.getElem?_take, if_neg (by omega), List.getElem?_eq_none (by omega)]

/-- A part of a range that can be read can be read by itself. -/
theorem load_part {size : ℕ} (loaded : load buffer position size = .ok block) {skip part : ℕ}
    (inside : skip + part ≤ size) :
    load buffer (position + skip) part = .ok ((block.drop skip).take part) := by
  rcases load_eq_ok.mp loaded with ⟨within, rfl⟩
  refine load_eq_ok.mpr ⟨by omega, ?_⟩
  rw [List.drop_take, List.take_take, List.drop_drop, Nat.min_eq_left (by omega)]

theorem length_of_load {size : ℕ} (loaded : load buffer position size = .ok block) :
    block.length = size := by
  rcases load_eq_ok.mp loaded with ⟨within, rfl⟩
  rw [List.length_take, List.length_drop]
  omega

/-- What lies between two other parts of a range can be read by itself. -/
theorem load_middle {front back : List α} {size : ℕ}
    (loaded : load buffer position size = .ok (front ++ block ++ back)) :
    load buffer (position + front.length) block.length = .ok block := by
  have long := length_of_load loaded
  rw [List.length_append, List.length_append] at long
  rw [load_part loaded (by omega), List.append_assoc, List.drop_left, List.take_left]

end Buffer

/-- A number can be cut to a byte. -/
instance neZeroByte : NeZero 256 := ⟨by decide⟩

/-- The base-256 digits of a number, the least significant first. -/
def littleEndian : ℕ → ℕ → List (Fin 256)
  | 0, _ => []
  | size + 1, number => Fin.ofNat 256 number :: littleEndian size (number / 256)

/-- The number that base-256 digits stand for. -/
def ofLittleEndian (bytes : List (Fin 256)) : ℕ := Nat.ofDigits 256 (bytes.map Fin.val)

@[simp]
theorem length_littleEndian (size number : ℕ) : (littleEndian size number).length = size := by
  induction size generalizing number with
  | zero => rfl
  | succ size ih => simp [littleEndian, ih]

/-- As many digits as there are give the number back, up to what they cannot hold. -/
theorem ofLittleEndian_littleEndian (size number : ℕ) :
    ofLittleEndian (littleEndian size number) = number % 256 ^ size := by
  induction size generalizing number with
  | zero => simp [littleEndian, ofLittleEndian, Nat.mod_one]
  | succ size ih =>
      simp only [ofLittleEndian] at ih
      simp only [ofLittleEndian, littleEndian, List.map_cons, Nat.ofDigits_cons, ih, Fin.val_ofNat,
        Nat.pow_succ', Nat.mod_mul]

end Dang
