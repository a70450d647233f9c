import CompiledResources.Bytes

/-!
Numbers and chunks as bytes: the writing side of the reads at an offset.
-/

namespace CompiledResources.Layout

/-- The `width` low bytes of a number, least significant first. -/
def number : (width n : Nat) → List UInt8
  | 0, _ => []
  | width + 1, n => UInt8.ofNat n :: number width (n / 256)

@[simp] theorem length_number (width n : Nat) : (number width n).length = width := by
  induction width generalizing n with
  | zero => rfl
  | succ width ih => simp [number, ih]

/-- Reading undoes writing, up to the bytes that do not fit. -/
theorem littleEndian_number (width n : Nat) :
    littleEndian (number width n) = n % Bytes.capacity width := by
  induction width generalizing n with
  | zero => simp [number, littleEndian, Bytes.capacity, Nat.mod_one]
  | succ width ih =>
    rw [number, littleEndian, ih, Bytes.capacity, Nat.mod_mul]
    simp

/-- Bytes filled up with zeros to a multiple of four. -/
def aligned (bytes : List UInt8) : List UInt8 :=
  bytes ++ List.replicate ((4 - bytes.length % 4) % 4) 0

/-- A chunk: its kind, the size of its header, its own size, and what follows these fields. -/
def chunk (kind headerSize : Nat) (body : List UInt8) : List UInt8 :=
  number 2 kind ++ number 2 headerSize ++ number 4 (8 + body.length) ++ body

/-- Where pieces start that are laid one behind another from `start` on. -/
def starts (start : Nat) : List (List UInt8) → List Nat
  | [] => []
  | piece :: rest => start :: starts (start + piece.length) rest

end CompiledResources.Layout
