import CompiledResources.Fault

/-!
Reads of bytes and of little-endian numbers at an offset of a buffer. A read succeeds exactly when
all its bytes lie inside the buffer; the bytes are taken with a proof of that, so none outside is
ever touched.
-/

namespace CompiledResources

/-- The number that bytes encode, least significant byte first. -/
def littleEndian : List UInt8 → Nat
  | [] => 0
  | byte :: rest => byte.toNat + 256 * littleEndian rest

/-- The number of values that so many bytes can have. -/
def Bytes.capacity : (width : Nat) → Nat
  | 0 => 1
  | width + 1 => 256 * capacity width

theorem littleEndian_lt (bytes : List UInt8) :
    littleEndian bytes < Bytes.capacity bytes.length := by
  induction bytes with
  | nil => simp [littleEndian, Bytes.capacity]
  | cons byte rest ih =>
    have := byte.toNat_lt
    simp only [littleEndian, List.length_cons, Bytes.capacity]
    omega

namespace Bytes

/-- The `width` bytes at `offset` lie inside a buffer of `size` bytes. -/
def Fits (size : Nat) (offset width : Int) : Prop :=
  0 ≤ offset ∧ offset + width ≤ size

instance (size : Nat) (offset width : Int) : Decidable (Fits size offset width) :=
  inferInstanceAs (Decidable (_ ∧ _))

/-- The fault of a read that leaves the buffer. -/
def outOfBounds (data : ByteArray) (offset width : Int) : Fault :=
  .layout (.outOfBounds width data.size) offset

/-- The `width` bytes from `start`. -/
def window (data : ByteArray) (start width : Nat) (fits : start + width ≤ data.size) :
    List UInt8 :=
  List.ofFn fun i : Fin width =>
    have : start + i.val < data.size := by have := i.isLt; omega
    data[start + i.val]

@[simp] theorem length_window (data : ByteArray) (start width : Nat)
    (fits : start + width ≤ data.size) : (window data start width fits).length = width := by
  simp [window]

/-- The `width` bytes at `offset`. -/
def bytesAt (data : ByteArray) (offset : Int) (width : Nat) : Except Fault (List UInt8) :=
  if fits : Fits data.size offset width then
    .ok (window data offset.toNat width (by unfold Fits at fits; omega))
  else .error (outOfBounds data offset width)

theorem bytesAt_eq_ok {data : ByteArray} {offset : Int} {width : Nat}
    (fits : Fits data.size offset width) :
    bytesAt data offset width =
      .ok (window data offset.toNat width (by unfold Fits at fits; omega)) :=
  dif_pos fits

theorem bytesAt_eq_error {data : ByteArray} {offset : Int} {width : Nat}
    (fits : ¬ Fits data.size offset width) :
    bytesAt data offset width = .error (outOfBounds data offset width) :=
  dif_neg fits

theorem fits_of_bytesAt {data : ByteArray} {offset : Int} {width : Nat} {bytes : List UInt8}
    (h : bytesAt data offset width = .ok bytes) :
    Fits data.size offset width ∧ bytes.length = width := by
  by_cases fits : Fits data.size offset width
  · rw [bytesAt_eq_ok fits] at h
    cases h
    exact ⟨fits, length_window ..⟩
  · rw [bytesAt_eq_error fits] at h
    cases h

/-- Bytes behind those that are read do not matter. -/
theorem bytesAt_append {data : ByteArray} {offset : Int} {width : Nat}
    (fits : Fits data.size offset width) (more : ByteArray) :
    bytesAt (data ++ more) offset width = bytesAt data offset width := by
  have fits' : Fits (data ++ more).size offset width := by
    rw [ByteArray.size_append]
    unfold Fits at *
    omega
  rw [bytesAt_eq_ok fits, bytesAt_eq_ok fits']
  congr 1
  apply List.ext_getElem
  · rw [length_window, length_window]
  · intro i _ hi
    simp only [window, List.getElem_ofFn]
    exact ByteArray.getElem_append_left _

/-- The little-endian number of `width` bytes at `offset`. -/
def numberAt (width : Nat) (data : ByteArray) (offset : Int) : Except Fault Nat :=
  (bytesAt data offset width).map littleEndian

theorem fits_of_numberAt {width : Nat} {data : ByteArray} {offset : Int} {n : Nat}
    (h : numberAt width data offset = .ok n) :
    Fits data.size offset width ∧ n < capacity width := by
  unfold numberAt at h
  cases hbytes : bytesAt data offset width with
  | error fault => simp [hbytes, Except.map] at h
  | ok bytes =>
    obtain ⟨fits, length⟩ := fits_of_bytesAt hbytes
    simp only [hbytes, Except.map, Except.ok.injEq] at h
    subst h
    exact ⟨fits, length ▸ littleEndian_lt bytes⟩

theorem numberAt_append {data : ByteArray} {offset : Int} {width : Nat}
    (fits : Fits data.size offset width) (more : ByteArray) :
    numberAt width (data ++ more) offset = numberAt width data offset := by
  rw [numberAt, numberAt, bytesAt_append fits]

theorem exists_numberAt {data : ByteArray} {offset : Int} {width : Nat}
    (fits : Fits data.size offset width) : ∃ n, numberAt width data offset = .ok n :=
  ⟨_, by rw [numberAt, bytesAt_eq_ok fits]; rfl⟩

/-- The byte at `offset`. -/
def u8At (data : ByteArray) (offset : Int) : Except Fault Nat := numberAt 1 data offset

/-- The 16-bit number at `offset`. -/
def u16At (data : ByteArray) (offset : Int) : Except Fault Nat := numberAt 2 data offset

/-- The 32-bit number at `offset`. -/
def u32At (data : ByteArray) (offset : Int) : Except Fault Nat := numberAt 4 data offset

end Bytes

/-- A sequence of reads that succeeds does so through both of them. -/
theorem exists_of_bind_eq_ok {ε α β : Type} {result : Except ε α} {next : α → Except ε β} {b : β}
    (h : result >>= next = .ok b) : ∃ a, result = .ok a ∧ next a = .ok b := by
  cases result with
  | ok a => exact ⟨a, rfl, h⟩
  | error e => cases h

/-- Collects the items `index`, `index + 1`, … behind those in `found`, `count` of them, and stops
at the first one that fails. -/
def collectFrom {ε α : Type} (item : Nat → Except ε α) :
    (count index : Nat) → (found : Array α) → Except ε (Array α)
  | 0, _, found => .ok found
  | count + 1, index, found =>
    match item index with
    | .ok a => collectFrom item count (index + 1) (found.push a)
    | .error e => .error e

/-- The items `0`, …, `count - 1`, or the fault of the first one that fails. -/
def collect {ε α : Type} (count : Nat) (item : Nat → Except ε α) : Except ε (List α) :=
  (collectFrom item count 0 #[]).map Array.toList

end CompiledResources
