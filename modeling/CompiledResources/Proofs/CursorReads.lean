import CompiledResources.Bytes.Cursor
import CompiledResources.Proofs.Placement
import Mathlib.Algebra.Group.Nat.Defs

/-!
What the steps of a cursor take. A step succeeds exactly when its slice lies inside the buffer, and
takes the number or the bytes that stand there; a step that fails tells where the cursor stands and
leaves no trace in the steps after it. A number is that of the word in which shifts put its bytes
side by side, and it is made up of the numbers of its parts.
-/

namespace CompiledResources

/-! ### Numbers and the bytes of which they are made -/

/-- The bytes of a number are those of its low part and, behind them, those of its high part. -/
theorem Layout.number_add (low high n : Nat) :
    number (low + high) n = number low n ++ number high (n / Bytes.capacity low) := by
  induction low generalizing n with
  | zero => simp [number, Bytes.capacity]
  | succ low ih =>
    rw [Nat.succ_add, number, ih, number, Bytes.capacity, Nat.div_div_eq_div_mul]
    rfl

/-- Writing undoes reading. -/
theorem Layout.number_littleEndian (bytes : List UInt8) :
    number bytes.length (littleEndian bytes) = bytes := by
  induction bytes with
  | nil => rfl
  | cons byte rest ih =>
    have hbyte := byte.toNat_lt
    have hlow : UInt8.ofNat (byte.toNat + 256 * littleEndian rest) = byte := by
      apply UInt8.toNat_inj.mp
      rw [UInt8.toNat_ofNat']
      omega
    have hhigh : (byte.toNat + 256 * littleEndian rest) / 256 = littleEndian rest := by omega
    rw [List.length_cons, littleEndian, number, hlow, hhigh, ih]

/-- The word of 32 bits that takes the bits of bytes, each byte eight places above the one before and
the first one `place` places up. -/
def Bytes.packedFrom (place : Nat) : List UInt8 → BitVec 32
  | [] => 0
  | byte :: rest => byte.toBitVec.setWidth 32 <<< place ||| packedFrom (place + 8) rest

/-- The word of 32 bits in which bytes stand side by side, the first one lowest. -/
def Bytes.packed (bytes : List UInt8) : BitVec 32 := packedFrom 0 bytes

/-- Shifting bytes to their places and putting them together with `or` adds up their values. -/
theorem Bytes.toNat_packedFrom {place : Nat} {bytes : List UInt8}
    (hroom : place + 8 * bytes.length ≤ 32) :
    (packedFrom place bytes).toNat = littleEndian bytes <<< place := by
  induction bytes generalizing place with
  | nil => simp [packedFrom, littleEndian]
  | cons byte rest ih =>
    rw [List.length_cons] at hroom
    have hbyte : byte.toNat <<< place < 2 ^ (place + 8) := by
      rw [Nat.shiftLeft_eq, Nat.pow_add, Nat.mul_comm]
      exact Nat.mul_lt_mul_of_pos_left byte.toNat_lt (Nat.two_pow_pos place)
    have hword : 2 ^ (place + 8) ≤ 2 ^ 32 := Nat.pow_le_pow_right (by decide) (by omega)
    have hshifted : (byte.toBitVec.setWidth 32 <<< place).toNat = byte.toNat <<< place := by
      have hwide : (byte.toBitVec.setWidth 32).toNat = byte.toNat := by
        simp
      rw [BitVec.toNat_shiftLeft, hwide, Nat.mod_eq_of_lt (Nat.lt_of_lt_of_le hbyte hword)]
    calc
      (packedFrom place (byte :: rest)).toNat
        = byte.toNat <<< place ||| littleEndian rest <<< (place + 8) := by
          rw [packedFrom, BitVec.toNat_or, hshifted, ih (by omega)]
      _ = littleEndian rest <<< (place + 8) + byte.toNat <<< place := by
          rw [Nat.or_comm, Nat.shiftLeft_add_eq_or_of_lt hbyte]
      _ = littleEndian (byte :: rest) <<< place := by
          rw [littleEndian, Nat.shiftLeft_eq, Nat.shiftLeft_eq, Nat.shiftLeft_eq, Nat.add_mul,
            Nat.add_comm, Nat.mul_comm 256, Nat.mul_assoc, Nat.mul_comm 256, Nat.pow_add]

/-- Up to four bytes encode the number of the word in which they stand side by side. -/
theorem littleEndian_eq_packed {bytes : List UInt8} (hlength : bytes.length ≤ 4) :
    littleEndian bytes = (Bytes.packed bytes).toNat := by
  rw [Bytes.packed, Bytes.toNat_packedFrom (by omega), Nat.shiftLeft_zero]

example : Bytes.packed [0x78, 0x56, 0x34, 0xff] = 0xff345678#32 := by decide

namespace Holds

variable {data : ByteArray} {offset : Int}

/-- Bytes that are read stand where they are read. -/
theorem of_bytesAt {width : Nat} {bytes : List UInt8}
    (h : Bytes.bytesAt data offset width = .ok bytes) : Holds data offset bytes := by
  obtain ⟨fits, hlength⟩ := Bytes.fits_of_bytesAt h
  rw [Bytes.bytesAt_eq_ok fits] at h
  obtain rfl := Except.ok.inj h
  have hsize : data.data.toList.length = data.size := Array.length_toList
  unfold Bytes.Fits at fits
  refine iff_take.mpr ⟨by omega, List.ext_getElem ?_ fun i _ _ => ?_⟩
  · rw [List.length_take, List.length_drop, hlength]
    omega
  · simp only [List.getElem_take, List.getElem_drop, Array.getElem_toList, Bytes.window,
      List.getElem_ofFn]
    rfl

/-- A number that is read stands where it is read. -/
theorem of_numberAt {width n : Nat} (h : Bytes.numberAt width data offset = .ok n) :
    Holds data offset (Layout.number width n) := by
  obtain ⟨bytes, hbytes, rfl⟩ : ∃ bytes, Bytes.bytesAt data offset width = .ok bytes ∧
      littleEndian bytes = n := by
    rw [Bytes.numberAt] at h
    cases hread : Bytes.bytesAt data offset width with
    | ok bytes =>
      rw [hread] at h
      exact ⟨bytes, rfl, Except.ok.inj h⟩
    | error fault =>
      rw [hread] at h
      cases h
  have hlength := (Bytes.fits_of_bytesAt hbytes).2
  rw [← hlength, Layout.number_littleEndian]
  exact of_bytesAt hbytes

end Holds

namespace Cursor

/-! ### One step -/

/-- What a step takes from a buffer at an offset: the number whose bytes stand there, least
significant byte first, or those bytes themselves. -/
inductive Step.Takes (data : ByteArray) (offset : Int) : Step → Taken → Prop
  | u8 {n : Nat} (hlt : n < 256 ^ 1) (hbytes : Holds data offset (Layout.number 1 n)) :
      Takes data offset .u8 (.number n)
  | u16 {n : Nat} (hlt : n < 256 ^ 2) (hbytes : Holds data offset (Layout.number 2 n)) :
      Takes data offset .u16 (.number n)
  | u32 {n : Nat} (hlt : n < 256 ^ 4) (hbytes : Holds data offset (Layout.number 4 n)) :
      Takes data offset .u32 (.number n)
  | bytes {values : List UInt8} (hbytes : Holds data offset values) :
      Takes data offset (.bytes values.length) (.bytes values)
  | skip {width : Int} : Takes data offset (.skip width) .nothing

/-- What a step does to a cursor, and the cursor after it: it takes its slice when that lies inside
the buffer and moves on behind it, and otherwise ends in a fault that tells where the cursor stands,
and the cursor stays there. -/
inductive Performs (cursor : Cursor) (s : Step) : Except Fault Taken → Cursor → Prop
  | takes {taken : Taken} (hstart : 0 ≤ cursor.offset)
      (hend : cursor.offset + s.width ≤ cursor.data.size)
      (htaken : s.Takes cursor.data cursor.offset taken) :
      Performs cursor s (.ok taken) { cursor with offset := cursor.offset + s.width }
  | fails (hfits : ¬ (0 ≤ cursor.offset ∧ cursor.offset + s.width ≤ cursor.data.size)) :
      Performs cursor s
        (.error (.layout (.outOfBounds s.width cursor.data.size) cursor.offset)) cursor

theorem performs_of_take {cursor : Cursor} {s : Step}
    (hinside : Bytes.Fits cursor.data.size cursor.offset s.width →
      ∃ taken, s.take cursor.data cursor.offset = .ok taken ∧
        s.Takes cursor.data cursor.offset taken)
    (houtside : ¬ Bytes.Fits cursor.data.size cursor.offset s.width →
      s.take cursor.data cursor.offset =
        .error (Bytes.outOfBounds cursor.data cursor.offset s.width)) :
    cursor.Performs s (cursor.step s).1 (cursor.step s).2 := by
  by_cases fits : Bytes.Fits cursor.data.size cursor.offset s.width
  · obtain ⟨taken, htake, htaken⟩ := hinside fits
    rw [step, htake]
    exact .takes fits.1 fits.2 htaken
  · rw [step, houtside fits]
    exact .fails fits

/-- A step that takes a number of some width. -/
theorem performs_number {cursor : Cursor} {s : Step} {width : Nat}
    (htake : s.take cursor.data cursor.offset =
      (Bytes.numberAt width cursor.data cursor.offset).map .number)
    (hwidth : s.width = width)
    (htaken : ∀ n, n < Bytes.capacity width →
      Holds cursor.data cursor.offset (Layout.number width n) →
        s.Takes cursor.data cursor.offset (.number n)) :
    cursor.Performs s (cursor.step s).1 (cursor.step s).2 := by
  refine performs_of_take (fun fits => ?_) fun fits => ?_
  · rw [hwidth] at fits
    obtain ⟨n, hn⟩ := Bytes.exists_numberAt fits
    exact ⟨.number n, by rw [htake, hn]; rfl,
      htaken n (Bytes.fits_of_numberAt hn).2 (.of_numberAt hn)⟩
  · rw [hwidth] at fits
    rw [htake, hwidth, Bytes.numberAt, Bytes.bytesAt_eq_error fits]
    rfl

theorem performs_step (cursor : Cursor) (s : Step) :
    cursor.Performs s (cursor.step s).1 (cursor.step s).2 := by
  cases s with
  | u8 => exact performs_number rfl rfl fun n hlt => .u8 hlt
  | u16 => exact performs_number rfl rfl fun n hlt => .u16 hlt
  | u32 => exact performs_number rfl rfl fun n hlt => .u32 hlt
  | bytes width =>
    refine performs_of_take (fun fits => ?_) fun fits => ?_
    · cases hread : Bytes.bytesAt cursor.data cursor.offset width with
      | ok values =>
        obtain rfl : values.length = width := (Bytes.fits_of_bytesAt hread).2
        exact ⟨.bytes values, by rw [Step.take, hread]; rfl, .bytes (.of_bytesAt hread)⟩
      | error fault =>
        rw [Bytes.bytesAt_eq_ok fits] at hread
        cases hread
    · rw [Step.take, Bytes.bytesAt_eq_error fits]
      rfl
  | skip width =>
    exact performs_of_take (fun fits => ⟨.nothing, if_pos fits, .skip⟩) fun fits => if_neg fits

theorem Performs.eq_of_error {cursor next : Cursor} {s : Step} {fault : Fault}
    (h : cursor.Performs s (.error fault) next) : next = cursor := by
  cases h
  rfl

theorem Performs.taken_of_ok {cursor next : Cursor} {s : Step} {taken : Taken}
    (h : cursor.Performs s (.ok taken) next) : s.Takes cursor.data cursor.offset taken := by
  cases h with
  | takes hstart hend htaken => exact htaken

/-- Bytes besides those of its slice have no part in a read. -/
theorem bytesAt_congr {data other : ByteArray} {offset : Int} {width : Nat}
    (hsize : other.size = data.size)
    (hslice : ∀ i : Nat, offset ≤ i → i < offset + width → other.data[i]? = data.data[i]?) :
    Bytes.bytesAt other offset width = Bytes.bytesAt data offset width := by
  by_cases fits : Bytes.Fits data.size offset width
  · have fits' : Bytes.Fits other.size offset width := hsize ▸ fits
    rw [Bytes.bytesAt_eq_ok fits, Bytes.bytesAt_eq_ok fits']
    unfold Bytes.Fits at fits fits'
    congr 1
    apply List.ext_getElem
    · rw [Bytes.length_window, Bytes.length_window]
    · intro i hi _
      rw [Bytes.length_window] at hi
      have hbyte := hslice (offset.toNat + i) (by omega) (by omega)
      have hin : offset.toNat + i < data.data.size := by
        change _ < data.size
        omega
      have hin' : offset.toNat + i < other.data.size := by
        change _ < other.size
        omega
      rw [Array.getElem?_eq_getElem hin, Array.getElem?_eq_getElem hin'] at hbyte
      simp only [Bytes.window, List.getElem_ofFn]
      exact Option.some.inj hbyte
  · have fits' : ¬ Bytes.Fits other.size offset width := hsize ▸ fits
    rw [Bytes.bytesAt_eq_error fits, Bytes.bytesAt_eq_error fits', Bytes.outOfBounds,
      Bytes.outOfBounds, hsize]

/-- A step gives the same on all buffers of one size that have its slice in common. -/
theorem step_congr (cursor : Cursor) (s : Step) {other : ByteArray}
    (hsize : other.size = cursor.data.size)
    (hslice : ∀ i : Nat, cursor.offset ≤ i → i < cursor.offset + s.width →
      other.data[i]? = cursor.data.data[i]?) :
    (({ cursor with data := other } : Cursor).step s).1 = (cursor.step s).1 := by
  have htake : s.take other cursor.offset = s.take cursor.data cursor.offset := by
    cases s with
    | u8 | u16 | u32 => exact congrArg (Except.map _ ∘ Except.map _) (bytesAt_congr hsize hslice)
    | bytes width => exact congrArg (Except.map _) (bytesAt_congr hsize hslice)
    | skip width => simp only [Step.take, Bytes.outOfBounds, hsize]
  have hresult (cursor : Cursor) : (cursor.step s).1 = s.take cursor.data cursor.offset := by
    rw [step]
    cases s.take cursor.data cursor.offset <;> rfl
  rw [hresult, hresult]
  exact htake

/-! ### Numbers read in parts -/

section Parts

variable {cursor : Cursor} {n : Nat}

theorem step_u16_of_holds (h : Holds cursor.data cursor.offset (Layout.number 2 n)) :
    cursor.step .u16 =
      (.ok (.number (n % 2 ^ 16)), { cursor with offset := cursor.offset + 2 }) := by
  have hread : Bytes.u16At cursor.data cursor.offset = .ok (n % 2 ^ 16) := h.numberAt
  rw [step, Step.take, hread]
  rfl

theorem step_u8_of_holds (h : Holds cursor.data cursor.offset (Layout.number 1 n)) :
    cursor.step .u8 =
      (.ok (.number (n % 2 ^ 8)), { cursor with offset := cursor.offset + 1 }) := by
  have hread : Bytes.u8At cursor.data cursor.offset = .ok (n % 2 ^ 8) := h.numberAt
  rw [step, Step.take, hread]
  rfl

/-- A number of 32 bits read as two of 16 bits. -/
theorem run_halves (h : Holds cursor.data cursor.offset (Layout.number 4 n)) (hlt : n < 2 ^ 32) :
    ∃ low high, cursor.run [.u16, .u16] =
        [(.ok (.number low), cursor.offset + 2), (.ok (.number high), cursor.offset + 4)] ∧
      n = low + 2 ^ 16 * high := by
  rw [Layout.number_add 2 2, Holds.append_iff, Layout.length_number] at h
  refine ⟨n % 2 ^ 16, n / 2 ^ 16 % 2 ^ 16, ?_, by omega⟩
  rw [run, step_u16_of_holds h.1]
  dsimp only
  rw [run, step_u16_of_holds h.2]
  simp only [run, Int.add_assoc]
  rfl

/-- A number of 32 bits read as four of 8 bits. -/
theorem run_quarters (h : Holds cursor.data cursor.offset (Layout.number 4 n))
    (hlt : n < 2 ^ 32) :
    ∃ first second third fourth, cursor.run [.u8, .u8, .u8, .u8] =
        [(.ok (.number first), cursor.offset + 1), (.ok (.number second), cursor.offset + 2),
          (.ok (.number third), cursor.offset + 3), (.ok (.number fourth), cursor.offset + 4)] ∧
      n = first + 2 ^ 8 * second + 2 ^ 16 * third + 2 ^ 24 * fourth := by
  rw [Layout.number_add 1 3, Layout.number_add 1 2, Layout.number_add 1 1] at h
  simp only [Holds.append_iff, Layout.length_number] at h
  obtain ⟨hfirst, hsecond, hthird, hfourth⟩ := h
  have hthirdByte : n / Bytes.capacity 1 / Bytes.capacity 1 = n / 2 ^ 16 :=
    Nat.div_div_eq_div_mul ..
  have hfourthByte : n / 2 ^ 16 / Bytes.capacity 1 = n / 2 ^ 24 := Nat.div_div_eq_div_mul ..
  rw [hthirdByte] at hthird hfourth
  rw [hfourthByte] at hfourth
  refine ⟨n % 2 ^ 8, n / 2 ^ 8 % 2 ^ 8, n / 2 ^ 16 % 2 ^ 8, n / 2 ^ 24 % 2 ^ 8, ?_, by omega⟩
  rw [run, step_u8_of_holds hfirst]
  dsimp only
  rw [run, step_u8_of_holds hsecond]
  dsimp only
  rw [run, step_u8_of_holds hthird]
  dsimp only
  rw [run, step_u8_of_holds hfourth]
  simp only [run, Int.add_assoc]
  rfl

end Parts

/-- A number that a step takes is the number of the word in which its bytes stand side by side. -/
theorem Step.Takes.packed {data : ByteArray} {offset : Int} {s : Step} {n : Nat}
    (h : s.Takes data offset (.number n)) :
    ∃ bytes, Holds data offset bytes ∧ (bytes.length : Int) = s.width ∧
      n = (Bytes.packed bytes).toNat := by
  have hnumber (width : Nat) (hwidth : width ≤ 4) (hlt : n < Bytes.capacity width) :
      n = (Bytes.packed (Layout.number width n)).toNat := by
    rw [← littleEndian_eq_packed (by rwa [Layout.length_number]), Layout.littleEndian_number,
      Nat.mod_eq_of_lt hlt]
  cases h with
  | u8 hlt hbytes => exact ⟨_, hbytes, rfl, hnumber 1 (by decide) hlt⟩
  | u16 hlt hbytes => exact ⟨_, hbytes, rfl, hnumber 2 (by decide) hlt⟩
  | u32 hlt hbytes => exact ⟨_, hbytes, rfl, hnumber 4 (by decide) hlt⟩

/-! ### Runs -/

/-- The cursor after several steps. -/
def past (cursor : Cursor) (steps : List Step) : Cursor :=
  steps.foldl (fun cursor s => (cursor.step s).2) cursor

theorem run_append (cursor : Cursor) (first second : List Step) :
    cursor.run (first ++ second) = cursor.run first ++ (cursor.past first).run second := by
  induction first generalizing cursor with
  | nil => rfl
  | cons s rest ih => exact congrArg (_ :: ·) (ih (cursor.step s).2)

theorem data_step (cursor : Cursor) (s : Step) : (cursor.step s).2.data = cursor.data := by
  rw [step]
  cases s.take cursor.data cursor.offset <;> rfl

theorem data_past (cursor : Cursor) (steps : List Step) :
    (cursor.past steps).data = cursor.data := by
  induction steps generalizing cursor with
  | nil => rfl
  | cons s rest ih => exact (ih (cursor.step s).2).trans (cursor.data_step s)

/-- The cursor stands where the last step has left it. -/
theorem offset_past (cursor : Cursor) (steps : List Step) :
    (cursor.past steps).offset =
      ((cursor.run steps).getLast?.map Prod.snd).getD cursor.offset := by
  induction steps generalizing cursor with
  | nil => rfl
  | cons s rest ih =>
    have hrest := ih (cursor.step s).2
    cases rest with
    | nil => rfl
    | cons s' rest => exact hrest

/-- Reads through a cursor are exact, bounded and atomic. Whatever the buffer and the offset, in
every sequence of steps each step does this from where the ones before have left the cursor: when
its slice lies inside the buffer, it takes what stands there and the cursor moves on by the width;
otherwise it ends in a fault that tells where the cursor stands, the cursor stays, and the steps
after it give what they give without it. What it gives depends on no byte but those of its slice. A
number is that of the word of 32 bits in which shifts put its bytes side by side, and one of 32 bits
is what two numbers of 16 bits or four of 8 bits make up that are read in its place. -/
theorem run_steps (cursor : Cursor) (before after : List Step) (s : Step) :
    let here := cursor.past before
    ∃ result next, here.Performs s result next ∧
      here.data = cursor.data ∧
      here.offset = ((cursor.run before).getLast?.map Prod.snd).getD cursor.offset ∧
      cursor.run (before ++ s :: after) =
        cursor.run before ++ (result, next.offset) :: next.run after ∧
      (∀ fault, result = .error fault →
        cursor.run (before ++ after) = cursor.run before ++ next.run after) ∧
      (∀ other : ByteArray, other.size = cursor.data.size →
        (∀ i : Nat, here.offset ≤ i → i < here.offset + s.width →
          other.data[i]? = cursor.data.data[i]?) →
        (({ here with data := other } : Cursor).step s).1 = result) ∧
      (∀ n, result = .ok (.number n) →
        ∃ bytes, Holds here.data here.offset bytes ∧ (bytes.length : Int) = s.width ∧
          n = (Bytes.packed bytes).toNat) ∧
      ∀ n, s = .u32 → result = .ok (.number n) →
        (∃ low high, here.run [.u16, .u16] =
            [(.ok (.number low), here.offset + 2), (.ok (.number high), here.offset + 4)] ∧
          n = low + 2 ^ 16 * high) ∧
        ∃ first second third fourth, here.run [.u8, .u8, .u8, .u8] =
            [(.ok (.number first), here.offset + 1), (.ok (.number second), here.offset + 2),
              (.ok (.number third), here.offset + 3), (.ok (.number fourth), here.offset + 4)] ∧
          n = first + 2 ^ 8 * second + 2 ^ 16 * third + 2 ^ 24 * fourth := by
  intro here
  have hdata : here.data = cursor.data := cursor.data_past before
  have hperforms := here.performs_step s
  refine ⟨(here.step s).1, (here.step s).2, hperforms, hdata, cursor.offset_past before,
    cursor.run_append before (s :: after), fun fault hfault => ?_, ?_, fun n hresult => ?_,
    fun n hs hresult => ?_⟩
  · rw [hfault] at hperforms
    rw [hperforms.eq_of_error]
    exact cursor.run_append before after
  · intro other hsize hslice
    rw [← hdata] at hsize hslice
    exact here.step_congr s hsize hslice
  · rw [hresult] at hperforms
    exact hperforms.taken_of_ok.packed
  · subst hs
    rw [hresult] at hperforms
    cases hperforms.taken_of_ok with
    | u32 hlt hbytes => exact ⟨run_halves hbytes hlt, run_quarters hbytes hlt⟩

example :
    ({ data := ⟨#[1, 2, 3]⟩, offset := 0 } : Cursor).run [.u16, .u32, .u8] =
      [(.ok (.number 0x0201), 2), (.error (.layout (.outOfBounds 4 3) 2), 2),
        (.ok (.number 3), 3)] := by
  rfl

end Cursor
end CompiledResources
