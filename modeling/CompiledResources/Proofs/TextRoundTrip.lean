import CompiledResources.Layout.Number
import CompiledResources.StringPool

/-!
Texts from their bytes. Decoding UTF-8 undoes encoding up to surrogates without a partner, and the
units of a text in UTF-16 come back whatever they are.
-/

namespace CompiledResources

namespace Utf8

/-! ### What single bytes do -/

theorem start_of_ascii {n : Nat} (hn : n < 0x80) :
    start (UInt8.ofNat n) = ([Char.ofNat n], none) := by
  have hbyte : (UInt8.ofNat n).toNat = n := by
    rw [UInt8.toNat_ofNat']
    omega
  have hlt : UInt8.ofNat n < 0x80 := UInt8.lt_iff_toNat_lt.mpr (by rw [hbyte]; exact hn)
  rw [start, if_pos hlt, hbyte]

/-- The first of two bytes. -/
theorem start_of_two {n : Nat} (hleast : 2 ≤ n) (hn : n < 0x20) :
    start (UInt8.ofNat (0xC0 + n)) = ([], some ⟨n, 0, 0x80, 0xBF⟩) := by
  have hbyte : (UInt8.ofNat (0xC0 + n)).toNat = 0xC0 + n := by
    rw [UInt8.toNat_ofNat']
    omega
  simp only [start, UInt8.lt_iff_toNat_lt, hbyte, UInt8.reduceToNat]
  rw [if_neg (by omega), if_neg (by omega), if_pos (by omega), Nat.add_sub_cancel_left]

/-- The first of three bytes. The next one may not begin an overlong form or a surrogate. -/
theorem start_of_three {n : Nat} (hn : n < 0x10) :
    start (UInt8.ofNat (0xE0 + n)) =
      ([], some ⟨n, 1, if n = 0 then 0xA0 else 0x80, if n = 0xD then 0x9F else 0xBF⟩) := by
  have hbyte : (UInt8.ofNat (0xE0 + n)).toNat = 0xE0 + n := by
    rw [UInt8.toNat_ofNat']
    omega
  have hfirst : UInt8.ofNat (0xE0 + n) = 0xE0 ↔ n = 0 := by
    rw [← UInt8.toNat_inj, hbyte]
    exact Nat.add_eq_left
  have hlast : UInt8.ofNat (0xE0 + n) = 0xED ↔ n = 0xD := by
    rw [← UInt8.toNat_inj, hbyte]
    exact Nat.add_left_cancel_iff (n := 0xE0) (k := 0xD)
  simp only [start, UInt8.lt_iff_toNat_lt, hbyte, UInt8.reduceToNat, beq_iff_eq, hfirst, hlast]
  rw [if_neg (by omega), if_neg (by omega), if_neg (by omega), if_pos (by omega),
    Nat.add_sub_cancel_left]

/-- The first of four bytes. The next one may not begin an overlong form or leave the range. -/
theorem start_of_four {n : Nat} (hn : n < 5) :
    start (UInt8.ofNat (0xF0 + n)) =
      ([], some ⟨n, 2, if n = 0 then 0x90 else 0x80, if n = 4 then 0x8F else 0xBF⟩) := by
  have hbyte : (UInt8.ofNat (0xF0 + n)).toNat = 0xF0 + n := by
    rw [UInt8.toNat_ofNat']
    omega
  have hfirst : UInt8.ofNat (0xF0 + n) = 0xF0 ↔ n = 0 := by
    rw [← UInt8.toNat_inj, hbyte]
    exact Nat.add_eq_left
  have hlast : UInt8.ofNat (0xF0 + n) = 0xF4 ↔ n = 4 := by
    rw [← UInt8.toNat_inj, hbyte]
    exact Nat.add_left_cancel_iff (n := 0xF0) (k := 4)
  simp only [start, UInt8.lt_iff_toNat_lt, hbyte, UInt8.reduceToNat, beq_iff_eq, hfirst, hlast]
  rw [if_neg (by omega), if_neg (by omega), if_neg (by omega), if_neg (by omega),
    if_pos (by omega), Nat.add_sub_cancel_left]

/-- A later byte within its bounds completes the character or leaves the rest of it pending. -/
theorem step_of_pending {code more n : Nat} {least greatest : UInt8} (hn : n < 0x40)
    (hleast : least.toNat ≤ 0x80 + n) (hgreatest : 0x80 + n ≤ greatest.toNat) :
    step (some ⟨code, more, least, greatest⟩) (UInt8.ofNat (0x80 + n)) =
      match more with
      | 0 => ([Char.ofNat (code * 0x40 + n)], none)
      | more + 1 => ([], some ⟨code * 0x40 + n, more, 0x80, 0xBF⟩) := by
  have hbyte : (UInt8.ofNat (0x80 + n)).toNat = 0x80 + n := by
    rw [UInt8.toNat_ofNat']
    omega
  have hbounds : (decide (least ≤ UInt8.ofNat (0x80 + n)) &&
      decide (UInt8.ofNat (0x80 + n) ≤ greatest)) = true := by
    simp only [UInt8.le_iff_toNat_le, hbyte, hleast, hgreatest, decide_true, Bool.and_self]
  cases more with
  | zero => simp only [step, hbounds, if_true, hbyte, Nat.add_sub_cancel_left]
  | succ more => simp only [step, hbounds, if_true, hbyte, Nat.add_sub_cancel_left]

/-! ### Whole characters -/

theorem decodeFrom_cons (state : Option Pending) (b : UInt8) (rest : List UInt8) :
    decodeFrom state (b :: rest) = (step state b).1 ++ decodeFrom (step state b).2 rest := by
  cases state <;> rfl

/-- The bytes of a character decode to it, whatever follows. -/
theorem decodeFrom_encodeChar (c : Char) (rest : List UInt8) :
    decodeFrom none (encodeChar c ++ rest) = c :: decodeFrom none rest := by
  have hvalid : c.toNat < 0xD800 ∨ 0xDFFF < c.toNat ∧ c.toNat < 0x110000 := c.valid
  have hstart (b : UInt8) : step none b = start b := rfl
  simp only [encodeChar, Nat.div_one]
  generalize hcode : c.toNat = code at hvalid
  have hc : Char.ofNat code = c := by rw [← hcode, Char.ofNat_toNat]
  -- One case for each number of bytes; the digits of the code in base 64 make it up again.
  split
  next hlt =>
    rw [List.singleton_append, decodeFrom_cons, hstart, start_of_ascii hlt, hc]
    rfl
  next hge =>
    split
    next hlt =>
      simp only [List.cons_append, List.nil_append, decodeFrom_cons, hstart]
      rw [start_of_two (by omega) (by omega)]
      rw [step_of_pending (by omega) (by simp) (by simp; omega), Nat.div_add_mod', hc]
      rfl
    next hge' =>
      split
      next hlt =>
        simp only [List.cons_append, List.nil_append, decodeFrom_cons, hstart]
        rw [start_of_three (by omega)]
        rw [step_of_pending (by omega) (by split <;> simp; omega) (by split <;> simp <;> omega)]
        rw [step_of_pending (by omega) (by simp) (by simp; omega)]
        have hdigits : (code / 0x1000 * 0x40 + code / 0x40 % 0x40) * 0x40 + code % 0x40 = code := by
          omega
        rw [hdigits, hc]
        rfl
      next hge'' =>
        simp only [List.cons_append, List.nil_append, decodeFrom_cons, hstart]
        rw [start_of_four (by omega)]
        rw [step_of_pending (by omega) (by split <;> simp; omega) (by split <;> simp <;> omega)]
        rw [step_of_pending (by omega) (by simp) (by simp; omega)]
        rw [step_of_pending (by omega) (by simp) (by simp; omega)]
        have hdigits : ((code / 0x40000 * 0x40 + code / 0x1000 % 0x40) * 0x40 +
            code / 0x40 % 0x40) * 0x40 + code % 0x40 = code := by
          omega
        rw [hdigits, hc]
        rfl

/-- Decoding undoes encoding, with U+FFFD for each surrogate without its partner. -/
theorem decode_encode (t : Text) : decode (encode t) = t.wellFormed := by
  have hchars (cs : List (Option Char)) :
      decodeFrom none (cs.flatMap fun c => encodeChar (c.getD replacement)) =
        cs.map (·.getD replacement) := by
    induction cs with
    | nil => rfl
    | cons c rest ih => rw [List.flatMap_cons, decodeFrom_encodeChar, ih, List.map_cons]
  rw [decode, encode, hchars, Text.wellFormed, Text.ofString, Text.toStringLossy,
    String.toList_ofList]
  rfl

end Utf8

/-! ### UTF-16 -/

theorem StringPool.unitsOfBytes_units (units : List UInt16) :
    StringPool.unitsOfBytes (units.flatMap fun u => Layout.number 2 u.toNat) = units := by
  induction units with
  | nil => rfl
  | cons u rest ih =>
    have hunit : UInt16.ofNat (littleEndian (Layout.number 2 u.toNat)) = u := by
      have hlt : u.toNat < Bytes.capacity 2 := u.toNat_lt
      rw [Layout.littleEndian_number, Nat.mod_eq_of_lt hlt, UInt16.ofNat_toNat]
    rw [List.flatMap_cons]
    exact congr (congrArg List.cons hunit) ih

end CompiledResources
