import CompiledResources.Text.Numeral
import CompiledResources.Text.Utf8

/-!
Texts made of characters. Their units give the characters back, so such a text is well formed, and
no other characters make it up. In UTF-8 it has the bytes of its characters.
-/

namespace CompiledResources

namespace Text

theorem isHigh_iff (u : UInt16) : isHigh u = true ↔ 0xD800 ≤ u.toNat ∧ u.toNat ≤ 0xDBFF := by
  simp [isHigh, UInt16.le_iff_toNat_le]

theorem isLow_iff (u : UInt16) : isLow u = true ↔ 0xDC00 ≤ u.toNat ∧ u.toNat ≤ 0xDFFF := by
  simp [isLow, UInt16.le_iff_toNat_le]

/-- A unit that is no half of a pair stands for itself, whatever follows. -/
theorem charsOfUnits_cons {u : UInt16} (hhigh : isHigh u = false) (rest : List UInt16) :
    charsOfUnits (u :: rest) = charOfUnit? u :: charsOfUnits rest := by
  cases rest with
  | nil => rfl
  | cons v rest => simp [charsOfUnits, hhigh]

/-- The units of a character give it back, whatever follows. -/
theorem charsOfUnits_unitsOfChar (c : Char) (rest : List UInt16) :
    charsOfUnits (unitsOfChar c ++ rest) = some c :: charsOfUnits rest := by
  have hvalid : c.toNat < 0xD800 ∨ 0xDFFF < c.toNat ∧ c.toNat < 0x110000 := c.valid
  have hc : Char.ofNat c.toNat = c := Char.ofNat_toNat c
  rw [unitsOfChar]
  split
  next hsmall =>
    have hunit : (UInt16.ofNat c.toNat).toNat = c.toNat := by
      rw [UInt16.toNat_ofNat']
      omega
    have hhigh : isHigh (UInt16.ofNat c.toNat) = false := by
      rw [Bool.eq_false_iff, ne_eq, isHigh_iff, hunit]
      omega
    have hlow : isLow (UInt16.ofNat c.toNat) = false := by
      rw [Bool.eq_false_iff, ne_eq, isLow_iff, hunit]
      omega
    rw [List.singleton_append, charsOfUnits_cons hhigh]
    simp [charOfUnit?, hhigh, hlow, hunit, hc]
  next hlarge =>
    have hfirst : (UInt16.ofNat (0xD800 + (c.toNat - 0x10000) / 0x400)).toNat =
        0xD800 + (c.toNat - 0x10000) / 0x400 := by
      rw [UInt16.toNat_ofNat']
      omega
    have hsecond : (UInt16.ofNat (0xDC00 + (c.toNat - 0x10000) % 0x400)).toNat =
        0xDC00 + (c.toNat - 0x10000) % 0x400 := by
      rw [UInt16.toNat_ofNat']
      omega
    have hhigh : isHigh (UInt16.ofNat (0xD800 + (c.toNat - 0x10000) / 0x400)) = true := by
      rw [isHigh_iff, hfirst]
      omega
    have hlow : isLow (UInt16.ofNat (0xDC00 + (c.toNat - 0x10000) % 0x400)) = true := by
      rw [isLow_iff, hsecond]
      omega
    have hcode : 0x10000 + (0xD800 + (c.toNat - 0x10000) / 0x400 - 0xD800) * 0x400 +
        (0xDC00 + (c.toNat - 0x10000) % 0x400 - 0xDC00) = c.toNat := by
      omega
    simp only [List.cons_append, List.nil_append, charsOfUnits, hhigh, hlow, Bool.and_self, if_true,
      charOfPair, hfirst, hsecond, hcode, hc]

theorem charsOfUnits_ofChars (cs : List Char) : charsOfUnits (ofChars cs).units = cs.map some := by
  rw [units_ofChars]
  induction cs with
  | nil => rfl
  | cons c rest ih => rw [List.flatMap_cons, charsOfUnits_unitsOfChar, ih, List.map_cons]

/-- A text is made of at most one list of characters. -/
theorem ofChars_inj {cs cs' : List Char} (h : ofChars cs = ofChars cs') : cs = cs' := by
  have hchars : cs.map some = cs'.map some := by
    rw [← charsOfUnits_ofChars, h, charsOfUnits_ofChars]
  exact List.map_inj_right (fun _ _ heq => Option.some.inj heq) |>.mp hchars

/-- A text made of characters has no surrogate without its partner. -/
theorem wellFormed_ofString (s : String) : (ofString s).wellFormed = ofString s := by
  have hchars : (charsOfUnits (ofString s).units).map (·.getD (Char.ofNat 0xFFFD)) = s.toList := by
    rw [ofString, charsOfUnits_ofChars, List.map_map]
    exact List.map_id _
  rw [wellFormed, toStringLossy, hchars, String.ofList_toList]

end Text

namespace Utf8

/-- The bytes of a character are those that the standard library gives it. -/
theorem encodeChar_eq (c : Char) : encodeChar c = String.utf8EncodeChar c := by
  have hvalid : c.toNat < 0xD800 ∨ 0xDFFF < c.toNat ∧ c.toNat < 0x110000 := c.valid
  have hcode : c.val.toNat = c.toNat := rfl
  have hbound (n : Nat) : c.toNat ≤ n ↔ c.toNat < n + 1 := Nat.lt_add_one_iff.symm
  simp only [encodeChar, String.utf8EncodeChar, hcode, Nat.div_one, hbound, Nat.reduceAdd]
  -- both sides choose among one, two, three and four bytes at the same codes
  refine ite_congr rfl (fun _ => rfl) fun _ => ite_congr rfl (fun htwo => ?_) fun _ =>
    ite_congr rfl (fun hthree => ?_) fun hfour => ?_
  · have hlead : 0xC0 + c.toNat / 0x40 = c.toNat / 64 % 32 + 192 := by omega
    rw [hlead, Nat.add_comm 0x80]
  · have hlead : 0xE0 + c.toNat / 0x1000 = c.toNat / 4096 % 16 + 224 := by omega
    rw [hlead, Nat.add_comm 0x80, Nat.add_comm 0x80]
  · have hlead : 0xF0 + c.toNat / 0x40000 = c.toNat / 262144 % 8 + 240 := by omega
    rw [hlead, Nat.add_comm 0x80, Nat.add_comm 0x80, Nat.add_comm 0x80]

/-- A text made of characters has the bytes of its characters. -/
theorem encode_ofString (s : String) : encode (Text.ofString s) = s.toUTF8.data.toList := by
  have hbytes : s.toUTF8 = (s.toList.flatMap String.utf8EncodeChar).toByteArray :=
    String.utf8Encode_toList.symm
  rw [hbytes, List.data_toByteArray, encode, Text.ofString, Text.charsOfUnits_ofChars,
    List.flatMap_map]
  simp [encodeChar_eq]

end Utf8

/-- Different numbers have different decimal numerals. -/
theorem Numeral.decimal_inj {m n : Nat} (h : decimal m = decimal n) : m = n := by
  have hdigits : Nat.toDigits 10 m = Nat.toDigits 10 n := Text.ofChars_inj h
  rw [← Nat.ofDigitChars_ten_toDigits (n := m), hdigits, Nat.ofDigitChars_ten_toDigits]

end CompiledResources
