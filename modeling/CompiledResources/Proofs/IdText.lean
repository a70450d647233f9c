import CompiledResources.Proofs.Rounding
import CompiledResources.Proofs.StoredPools
import CompiledResources.ResourceId
import Mathlib.Data.List.Forall2
import Mathlib.Data.Nat.Digits.Defs

/-!
The text of resource ids. What a text has to be to denote an id is a grammar of its units, and
exactly the texts of that grammar are read, each as the number it denotes; the rounding of that
number on the way decides nothing. The text that is written for an id is one of them, in whatever
case its digits are written.
-/

namespace CompiledResources

/-! ### Digits of a number -/

namespace Numeral

/-- The digits of a number in a base have its value. -/
theorem exists_toDigits {base : Nat} (hbase : 1 < base) (n : Nat) :
    ∃ digits : List Nat, base.toDigits n = digits.map Nat.digitChar ∧
      (∀ digit ∈ digits, digit < base) ∧ Nat.ofDigits base digits.reverse = n := by
  induction n using Nat.strongRecOn with
  | ind n ih =>
    rw [Nat.toDigits_eq_if hbase]
    by_cases hn : n < base
    · rw [if_pos hn]
      exact ⟨[n], rfl, by simpa using hn, by simp⟩
    · rw [if_neg hn]
      obtain ⟨digits, hdigits, hlt, hvalue⟩ :=
        ih (n / base) (Nat.div_lt_self (by omega) hbase)
      refine ⟨digits ++ [n % base], ?_, ?_, ?_⟩
      · rw [hdigits, List.map_append, List.map_singleton]
      · rw [List.forall_mem_append]
        exact ⟨hlt, by simpa using Nat.mod_lt n (by omega)⟩
      · rw [List.reverse_append, List.reverse_singleton, List.singleton_append, Nat.ofDigits_cons,
          hvalue]
        exact Nat.mod_add_div n base

/-- A number is written with as many digits as it is filled up to, when they suffice for it. -/
theorem exists_hexPadded {width n : Nat} (hwidth : 0 < width) (hn : n < 16 ^ width) :
    ∃ digits : List Nat, hexPadded width n = .ofChars (digits.map Nat.digitChar) ∧
      (∀ digit ∈ digits, digit < 16) ∧ digits.length = width ∧
      Nat.ofDigits 16 digits.reverse = n := by
  obtain ⟨digits, hdigits, hlt, hvalue⟩ := exists_toDigits (by decide : 1 < 16) n
  have hlength : digits.length ≤ width := by
    have hle := Nat.toDigits_length 16 n width hwidth hn
    rwa [hdigits, List.length_map] at hle
  refine ⟨List.replicate (width - digits.length) 0 ++ digits, ?_, ?_, ?_, ?_⟩
  · rw [hexPadded, hdigits, List.length_map, List.map_append, List.map_replicate]
    rfl
  · rw [List.forall_mem_append]
    refine ⟨fun digit hdigit => ?_, hlt⟩
    rw [List.eq_of_mem_replicate hdigit]
    decide
  · rw [List.length_append, List.length_replicate, Nat.sub_add_cancel hlength]
  · rw [List.reverse_append, List.reverse_replicate, Nat.ofDigits_append_replicate_zero, hvalue]

end Numeral

namespace ResourceId

/-! ### The grammar -/

/-- The unit is the digit of a value, in lower or in upper case. -/
def IsDigit (base : Nat) (u : UInt16) (digit : Nat) : Prop :=
  digit < base ∧
    (u.toNat = digit.digitChar.toNat ∨ u.toNat = digit.digitChar.toUpper.toNat)

instance (base : Nat) (u : UInt16) (digit : Nat) : Decidable (IsDigit base u digit) :=
  inferInstanceAs (Decidable (_ ∧ _))

/-- The units denote a number: `0x` or `0X` and one to eight hexadecimal digits, or any number of
decimal digits, most significant digit first, with a value of at most 32 bits. -/
inductive Denotes : List UInt16 → Nat → Prop where
  | hexadecimal {mark : UInt16} {units : List UInt16} {digits : List Nat}
      (hmark : mark = 0x78 ∨ mark = 0x58) (hdigits : List.Forall₂ (IsDigit 16) units digits)
      (hsome : 1 ≤ units.length) (hfew : units.length ≤ 8) :
      Denotes (0x30 :: mark :: units) (Nat.ofDigits 16 digits.reverse)
  | decimal {units : List UInt16} {digits : List Nat}
      (hdigits : List.Forall₂ (IsDigit 10) units digits) (hsome : 1 ≤ units.length)
      (hrange : Nat.ofDigits 10 digits.reverse ≤ 4294967295) :
      Denotes units (Nat.ofDigits 10 digits.reverse)

/-! ### Digits -/

theorem hexDigit?_eq_some_iff {u : UInt16} {digit : Nat} :
    hexDigit? u = some digit ↔ IsDigit 16 u digit := by
  -- all digits are among the first 103 units, which are gone through
  have hunits : ∀ code < 103, ∀ digit < 16,
      (hexDigit? (UInt16.ofNat code) = some digit ↔ IsDigit 16 (UInt16.ofNat code) digit) := by
    decide +kernel
  have hdigits : ∀ digit < 16,
      digit.digitChar.toNat < 103 ∧ digit.digitChar.toUpper.toNat < 103 := by decide
  have hunit (hcode : u.toNat < 103) (hdigit : digit < 16) :
      hexDigit? u = some digit ↔ IsDigit 16 u digit := by
    rw [← UInt16.ofNat_toNat (x := u)]
    exact hunits u.toNat hcode digit hdigit
  constructor
  · intro h
    have hbounds : u.toNat < 103 ∧ digit < 16 := by
      simp only [hexDigit?] at h
      split at h
      · cases h
        omega
      · split at h
        · cases h
          omega
        · split at h <;> cases h
          omega
    exact (hunit hbounds.1 hbounds.2).mp h
  · intro h
    obtain ⟨hdigit, hcode⟩ := h
    have hbound : u.toNat < 103 := by
      have := hdigits digit hdigit
      omega
    exact (hunit hbound hdigit).mpr ⟨hdigit, hcode⟩

/-- Decimal digits are the hexadecimal ones below ten. -/
theorem decimalDigit?_eq_some_iff {u : UInt16} {digit : Nat} :
    decimalDigit? u = some digit ↔ IsDigit 10 u digit := by
  have hhex : decimalDigit? u = some digit ↔ hexDigit? u = some digit ∧ digit < 10 := by
    simp only [decimalDigit?, hexDigit?]
    constructor
    · intro h
      split at h
      next hcode =>
        cases h
        exact ⟨if_pos hcode, by omega⟩
      next => cases h
    · rintro ⟨h, hdigit⟩
      split at h
      next hcode => rw [if_pos hcode, h]
      next hcode =>
        split at h
        · cases h
          omega
        · split at h <;> cases h
          omega
  rw [hhex, hexDigit?_eq_some_iff, IsDigit, IsDigit]
  constructor
  · rintro ⟨⟨-, hcode⟩, hdigit⟩
    exact ⟨hdigit, hcode⟩
  · rintro ⟨hdigit, hcode⟩
    exact ⟨⟨by omega, hcode⟩, hdigit⟩

/-! ### Numerals -/

/-- The value of digits in positional notation. -/
theorem valueOf_eq (base : Nat) (digits : List Nat) :
    valueOf base digits = Nat.ofDigits base digits.reverse := by
  rw [Nat.ofDigits_eq_foldr, List.foldr_reverse, valueOf]
  congr 1
  funext value digit
  rw [Nat.cast_id, Nat.mul_comm, Nat.add_comm]

theorem mapM_eq_some_iff {digit? : UInt16 → Option Nat} {units : List UInt16} {digits : List Nat} :
    units.mapM digit? = some digits ↔
      List.Forall₂ (fun u digit => digit? u = some digit) units digits := by
  induction units generalizing digits with
  | nil => simp [eq_comm]
  | cons u units ih =>
    rw [List.mapM_cons]
    constructor
    · intro h
      obtain ⟨digit, hdigit, h⟩ := Option.bind_eq_some_iff.mp h
      obtain ⟨rest, hrest, h⟩ := Option.bind_eq_some_iff.mp h
      cases h
      exact .cons hdigit (ih.mp hrest)
    · intro h
      cases h with
      | cons hdigit hrest =>
        rw [hdigit, ih.mpr hrest]
        rfl

/-- A numeral is read exactly when all its units are digits and there are not too many. -/
theorem numeral?_eq_some_iff {base : Nat} {digit? : UInt16 → Option Nat} {limit : Option Nat}
    (hdigit : ∀ {u digit}, digit? u = some digit ↔ IsDigit base u digit) {units : List UInt16}
    {n : Nat} :
    numeral? base digit? limit units = some n ↔
      ∃ digits, List.Forall₂ (IsDigit base) units digits ∧ 1 ≤ units.length ∧
        (∀ most ∈ limit, units.length ≤ most) ∧ n = Nat.ofDigits base digits.reverse := by
  have hread {digits : List Nat} :
      units.mapM digit? = some digits ↔ List.Forall₂ (IsDigit base) units digits := by
    rw [mapM_eq_some_iff]
    simp only [hdigit]
  have hlimit : ¬ (units.isEmpty = true ∨ limit.any (· < units.length) = true) ↔
      1 ≤ units.length ∧ ∀ most ∈ limit, units.length ≤ most := by
    rw [not_or, List.isEmpty_iff, ← List.length_eq_zero_iff]
    refine and_congr (by omega) ?_
    cases limit <;> simp
  rw [numeral?]
  split
  next hcut =>
    constructor
    · intro h
      cases h
    · rintro ⟨digits, -, hsome, hfew, -⟩
      exact absurd hcut (hlimit.mpr ⟨hsome, hfew⟩)
  next hcut =>
    obtain ⟨hsome, hfew⟩ := hlimit.mp hcut
    rw [Option.map_eq_some_iff]
    simp only [hread, valueOf_eq]
    constructor
    · rintro ⟨digits, hdigits, rfl⟩
      exact ⟨digits, hdigits, hsome, hfew, rfl⟩
    · rintro ⟨digits, hdigits, -, -, rfl⟩
      exact ⟨digits, hdigits, rfl⟩

/-- The mark of hexadecimal digits is no decimal digit. -/
theorem not_isDigit_mark {mark : UInt16} (hmark : mark = 0x78 ∨ mark = 0x58) (digit : Nat) :
    ¬ IsDigit 10 mark digit := by
  rintro ⟨hdigit, hcode⟩
  have hdigits : ∀ digit < 10, digit.digitChar.toNat < 0x58 ∧
      digit.digitChar.toUpper.toNat < 0x58 := by decide
  have hbound := hdigits digit hdigit
  rcases hmark with rfl | rfl <;> simp only [UInt16.reduceToNat] at hcode <;> omega

theorem ofDigits_lt {base : Nat} {units : List UInt16} {digits : List Nat} (hbase : 1 < base)
    (h : List.Forall₂ (IsDigit base) units digits) :
    Nat.ofDigits base digits.reverse < base ^ units.length := by
  have hdigits : ∀ digit ∈ digits, digit < base := by
    induction h with
    | nil => exact fun digit hdigit => nomatch hdigit
    | cons hhead _ ih => exact List.forall_mem_cons.mpr ⟨hhead.1, ih⟩
  have hlt := Nat.ofDigits_lt_base_pow_length hbase
    fun digit hdigit => hdigits digit (List.mem_reverse.mp hdigit)
  rwa [List.length_reverse, ← h.length_eq] at hlt

/-- Exactly the units that denote a number are read as a number of at most 32 bits. -/
theorem number?_eq_some_iff {units : List UInt16} {n : Nat} :
    number? units = some n ∧ n < 4294967296 ↔ Denotes units n := by
  have hhex {units : List UInt16} {n : Nat} : numeral? 16 hexDigit? (some 8) units = some n ↔
      ∃ digits, List.Forall₂ (IsDigit 16) units digits ∧ 1 ≤ units.length ∧
        (∀ most ∈ some 8, units.length ≤ most) ∧ n = Nat.ofDigits 16 digits.reverse :=
    numeral?_eq_some_iff hexDigit?_eq_some_iff
  constructor
  · rintro ⟨h, hrange⟩
    unfold number? at h
    split at h
    · obtain ⟨digits, hdigits, hsome, hfew, rfl⟩ := hhex.mp h
      exact .hexadecimal (.inl rfl) hdigits hsome (hfew 8 rfl)
    · obtain ⟨digits, hdigits, hsome, hfew, rfl⟩ := hhex.mp h
      exact .hexadecimal (.inr rfl) hdigits hsome (hfew 8 rfl)
    · obtain ⟨digits, hdigits, hsome, -, rfl⟩ :=
        (numeral?_eq_some_iff decimalDigit?_eq_some_iff).mp h
      exact .decimal hdigits hsome (by omega)
  · intro h
    cases h with
    | @hexadecimal mark units digits hmark hdigits hsome hfew =>
      have hread := hhex.mpr ⟨digits, hdigits, hsome, by simpa using hfew, rfl⟩
      refine ⟨?_, ?_⟩
      · rcases hmark with rfl | rfl <;> exact hread
      · calc
          Nat.ofDigits 16 digits.reverse < 16 ^ units.length := ofDigits_lt (by decide) hdigits
          _ ≤ 16 ^ 8 := Nat.pow_le_pow_right (by decide) hfew
    | @decimal _ digits hdigits hsome hrange =>
      refine ⟨?_, by omega⟩
      unfold number?
      split
      · cases hdigits with
        | cons _ hrest =>
          cases hrest with
          | cons hmark _ => exact absurd hmark (not_isDigit_mark (.inl rfl) _)
      · cases hdigits with
        | cons _ hrest =>
          cases hrest with
          | cons hmark _ => exact absurd hmark (not_isDigit_mark (.inr rfl) _)
      · exact (numeral?_eq_some_iff decimalDigit?_eq_some_iff).mpr
          ⟨digits, hdigits, hsome, by simp, rfl⟩

/-- Rounding decides nothing: the id is the number itself, when it has at most 32 bits. -/
theorem ofText?_eq_some_iff {text : Text} {n : Nat} :
    ofText? text = some n ↔
      number? (text.strip Text.isWhiteSpace).units = some n ∧ n < 4294967296 := by
  rw [ofText?]
  cases hnumber : number? (text.strip Text.isWhiteSpace).units with
  | none => simp
  | some number =>
    simp only [Binary64.exceeds_ofNat number (show 0xffffffff < 2 ^ 53 by decide)]
    by_cases hrange : number < 4294967296
    · have hword := Binary64.word_ofNat (show number < 2 ^ 53 by omega)
      rw [Nat.mod_eq_of_lt hrange] at hword
      rw [if_neg (by simp; omega), hword]
      simp only [Option.some.injEq]
      constructor
      · rintro rfl
        exact ⟨rfl, hrange⟩
      · rintro ⟨rfl, -⟩
        rfl
    · rw [if_pos (by simp; omega)]
      constructor
      · intro h
        cases h
      · rintro ⟨h, hn⟩
        cases h
        exact absurd hn hrange

/-! ### Units that denote a number -/

/-- No unit of them is white space, so white space around them is told from them. -/
theorem Denotes.not_isWhiteSpace {units : List UInt16} {n : Nat} (h : Denotes units n) :
    ∀ u ∈ units, Text.isWhiteSpace u = false := by
  have hdigits : ∀ digit < 16,
      Text.isWhiteSpace (UInt16.ofNat digit.digitChar.toNat) = false ∧
        Text.isWhiteSpace (UInt16.ofNat digit.digitChar.toUpper.toNat) = false := by decide
  have hdigit {base : Nat} (hbase : base ≤ 16) {units : List UInt16} {digits : List Nat}
      (h : List.Forall₂ (IsDigit base) units digits) :
      ∀ u ∈ units, Text.isWhiteSpace u = false := by
    induction h with
    | nil => exact fun u hu => nomatch hu
    | @cons u digit units digits hhead _ ih =>
      refine List.forall_mem_cons.mpr ⟨?_, ih⟩
      obtain ⟨hlt, hcode⟩ := hhead
      obtain ⟨hlower, hupper⟩ := hdigits digit (by omega)
      rcases hcode with hcode | hcode
      · rwa [← hcode, UInt16.ofNat_toNat] at hlower
      · rwa [← hcode, UInt16.ofNat_toNat] at hupper
  cases h with
  | hexadecimal hmark hunits hsome hfew =>
    refine List.forall_mem_cons.mpr ⟨by decide, List.forall_mem_cons.mpr ⟨?_, ?_⟩⟩
    · rcases hmark with rfl | rfl <;> decide
    · exact hdigit (Nat.le_refl 16) hunits
  | decimal hunits hsome hrange => exact hdigit (by decide) hunits

/-- A text is read exactly when what is left of it without the white space around it denotes a
number. -/
theorem ofText?_iff_denotes {text : Text} {n : Nat} :
    ofText? text = some n ↔
      ∃ inner, Text.Trims Text.isWhiteSpace text inner ∧ Denotes inner.units n := by
  rw [ofText?_eq_some_iff, number?_eq_some_iff]
  simp only [Text.trims_iff, exists_eq_left]

theorem ofText?_of_denotes {units before after : List UInt16} {n : Nat} (h : Denotes units n)
    (hbefore : ∀ u ∈ before, Text.isWhiteSpace u = true)
    (hafter : ∀ u ∈ after, Text.isWhiteSpace u = true) :
    ofText? ⟨before ++ units ++ after⟩ = some n := by
  refine ofText?_iff_denotes.mpr ⟨⟨units⟩, ⟨⟨before, after, rfl, hbefore, hafter⟩, ?_, ?_⟩, h⟩
  · exact fun u hu => h.not_isWhiteSpace u (List.mem_of_mem_head? hu)
  · exact fun u hu => h.not_isWhiteSpace u (List.mem_of_mem_getLast? hu)

/-! ### Written ids -/

/-- The upper case of a letter, and any other unit as it is. -/
def upperCase (u : UInt16) : UInt16 := if 0x61 ≤ u ∧ u ≤ 0x7A then u - 0x20 else u

/-- The units are the same but for the case of letters, which may be raised in some of them. -/
abbrev RaisedCase : List UInt16 → List UInt16 → Prop :=
  List.Forall₂ fun u raised => raised = u ∨ raised = upperCase u

/-- Digits are told in either case. -/
theorem forall₂_isDigit_of_raisedCase {digits : List Nat} (hdigits : ∀ digit ∈ digits, digit < 16)
    {units : List UInt16}
    (h : RaisedCase (Text.ofChars (digits.map Nat.digitChar)).units units) :
    List.Forall₂ (IsDigit 16) units digits := by
  have hchars : ∀ digit < 16, Text.unitsOfChar digit.digitChar =
      [UInt16.ofNat digit.digitChar.toNat] ∧
      IsDigit 16 (UInt16.ofNat digit.digitChar.toNat) digit ∧
      IsDigit 16 (upperCase (UInt16.ofNat digit.digitChar.toNat)) digit := by decide
  induction digits generalizing units with
  | nil =>
    cases h
    exact .nil
  | cons digit digits ih =>
    obtain ⟨hdigit, hrest⟩ := List.forall_mem_cons.mp hdigits
    obtain ⟨hunits, hlower, hupper⟩ := hchars digit hdigit
    rw [List.map_cons, Text.units_ofChars, List.flatMap_cons, hunits, List.singleton_append] at h
    cases h with
    | cons hhead htail =>
      refine .cons ?_ (ih hrest htail)
      rcases hhead with rfl | rfl
      · exact hlower
      · exact hupper

/-- The text that is written for an id denotes it, in whatever case its letters are. -/
theorem denotes_toText (id : Int) {units : List UInt16} (h : RaisedCase (toText id).units units) :
    Denotes units (id % 4294967296).toNat := by
  have hword : Numeral.word id < 4294967296 := by
    unfold Numeral.word
    omega
  obtain ⟨digits, hdigits, hlt, hlength, hvalue⟩ := Numeral.exists_hexPadded (by decide : 0 < 8) hword
  have hunits : (toText id).units =
      0x30 :: 0x78 :: (Text.ofChars (digits.map Nat.digitChar)).units := by
    rw [toText, hdigits]
    rfl
  rw [hunits] at h
  cases h with
  | @cons _ zero _ rest hzero h =>
    cases h with
    | @cons _ mark _ rest hmark h =>
      have hrest := forall₂_isDigit_of_raisedCase hlt h
      have hcount := hrest.length_eq
      obtain rfl : zero = 0x30 := by simpa [upperCase] using hzero
      rw [← show Numeral.word id = (id % 4294967296).toNat from rfl, ← hvalue]
      exact .hexadecimal (by simpa [upperCase] using hmark) hrest (by omega) (by omega)

/-- The text of an id. A text is read as a number exactly when, without the white space around it,
it is `0x` or `0X` with one to eight hexadecimal digits of either case behind it, or is made of
decimal digits whose value has at most 32 bits, and then it is read as their value. The text that is
written for an integer is read as its remainder, with white space around it or not and with its
letters in either case. -/
theorem reads_denoted_and_written :
    (∀ text n, ofText? text = some n ↔
      ∃ inner, Text.Trims Text.isWhiteSpace text inner ∧ Denotes inner.units n) ∧
    ∀ (id : Int) (before after units : List UInt16),
      (∀ u ∈ before, Text.isWhiteSpace u = true) → (∀ u ∈ after, Text.isWhiteSpace u = true) →
      RaisedCase (toText id).units units →
        ofText? ⟨before ++ units ++ after⟩ = some (id % 4294967296).toNat :=
  ⟨fun _ _ => ofText?_iff_denotes, fun id _ _ _ hbefore hafter hunits =>
    ofText?_of_denotes (denotes_toText id hunits) hbefore hafter⟩

theorem reads_denoted_and_written_minusOne :
    (∃ inner, Text.Trims Text.isWhiteSpace "\t0004294967295 " inner ∧
      Denotes inner.units 4294967295) ∧
    ofText? ⟨[0x0A] ++ ("0xFfFFfFFF" : Text).units ++ [0x3000]⟩ = some 4294967295 :=
  ⟨(reads_denoted_and_written.1 "\t0004294967295 " 4294967295).mp (by decide +kernel),
    (reads_denoted_and_written.2 (-1) [0x0A] [0x3000] ("0xFfFFfFFF" : Text).units
      (List.forall_mem_singleton.mpr rfl) (List.forall_mem_singleton.mpr rfl)
      (by decide +kernel)).trans rfl⟩

end ResourceId
end CompiledResources
