import CompiledResources.Binary64
import Mathlib.Algebra.Group.Nat.Defs

/-!
What rounding keeps. A product with at most 53 bits whose exponent is neither too small nor too
large is kept as it is, so natural numbers below 2^53 are; a greater natural number rounds to a
number that is not below 2^53.
-/

namespace CompiledResources.Binary64

/-- The fields that stand for a finite number are read as it. -/
theorem meaning_ofMagnitude (negative : Bool) {biased fraction : Nat} (hbiased : biased < 2047)
    (hfraction : fraction < 2 ^ 52) :
    (ofMagnitude negative (biased * 2 ^ 52 + fraction)).meaning =
      if biased = 0 then .finite negative fraction leastExponent
      else .finite negative (2 ^ 52 + fraction) ((biased : Int) - 1075) := by
  let bits := (if negative then 2 ^ 63 else 0) + (biased * 2 ^ 52 + fraction)
  have hmagnitude : biased * 2 ^ 52 + fraction < 2 ^ 63 := by omega
  have hbits : (ofMagnitude negative (biased * 2 ^ 52 + fraction)).bits.toNat = bits := by
    rw [ofMagnitude, UInt64.toNat_ofNat', Nat.mod_eq_of_lt]
    · rfl
    · simp only [Nat.reduceShiftLeft]
      split <;> omega
  have hnegative : bits.testBit 63 = negative := by
    cases negative <;>
      simp only [bits, Nat.testBit_eq_decide_div_mod_eq, if_true, Bool.false_eq_true, if_false] <;>
      simp only [decide_eq_true_eq, decide_eq_false_iff_not] <;> omega
  have hexponent : (bits >>> 52) % 2048 = biased := by
    rw [Nat.shiftRight_eq_div_pow]
    simp only [bits]
    split <;> omega
  have hrest : bits % (1 <<< 52) = fraction := by
    simp only [bits, Nat.reduceShiftLeft]
    split <;> omega
  simp only [meaning, hbits, hnegative, hexponent, hrest]
  rw [if_neg (Nat.ne_of_lt hbiased)]
  rfl

/-! ### Products with at most 53 bits -/

section Exact

variable {mantissa : Nat}

theorem log2_le_of_lt (hbits : mantissa < 2 ^ 53) : mantissa.log2 ≤ 52 := by
  rcases Nat.eq_zero_or_pos mantissa with rfl | hpos
  · decide
  · exact Nat.le_of_lt_succ ((Nat.log2_lt (Nat.ne_of_gt hpos)).mpr hbits)

/-- A mantissa that is moved up to 53 bits has exactly these. -/
theorem moved_bounds (hpos : 0 < mantissa) (hbits : mantissa < 2 ^ 53) :
    2 ^ 52 ≤ mantissa <<< (52 - mantissa.log2) ∧ mantissa <<< (52 - mantissa.log2) < 2 ^ 53 := by
  have hlog := log2_le_of_lt hbits
  have hlow : 2 ^ mantissa.log2 ≤ mantissa := Nat.log2_self_le (Nat.ne_of_gt hpos)
  have hhigh : mantissa < 2 ^ (mantissa.log2 + 1) := Nat.lt_log2_self
  rw [Nat.shiftLeft_eq]
  constructor
  · calc
      2 ^ 52 = 2 ^ mantissa.log2 * 2 ^ (52 - mantissa.log2) := by
        rw [← Nat.pow_add, Nat.add_sub_cancel' hlog]
      _ ≤ mantissa * 2 ^ (52 - mantissa.log2) := Nat.mul_le_mul_right _ hlow
  · calc
      mantissa * 2 ^ (52 - mantissa.log2) < 2 ^ (mantissa.log2 + 1) * 2 ^ (52 - mantissa.log2) :=
        Nat.mul_lt_mul_of_pos_right hhigh (Nat.two_pow_pos _)
      _ = 2 ^ 53 := by
        rw [← Nat.pow_add]
        congr 1
        omega

/-- A product with at most 53 bits is kept, its mantissa moved up to 53 bits, when its exponent is
neither too small nor too large. -/
theorem meaning_ofDyadic (negative : Bool) {exponent : Int} (hpos : 0 < mantissa)
    (hbits : mantissa < 2 ^ 53) (hlow : leastExponent ≤ exponent + mantissa.log2 - 52)
    (hhigh : exponent + mantissa.log2 ≤ 1023) :
    (ofDyadic negative mantissa exponent).meaning =
      .finite negative (mantissa <<< (52 - mantissa.log2)) (exponent + mantissa.log2 - 52) := by
  have hlog := log2_le_of_lt hbits
  obtain ⟨hleast, hgreatest⟩ := moved_bounds hpos hbits
  have hlowest : max (exponent + mantissa.log2 - 52) leastExponent =
      exponent + mantissa.log2 - 52 := Int.max_eq_left hlow
  have hmoved : (exponent - (exponent + mantissa.log2 - 52)).toNat = 52 - mantissa.log2 := by omega
  have hkept : exponent + mantissa.log2 - 52 ≤ exponent := by omega
  -- The leading bit of the mantissa carries one into the exponent field.
  let biased := (exponent + mantissa.log2 + 1023).toNat
  obtain ⟨fraction, hfraction⟩ := Nat.exists_eq_add_of_le hleast
  have hmagnitude :
      ((exponent + mantissa.log2 - 52 - leastExponent).toNat <<< 52) +
        mantissa <<< (52 - mantissa.log2) = biased * 2 ^ 52 + fraction := by
    rw [hfraction, Nat.shiftLeft_eq]
    unfold leastExponent at *
    omega
  have hnormal : 0 < biased ∧ biased < 2047 := by
    unfold leastExponent at hlow
    omega
  have hfinite : ¬ endOfFinite ≤ biased * 2 ^ 52 + fraction := by
    simp only [endOfFinite, Nat.reduceShiftLeft]
    omega
  simp only [ofDyadic, hlowest]
  rw [if_neg (Nat.ne_of_gt hpos), if_pos hkept, hmoved, hmagnitude, if_neg hfinite,
    meaning_ofMagnitude negative hnormal.2 (by omega), if_neg (Nat.ne_of_gt hnormal.1), hfraction]
  congr 1
  omega

end Exact

/-! ### Natural numbers -/

/-- Rounding to 53 bits gives at least the least number that has as many. -/
theorem le_roundShift {m : Nat} (hm : 2 ^ 53 ≤ m) : 2 ^ 52 ≤ roundShift m (m.log2 - 52) := by
  have hpos : m ≠ 0 := by omega
  have hlog : 53 ≤ m.log2 := (Nat.le_log2 hpos).mpr hm
  have hwhole : 2 ^ 52 ≤ m / 1 <<< (m.log2 - 52) := by
    rw [Nat.shiftLeft_eq, Nat.one_mul, Nat.le_div_iff_mul_le (Nat.two_pow_pos _), ← Nat.pow_add,
      Nat.add_sub_cancel' (Nat.le_of_succ_le hlog)]
    exact Nat.log2_self_le hpos
  simp only [roundShift]
  split
  · exact Nat.le_succ_of_le hwhole
  · exact hwhole

/-- A finite magnitude with so large an exponent stands for at least 2^53. -/
theorem exceeds_ofMagnitude {magnitude bound : Nat} (hlow : 1076 * 2 ^ 52 ≤ magnitude)
    (hhigh : magnitude < endOfFinite) (hbound : bound < 2 ^ 53) :
    (ofMagnitude false magnitude).exceeds bound = true := by
  have hbiased : 1076 ≤ magnitude / 2 ^ 52 ∧ magnitude / 2 ^ 52 < 2047 := by
    simp only [endOfFinite, Nat.reduceShiftLeft] at hhigh
    omega
  have hmeaning := meaning_ofMagnitude false hbiased.2 (Nat.mod_lt magnitude (Nat.two_pow_pos 52))
  rw [Nat.div_add_mod', if_neg (by omega)] at hmeaning
  obtain ⟨places, hplaces⟩ : ∃ places : Nat, magnitude / 2 ^ 52 = 1076 + places :=
    Nat.exists_eq_add_of_le hbiased.1
  have hexponent : ((magnitude / 2 ^ 52 : Nat) : Int) - 1075 = ((places + 1 : Nat) : Int) := by
    omega
  have hvalue : bound < (2 ^ 52 + magnitude % 2 ^ 52) * 2 ^ (places + 1) := by
    calc
      bound < 2 ^ 52 * 2 ^ 1 := hbound
      _ ≤ (2 ^ 52 + magnitude % 2 ^ 52) * 2 ^ (places + 1) :=
        Nat.mul_le_mul (Nat.le_add_right _ _)
          (Nat.pow_le_pow_right (by decide) (Nat.le_add_left 1 _))
  rw [exceeds, hmeaning]
  simp only [hexponent, Int.toNat_natCast, Int.toNat_neg_natCast, Nat.shiftLeft_eq, Nat.pow_zero,
    Nat.mul_one, Bool.not_false, Bool.true_and, decide_eq_true_eq]
  exact hvalue

/-- A natural number above 53 bits rounds to infinity or to at least 2^53. -/
theorem exceeds_ofNat_of_le {m bound : Nat} (hm : 2 ^ 53 ≤ m) (hbound : bound < 2 ^ 53) :
    (ofNat m).exceeds bound = true := by
  have hpos : m ≠ 0 := by omega
  have hlog : 53 ≤ m.log2 := (Nat.le_log2 hpos).mpr hm
  have hrounded := le_roundShift hm
  let magnitude := (m.log2 + 1022) * 2 ^ 52 + roundShift m (m.log2 - 52)
  have hlowest : max ((0 : Int) + m.log2 - 52) leastExponent = ((m.log2 - 52 : Nat) : Int) := by
    unfold leastExponent
    omega
  have hbiased : (((m.log2 - 52 : Nat) : Int) - leastExponent).toNat = m.log2 + 1022 := by
    unfold leastExponent
    omega
  have hrounds : ¬ ((m.log2 - 52 : Nat) : Int) ≤ 0 := by omega
  have hofNat : ofNat m =
      if endOfFinite ≤ magnitude then infinity false else ofMagnitude false magnitude := by
    simp only [ofNat, ofDyadic, hlowest]
    rw [if_neg hpos, if_neg hrounds, Int.sub_zero, Int.toNat_natCast, hbiased, Nat.shiftLeft_eq]
  rw [hofNat]
  split
  next =>
    have hinfinite : (infinity false).meaning = .infinite false := by decide
    rw [exceeds, hinfinite]
    rfl
  next hfinite =>
    refine exceeds_ofMagnitude ?_ (Nat.lt_of_not_le hfinite) hbound
    simp only [magnitude]
    omega

/-- A natural number below 2^53 is kept. -/
theorem meaning_ofNat {n : Nat} (hpos : 0 < n) (hbits : n < 2 ^ 53) :
    (ofNat n).meaning = .finite false (n <<< (52 - n.log2)) (-((52 - n.log2 : Nat) : Int)) := by
  have hlog := log2_le_of_lt hbits
  rw [ofNat, meaning_ofDyadic false hpos hbits (by unfold leastExponent; omega) (by omega)]
  congr 1
  omega

/-- Whether a natural number rounds to more than a bound below 2^53 is decided by the number
itself. -/
theorem exceeds_ofNat (n : Nat) {bound : Nat} (hbound : bound < 2 ^ 53) :
    (ofNat n).exceeds bound = decide (bound < n) := by
  rcases Nat.eq_zero_or_pos n with rfl | hpos
  · have hzero : (ofNat 0).meaning = .finite false 0 leastExponent := by decide
    simp [exceeds, hzero]
  · by_cases hbits : n < 2 ^ 53
    · simp only [exceeds, meaning_ofNat hpos hbits, Int.neg_neg, Int.toNat_natCast,
        Int.toNat_neg_natCast, Nat.shiftLeft_eq, Nat.pow_zero, Nat.mul_one, Bool.not_false,
        Bool.true_and, Nat.mul_lt_mul_right (Nat.two_pow_pos _)]
    · rw [exceeds_ofNat_of_le (Nat.le_of_not_lt hbits) hbound]
      exact (decide_eq_true (by omega)).symm

/-- A natural number below 2^53 keeps its low bits. -/
theorem word_ofNat {n : Nat} (hbits : n < 2 ^ 53) : (ofNat n).word = n % 4294967296 := by
  rcases Nat.eq_zero_or_pos n with rfl | hpos
  · decide
  · simp only [word, meaning_ofNat hpos hbits, Int.neg_neg, Int.toNat_natCast,
      Int.toNat_neg_natCast, Nat.shiftLeft_zero, Nat.shiftLeft_shiftRight, Bool.false_eq_true,
      if_false]
    omega

end CompiledResources.Binary64
