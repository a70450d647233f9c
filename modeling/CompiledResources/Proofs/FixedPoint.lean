import CompiledResources.Proofs.Rounding
import CompiledResources.Value
import Mathlib.Algebra.Field.Rat
import Mathlib.Algebra.GroupWithZero.Units.Lemmas
import Mathlib.Tactic.Ring

/-!
Fixed-point numbers as floating-point numbers. A word holds a mantissa of 24 bits and says how many
of its bits are behind the point; the floating-point number that is made of it has exactly that
value, and computing it as a product of floating-point numbers rounds nothing.
-/

namespace CompiledResources

namespace Binary64

/-! ### Exact values -/

/-- The number that a finite floating-point number stands for. -/
def value? (x : Binary64) : Option ℚ :=
  match x.meaning with
  | .finite negative mantissa exponent =>
    some ((if negative then -(mantissa : ℚ) else mantissa) * 2 ^ exponent)
  | .notANumber | .infinite _ => none

variable {a b : Nat} {e e' : Int}

theorem meaning_ofDyadic_zero (negative : Bool) (exponent : Int) :
    (ofDyadic negative 0 exponent).meaning = .finite negative 0 leastExponent := by
  rw [ofDyadic, if_pos rfl]
  cases negative <;> decide

/-- A product with at most 53 bits and a moderate exponent keeps its value. -/
theorem value?_ofDyadic (negative : Bool) (ha : a < 2 ^ 53) (he : -1022 ≤ e ∧ e ≤ 971) :
    (ofDyadic negative a e).value? = some ((if negative then -(a : ℚ) else a) * 2 ^ e) := by
  rcases Nat.eq_zero_or_pos a with rfl | hpos
  · rw [value?, meaning_ofDyadic_zero]
    simp
  · have hlog := log2_le_of_lt ha
    have hplaces : (2 : ℚ) ^ (52 - a.log2) * 2 ^ (e + a.log2 - 52) = 2 ^ e := by
      rw [← zpow_natCast, ← zpow_add₀ two_ne_zero]
      congr 1
      omega
    rw [value?, meaning_ofDyadic negative hpos ha (by unfold leastExponent; omega) (by omega)]
    simp only [Nat.shiftLeft_eq, Nat.cast_mul, Nat.cast_pow, Nat.cast_ofNat, ← neg_mul, ← ite_mul,
      mul_assoc, hplaces]

/-! ### Exact products -/

theorem log2_mul_two_pow (ha : a ≠ 0) (places : Nat) :
    (a * 2 ^ places).log2 = a.log2 + places := by
  have hlow : 2 ^ a.log2 ≤ a := Nat.log2_self_le ha
  have hhigh : a < 2 ^ (a.log2 + 1) := Nat.lt_log2_self
  have hpos := Nat.two_pow_pos places
  rw [Nat.log2_eq_iff (Nat.mul_ne_zero ha (Nat.ne_of_gt hpos)), Nat.add_right_comm, Nat.pow_add,
    Nat.pow_add 2 (a.log2 + 1)]
  exact ⟨Nat.mul_le_mul_right _ hlow, Nat.mul_lt_mul_of_pos_right hhigh hpos⟩

/-- Places that hold only zeros are cut off without rounding. -/
theorem roundShift_mul (whole places : Nat) : roundShift (whole * 2 ^ places) places = whole := by
  have hpos := Nat.two_pow_pos places
  have hrest : ¬ (2 ^ places < 0 ∨ 0 = 2 ^ places ∧ whole % 2 = 1) := by omega
  simp only [roundShift, Nat.shiftLeft_eq, Nat.one_mul, Nat.mul_mod_left, Nat.mul_zero,
    Nat.mul_div_cancel _ hpos, if_neg hrest]

/-- A mantissa with at most 53 bits and zeros behind them is moved to where its leading bit is the
implicit one. -/
theorem ofDyadic_moved (negative : Bool) (hpos : 0 < a) (ha : a < 2 ^ 53) (places : Nat)
    (he : -1022 ≤ e + places) :
    ofDyadic negative (a * 2 ^ places) e =
      let magnitude := ((e + places + a.log2 - 52 - leastExponent).toNat <<< 52) +
        a <<< (52 - a.log2)
      if endOfFinite ≤ magnitude then infinity negative else ofMagnitude negative magnitude := by
  have hne := Nat.ne_of_gt hpos
  have hlog := log2_le_of_lt ha
  have hmoved : a * 2 ^ places ≠ 0 := Nat.mul_ne_zero hne (Nat.ne_of_gt (Nat.two_pow_pos _))
  have hlowest : max (e + ((a.log2 + places : Nat) : Int) - 52) leastExponent =
      e + places + a.log2 - 52 := by
    unfold leastExponent
    omega
  have hkept : (if e + places + a.log2 - 52 ≤ e then
        (a * 2 ^ places) <<< (e - (e + places + a.log2 - 52)).toNat
      else roundShift (a * 2 ^ places) (e + places + a.log2 - 52 - e).toNat) =
      a <<< (52 - a.log2) := by
    rw [Nat.shiftLeft_eq, Nat.shiftLeft_eq]
    split
    next hle =>
      rw [Nat.mul_assoc, ← Nat.pow_add]
      congr 2
      omega
    next hlt =>
      have hsplit : places = (52 - a.log2) + (e + places + a.log2 - 52 - e).toNat := by omega
      calc
        roundShift (a * 2 ^ places) (e + places + a.log2 - 52 - e).toNat
          = roundShift (a * 2 ^ (52 - a.log2) * 2 ^ (e + places + a.log2 - 52 - e).toNat)
              (e + places + a.log2 - 52 - e).toNat := by
            rw [Nat.mul_assoc, ← Nat.pow_add, ← hsplit]
        _ = a * 2 ^ (52 - a.log2) := roundShift_mul _ _
  simp only [ofDyadic, if_neg hmoved, log2_mul_two_pow hne, hlowest, hkept]

/-- Zeros at the end of a mantissa stand for places of the exponent. -/
theorem ofDyadic_mul_two_pow (negative : Bool) (ha : a < 2 ^ 53) {places : Nat}
    (he : -1022 ≤ e + places) :
    ofDyadic negative (a * 2 ^ places) e = ofDyadic negative a (e + places) := by
  rcases Nat.eq_zero_or_pos a with rfl | hpos
  · rw [Nat.zero_mul, ofDyadic, ofDyadic, if_pos rfl, if_pos rfl]
  · have hbare := ofDyadic_moved (e := e + places) negative hpos ha 0 (by omega)
    rw [Nat.pow_zero, Nat.mul_one] at hbare
    rw [ofDyadic_moved negative hpos ha places he, hbare, Int.natCast_zero, Int.add_zero]

/-- The number nearest to an integer. -/
def ofInt (n : Int) : Binary64 := ofDyadic (n < 0) n.natAbs 0

/-- The product of two numbers, rounded. -/
def mul (x y : Binary64) : Binary64 :=
  match x.meaning, y.meaning with
  | .finite n a e, .finite n' b e' => ofDyadic (n != n') (a * b) (e + e')
  | .infinite n, .infinite n' => infinity (n != n')
  | .infinite n, .finite n' b _ => if b = 0 then nan else infinity (n != n')
  | .finite n a _, .infinite n' => if a = 0 then nan else infinity (n != n')
  | .notANumber, _ | _, .notANumber => nan

/-- Numbers whose product has at most 53 bits are multiplied without rounding. -/
theorem mul_ofDyadic (n n' : Bool) (ha : a < 2 ^ 53) (hb : b < 2 ^ 53) (hab : a * b < 2 ^ 53)
    (he : -1022 ≤ e ∧ e ≤ 971) (he' : -1022 ≤ e' ∧ e' ≤ 971) (hsum : -1022 ≤ e + e') :
    mul (ofDyadic n a e) (ofDyadic n' b e') = ofDyadic (n != n') (a * b) (e + e') := by
  have hfactor (negative : Bool) {a : Nat} {e : Int} (ha : a < 2 ^ 53)
      (he : -1022 ≤ e ∧ e ≤ 971) :
      ∃ places : Nat, ∃ exponent, (ofDyadic negative a e).meaning =
        .finite negative (a * 2 ^ places) exponent ∧ (a ≠ 0 → exponent + places = e) := by
    rcases Nat.eq_zero_or_pos a with rfl | hpos
    · exact ⟨0, leastExponent, by rw [meaning_ofDyadic_zero]; rfl, fun h => absurd rfl h⟩
    · have hlog := log2_le_of_lt ha
      refine ⟨52 - a.log2, e + a.log2 - 52, ?_, fun _ => by omega⟩
      rw [meaning_ofDyadic negative hpos ha (by unfold leastExponent; omega) (by omega),
        Nat.shiftLeft_eq]
  obtain ⟨places, exponent, hmeaning, hexponent⟩ := hfactor n ha he
  obtain ⟨places', exponent', hmeaning', hexponent'⟩ := hfactor n' hb he'
  have hproduct : a * 2 ^ places * (b * 2 ^ places') = a * b * 2 ^ (places + places') := by
    rw [Nat.pow_add]
    ring
  rw [mul, hmeaning, hmeaning']
  dsimp only
  rw [hproduct]
  by_cases hzero : a * b = 0
  · rw [hzero, Nat.zero_mul, ofDyadic, ofDyadic, if_pos rfl, if_pos rfl]
  · have hne : a ≠ 0 ∧ b ≠ 0 := by
      constructor
      · rintro rfl
        exact hzero (Nat.zero_mul b)
      · rintro rfl
        exact hzero rfl
    have hplaces := hexponent hne.1
    have hplaces' := hexponent' hne.2
    rw [ofDyadic_mul_two_pow _ hab (by omega)]
    congr 1
    omega

/-- A number of mantissa zero has no sign when it is made without one. -/
theorem meaning_ofDyadic_ne_negativeZero (ha : a < 2 ^ 53) (he : -1022 ≤ e ∧ e ≤ 971)
    {negative : Bool} (hsign : negative = true → 0 < a) (exponent : Int) :
    (ofDyadic negative a e).meaning ≠ .finite true 0 exponent := by
  rcases Nat.eq_zero_or_pos a with rfl | hpos
  · have hpositive : negative = false := by
      cases negative with
      | false => rfl
      | true => exact absurd (hsign rfl) (Nat.lt_irrefl 0)
    rw [meaning_ofDyadic_zero, hpositive]
    intro h
    cases h
  · have hlog := log2_le_of_lt ha
    rw [meaning_ofDyadic negative hpos ha (by unfold leastExponent; omega) (by omega)]
    intro h
    have hleast := (moved_bounds hpos ha).1
    rw [(Meaning.finite.inj h).2.1] at hleast
    exact absurd hleast (by decide)

end Binary64

/-! ### Words -/

namespace FixedPoint

open Binary64

/-- The mantissa of a word: bits 8 to 31, in two's complement. -/
def mantissa (word : Int) : BitVec 24 := (BitVec.ofInt 32 word).extractLsb' 8 24

/-- The selector of a word: bits 4 and 5. -/
def radix (word : Int) : BitVec 2 := (BitVec.ofInt 32 word).extractLsb' 4 2

/-- How many bits of the mantissa a selector puts behind the point. -/
def places (radix : BitVec 2) : Nat :=
  match radix.toNat with
  | 0 => 0
  | 1 => 7
  | 2 => 15
  | _ => 23

/-- The number that a word encodes. -/
def quantity (word : Int) : ℚ := (mantissa word).toInt / 2 ^ places (radix word)

/-- The multiplier of a selector, for a mantissa that stands eight bits too high. -/
def multiplier (radix : BitVec 2) : Binary64 := ofDyadic false 1 (-(places radix + 8 : Nat))

theorem places_le (radix : BitVec 2) : places radix ≤ 23 := by
  unfold places
  split <;> decide

theorem toInt_mantissa (word : Int) : (mantissa word).toInt = (word / 256).bmod 0x1000000 := by
  rw [BitVec.toInt_eq_toNat_bmod, mantissa, BitVec.extractLsb'_toNat, BitVec.toNat_ofInt,
    Nat.shiftRight_eq_div_pow]
  simp only [Int.bmod_def]
  omega

theorem toNat_radix (word : Int) : (radix word).toNat = (word / 16 % 4).toNat := by
  rw [radix, BitVec.extractLsb'_toNat, BitVec.toNat_ofInt, Nat.shiftRight_eq_div_pow]
  omega

theorem bounds_mantissa (word : Int) :
    -2 ^ 23 ≤ (mantissa word).toInt ∧ (mantissa word).toInt < 2 ^ 23 :=
  ⟨(mantissa word).le_toInt, (mantissa word).toInt_lt⟩

theorem natAbs_mantissa_le (word : Int) : (mantissa word).toInt.natAbs ≤ 2 ^ 23 := by
  have hbounds := bounds_mantissa word
  omega

/-- Masking a word leaves its mantissa eight bits too high. -/
theorem toInt_masked (word : Int) :
    (BitVec.ofInt 32 word &&& 0xffffff00#32).toInt = (mantissa word).toInt * 2 ^ 8 := by
  have hmask : 0xffffff00#32 = BitVec.allOnes 32 <<< 8 := rfl
  have hlt := (BitVec.ofInt 32 word).isLt
  rw [hmask, ← BitVec.shiftLeft_ushiftRight, BitVec.toInt_eq_toNat_bmod,
    BitVec.toInt_eq_toNat_bmod, mantissa, BitVec.extractLsb'_toNat, BitVec.toNat_shiftLeft,
    BitVec.toNat_ushiftRight, Nat.shiftLeft_eq, Nat.shiftRight_eq_div_pow]
  simp only [Int.bmod_def]
  omega

/-- Bits 0 to 3, 6 and 7 have no part in what a word encodes. -/
theorem fields_congr {word other : Int}
    (h : BitVec.ofInt 32 other &&& 0xffffff30#32 = BitVec.ofInt 32 word &&& 0xffffff30#32) :
    mantissa other = mantissa word ∧ radix other = radix word := by
  have hfields (word : Int) :
      (BitVec.ofInt 32 word &&& 0xffffff30#32).extractLsb' 8 24 = mantissa word ∧
        (BitVec.ofInt 32 word &&& 0xffffff30#32).extractLsb' 4 2 = radix word := by
    rw [BitVec.extractLsb'_and, BitVec.extractLsb'_and]
    exact ⟨BitVec.and_allOnes, BitVec.and_allOnes⟩
  rw [← (hfields other).1, ← (hfields other).2, h]
  exact hfields word

/-- Where the point stands at the same place, different mantissas encode different numbers. -/
theorem mantissa_eq_of_quantity {word other : Int} (hradix : radix other = radix word)
    (h : quantity other = quantity word) : mantissa other = mantissa word := by
  rw [quantity, quantity, hradix] at h
  have hplaces : (2 : ℚ) ^ places (radix word) ≠ 0 := pow_ne_zero _ two_ne_zero
  have hmantissa := (div_left_inj' hplaces).mp h
  exact BitVec.toInt_inj.mp (Int.cast_inj.mp hmantissa)

end FixedPoint

namespace Value

open Binary64 FixedPoint

theorem ofFixedPoint_eq (word : Int) :
    ofFixedPoint word = ofDyadic ((mantissa word).toInt < 0) (mantissa word).toInt.natAbs
      (-(places (radix word) : Int)) := by
  rw [ofFixedPoint, toInt_mantissa, places, toNat_radix]
  refine congrArg (ofDyadic _ _) ?_
  rcases (word / 16 % 4).toNat with _ | _ | _ | _ <;> rfl

/-- The floating-point number of a word has the value that the word encodes. -/
theorem value?_ofFixedPoint (word : Int) :
    (ofFixedPoint word).value? = some (quantity word) := by
  have hmantissa := natAbs_mantissa_le word
  have hplaces := places_le (radix word)
  have hsigned : (if decide ((mantissa word).toInt < 0) = true
      then -((mantissa word).toInt.natAbs : ℚ) else (mantissa word).toInt.natAbs) =
      (mantissa word).toInt := by
    split
    next hneg =>
      have habs := Int.ofNat_natAbs_of_nonpos (Int.le_of_lt (of_decide_eq_true hneg))
      rw [← Int.cast_natCast, habs, Int.cast_neg, neg_neg]
    next hnonneg =>
      have habs := Int.natAbs_of_nonneg (Int.not_lt.mp fun hneg => hnonneg (decide_eq_true hneg))
      rw [← Int.cast_natCast, habs]
  rw [ofFixedPoint_eq, value?_ofDyadic _ (by omega) (by omega), hsigned, quantity, zpow_neg,
    zpow_natCast, div_eq_mul_inv]

/-- Multiplying the masked word, as a signed number, by the multiplier of its selector gives the
same floating-point number. -/
theorem ofFixedPoint_eq_mul (word : Int) :
    ofFixedPoint word =
      mul (ofInt (BitVec.ofInt 32 word &&& 0xffffff00#32).toInt) (multiplier (radix word)) := by
  have hmantissa := natAbs_mantissa_le word
  have hplaces := places_le (radix word)
  have hsign : decide ((mantissa word).toInt * 2 ^ 8 < 0) = decide ((mantissa word).toInt < 0) :=
    decide_eq_decide.mpr (by omega)
  have habs : ((mantissa word).toInt * 2 ^ 8).natAbs = (mantissa word).toInt.natAbs * 2 ^ 8 :=
    Int.natAbs_mul ..
  rw [toInt_masked, ofInt, multiplier, hsign, habs,
    mul_ofDyadic _ _ (by omega) (by omega) (by omega) (by omega) (by omega) (by omega),
    Bool.bne_false, Nat.mul_one, ofDyadic_mul_two_pow _ (by omega) (by omega), ofFixedPoint_eq]
  congr 1
  omega

/-- A dimension or a fraction that is decoded has the number of its word. -/
theorem number_of_decode {strings : Int → Option Text} {code word : Int} {x : Binary64}
    (h : (∃ unit, decode strings code word = .ok (.dimension x unit)) ∨
      ∃ base, decode strings code word = .ok (.fraction x base)) : x = ofFixedPoint word := by
  unfold decode at h
  rcases h with ⟨unit, h⟩ | ⟨base, h⟩
  · split at h <;> try cases h
    split at h <;> cases h
    rfl
  · split at h <;> try cases h
    · split at h <;> cases h
    · rfl

/-- A fraction is always decoded, and a dimension is when its unit is known. -/
theorem exists_decode (strings : Int → Option Text) (word : Int) :
    (∃ base, decode strings 0x06 word = .ok (.fraction (ofFixedPoint word) base)) ∧
      (word % 16 < 6 → ∃ unit, decode strings 0x05 word =
        .ok (.dimension (ofFixedPoint word) unit)) := by
  refine ⟨⟨_, rfl⟩, fun hunit => ?_⟩
  have hknown : ∀ code < 6, (DimensionUnit.ofCode? code).isSome = true := by decide
  have hcode : unitCode word < 6 := by
    unfold unitCode
    omega
  obtain ⟨unit, hfound⟩ := Option.isSome_iff_exists.mp (hknown _ hcode)
  refine ⟨unit, ?_⟩
  rw [decode, hfound]

/-- Fixed-point numbers are decoded exactly. The floating-point number of a word is its mantissa, a
number of 24 bits in two's complement, with as many bits behind the point as its selector says, and
a zero among them has no sign. It is the product, without rounding, of the masked word and of a
power of two. No other bits of the word have a part in it, and two words with the point at the same
place have the same number only if they have the same mantissa. The dimensions and the fractions
that are decoded hold these numbers. -/
theorem ofFixedPoint_exact (word : Int) :
    let x : Binary64 := ofFixedPoint word
    x.value? = some ((mantissa word).toInt / 2 ^ places (radix word) : ℚ) ∧
    (-2 ^ 23 ≤ (mantissa word).toInt ∧ (mantissa word).toInt ≤ 2 ^ 23 - 1) ∧
    (∀ exponent, x.meaning ≠ .finite true 0 exponent) ∧
    x = mul (ofInt (BitVec.ofInt 32 word &&& 0xffffff00#32).toInt) (multiplier (radix word)) ∧
    (∀ other, BitVec.ofInt 32 other &&& 0xffffff30#32 = BitVec.ofInt 32 word &&& 0xffffff30#32 →
      ofFixedPoint other = x) ∧
    (∀ other, radix other = radix word → (ofFixedPoint other).value? = x.value? →
      mantissa other = mantissa word) ∧
    ∀ strings,
      (∃ base, decode strings 0x06 word = .ok (.fraction x base)) ∧
      (word % 16 < 6 → ∃ unit, decode strings 0x05 word = .ok (.dimension x unit)) ∧
      ∀ code value, (∃ unit, decode strings code word = .ok (.dimension value unit)) ∨
        (∃ base, decode strings code word = .ok (.fraction value base)) →
          value.value? = some ((mantissa word).toInt / 2 ^ places (radix word) : ℚ) := by
  intro x
  have hvalue : x.value? = some (quantity word) := value?_ofFixedPoint word
  have hmantissa := natAbs_mantissa_le word
  have hplaces := places_le (radix word)
  have hbounds := bounds_mantissa word
  refine ⟨hvalue, ⟨hbounds.1, by omega⟩, fun exponent => ?_, ofFixedPoint_eq_mul word,
    fun other hother => ?_, fun other hradix hother => ?_, fun strings => ?_⟩
  · simp only [x, ofFixedPoint_eq]
    refine meaning_ofDyadic_ne_negativeZero (by omega) (by omega) (fun hneg => ?_) exponent
    have hlt := of_decide_eq_true hneg
    omega
  · obtain ⟨hsame, hsame'⟩ := fields_congr hother
    simp only [x, ofFixedPoint_eq, hsame, hsame']
  · rw [hvalue, value?_ofFixedPoint] at hother
    exact mantissa_eq_of_quantity hradix (Option.some.inj hother)
  · obtain ⟨hfraction, hdimension⟩ := exists_decode strings word
    refine ⟨hfraction, hdimension, fun code value hdecode => ?_⟩
    rw [number_of_decode hdecode]
    exact hvalue

/-- The least mantissa with all its bits but the first behind the point. -/
example : ofFixedPoint 0x80000030 = ofInt (-1) := by
  decide +kernel

end Value

end CompiledResources
