import CompiledResources.ResourceId
import Mathlib.Algebra.Group.Int.Defs
import Mathlib.Algebra.Group.Nat.Defs

/-!
Ids as words of 32 bits. The parts of an id are masked and shifted to their places in a word, and
read off it in the same way; on integers of any size and either sign this is the arithmetic of
`split` and `join`. Splitting and joining undo each other, up to the bits that an id and its parts
keep.
-/

namespace CompiledResources.ResourceId

/-- The word that holds the low bits of the parts, eight, eight and sixteen of them from the top. -/
def packed (parts : ResourceId) : BitVec 32 :=
  (BitVec.ofInt 32 parts.package &&& 0xff#32) <<< 24 |||
    (BitVec.ofInt 32 parts.type &&& 0xff#32) <<< 16 ||| (BitVec.ofInt 32 parts.entry &&& 0xffff#32)

/-- The parts that stand in a word. -/
def unpacked (word : BitVec 32) : ResourceId where
  package := ((word >>> 24) &&& 0xff#32).toNat
  type := ((word >>> 16) &&& 0xff#32).toNat
  entry := (word &&& 0xffff#32).toNat

/-- A mask of low bits leaves the remainder. -/
theorem toNat_mask (word : BitVec 32) {bits : Nat} (hbits : bits ≤ 32) :
    (word &&& BitVec.ofNat 32 (2 ^ bits - 1)).toNat = word.toNat % 2 ^ bits := by
  have hmask : 2 ^ bits - 1 < 2 ^ 32 := by
    have hpow : 2 ^ bits ≤ 2 ^ 32 := Nat.pow_le_pow_right (by decide) hbits
    have hpos : 0 < 2 ^ bits := Nat.two_pow_pos bits
    omega
  rw [BitVec.toNat_and, BitVec.toNat_ofNat, Nat.mod_eq_of_lt hmask, Nat.and_two_pow_sub_one_eq_mod]

theorem toNat_byte (word : BitVec 32) : (word &&& 0xff#32).toNat = word.toNat % 2 ^ 8 :=
  toNat_mask word (by decide : 8 ≤ 32)

theorem toNat_half (word : BitVec 32) : (word &&& 0xffff#32).toNat = word.toNat % 2 ^ 16 :=
  toNat_mask word (by decide : 16 ≤ 32)

/-- The word of an integer is its remainder modulo 2^32. -/
theorem toNat_ofInt_word (n : Int) : ((BitVec.ofInt 32 n).toNat : Int) = n % 0x100000000 := by
  rw [BitVec.toNat_ofInt]
  omega

/-- Numbers in places that do not overlap add up. -/
theorem toNat_places {high middle low : Nat} (hhigh : high < 2 ^ 8) (hmiddle : middle < 2 ^ 8)
    (hlow : low < 2 ^ 16) :
    high <<< 24 % 2 ^ 32 ||| middle <<< 16 % 2 ^ 32 ||| low =
      high * 2 ^ 24 + middle * 2 ^ 16 + low := by
  have hmiddleShift : middle <<< 16 < 2 ^ 24 := by
    rw [Nat.shiftLeft_eq]
    omega
  have hhighShift : high <<< 24 < 2 ^ 32 := by
    rw [Nat.shiftLeft_eq]
    omega
  have hsplit : high * 2 ^ 24 + middle * 2 ^ 16 = (high * 2 ^ 8 + middle) <<< 16 := by
    rw [Nat.shiftLeft_eq]
    omega
  calc
    high <<< 24 % 2 ^ 32 ||| middle <<< 16 % 2 ^ 32 ||| low
      = high <<< 24 ||| middle <<< 16 ||| low := by
        rw [Nat.mod_eq_of_lt hhighShift, Nat.mod_eq_of_lt (Nat.lt_trans hmiddleShift (by decide))]
    _ = (high <<< 24 + middle <<< 16) ||| low := by
        rw [Nat.shiftLeft_add_eq_or_of_lt hmiddleShift]
    _ = (high * 2 ^ 8 + middle) <<< 16 ||| low := by
        rw [Nat.shiftLeft_eq, Nat.shiftLeft_eq, hsplit]
    _ = high * 2 ^ 24 + middle * 2 ^ 16 + low := by
        rw [← Nat.shiftLeft_add_eq_or_of_lt hlow, hsplit]

/-- Joining parts is putting their bits side by side in a word. -/
theorem join_eq_packed (parts : ResourceId) : join parts = parts.packed.toNat := by
  have hpackage := toNat_byte (BitVec.ofInt 32 parts.package)
  have htype := toNat_byte (BitVec.ofInt 32 parts.type)
  have hentry := toNat_half (BitVec.ofInt 32 parts.entry)
  have hwordPackage := toNat_ofInt_word parts.package
  have hwordType := toNat_ofInt_word parts.type
  have hwordEntry := toNat_ofInt_word parts.entry
  have hpacked : parts.packed.toNat =
      (BitVec.ofInt 32 parts.package).toNat % 2 ^ 8 * 2 ^ 24 +
        (BitVec.ofInt 32 parts.type).toNat % 2 ^ 8 * 2 ^ 16 +
        (BitVec.ofInt 32 parts.entry).toNat % 2 ^ 16 := by
    rw [← toNat_places (Nat.mod_lt _ (by decide)) (Nat.mod_lt _ (by decide))
      (Nat.mod_lt _ (by decide)), ← hpackage, ← htype, ← hentry]
    simp only [packed, BitVec.toNat_or, BitVec.toNat_shiftLeft]
  simp only [join]
  omega

/-- Splitting an id is taking the bits of its parts from its word. -/
theorem split_eq_unpacked (id : Int) : split id = unpacked (BitVec.ofInt 32 id) := by
  have hword := toNat_ofInt_word id
  have hpackage := toNat_byte (BitVec.ofInt 32 id >>> 24)
  have htype := toNat_byte (BitVec.ofInt 32 id >>> 16)
  have hentry := toNat_half (BitVec.ofInt 32 id)
  rw [BitVec.toNat_ushiftRight, Nat.shiftRight_eq_div_pow] at hpackage htype
  have hparts : unpacked (BitVec.ofInt 32 id) =
      ⟨((BitVec.ofInt 32 id).toNat / 2 ^ 24 % 2 ^ 8 : Nat),
        ((BitVec.ofInt 32 id).toNat / 2 ^ 16 % 2 ^ 8 : Nat),
        ((BitVec.ofInt 32 id).toNat % 2 ^ 16 : Nat)⟩ := by
    rw [← hpackage, ← htype, ← hentry]
    rfl
  rw [hparts]
  simp only [split, mk.injEq]
  omega

/-- Splitting and joining are inverse on all integers, as far as the bits of an id go. A number that
is split and joined again is its remainder modulo 2^32; parts that are joined and split again are
the remainders modulo the ranges of their places, and what joins them is an unsigned number of 32
bits. So parts join to the same id exactly when they agree modulo these ranges. The arithmetic is
that of shifts and masks on words of 32 bits. -/
theorem split_join_inverse (n : Int) (first second : ResourceId) :
    join (split n) = n % 2 ^ 32 ∧
    split (join first) = ⟨first.package % 256, first.type % 256, first.entry % 65536⟩ ∧
    (0 ≤ join first ∧ join first ≤ 2 ^ 32 - 1) ∧
    (join first = join second ↔ first.package % 256 = second.package % 256 ∧
      first.type % 256 = second.type % 256 ∧ first.entry % 65536 = second.entry % 65536) ∧
    split n = unpacked (BitVec.ofInt 32 n) ∧ join first = first.packed.toNat := by
  refine ⟨join_split n, split_join first, ?_, ?_, split_eq_unpacked n, join_eq_packed first⟩
  · have hlt := first.packed.isLt
    rw [join_eq_packed]
    omega
  · constructor
    · intro heq
      have hparts := congrArg split heq
      rw [split_join, split_join] at hparts
      simpa only [mk.injEq] using hparts
    · rintro ⟨hpackage, htype, hentry⟩
      rw [join, join, hpackage, htype, hentry]

end CompiledResources.ResourceId
