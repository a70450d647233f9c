import CompiledResources.Binary64
import CompiledResources.Text.Blank
import CompiledResources.Text.Numeral

/-!
Resource ids. An id packs the number of a package, of a type in it and of an entry in that into an
unsigned 32-bit number: eight bits, eight bits and sixteen bits from the top. Integers outside that
range stand for their remainder.
-/

namespace CompiledResources

/-- The three parts of a resource id. -/
structure ResourceId where
  package : Int
  type : Int
  entry : Int
deriving DecidableEq, Repr

namespace ResourceId

/-- The parts that an id packs. -/
def split (id : Int) : ResourceId where
  package := id / 0x1000000 % 0x100
  type := id / 0x10000 % 0x100
  entry := id % 0x10000

/-- The id that packs the parts, each cut to its bits. -/
def join (parts : ResourceId) : Int :=
  parts.package % 0x100 * 0x1000000 + parts.type % 0x100 * 0x10000 + parts.entry % 0x10000

theorem split_join (parts : ResourceId) :
    split (join parts) =
      ⟨parts.package % 0x100, parts.type % 0x100, parts.entry % 0x10000⟩ := by
  simp only [split, join, ResourceId.mk.injEq]
  omega

theorem join_split (id : Int) : join (split id) = id % 0x100000000 := by
  simp only [split, join]
  omega

/-- The value of a hexadecimal digit of either case. -/
def hexDigit? (u : UInt16) : Option Nat :=
  let code := u.toNat
  if 0x30 ≤ code ∧ code ≤ 0x39 then some (code - 0x30)
  else if 0x41 ≤ code ∧ code ≤ 0x46 then some (code - 0x37)
  else if 0x61 ≤ code ∧ code ≤ 0x66 then some (code - 0x57)
  else none

/-- The value of a decimal digit. -/
def decimalDigit? (u : UInt16) : Option Nat :=
  let code := u.toNat
  if 0x30 ≤ code ∧ code ≤ 0x39 then some (code - 0x30) else none

/-- The number that digits denote, most significant digit first. -/
def valueOf (base : Nat) (digits : List Nat) : Nat :=
  digits.foldl (fun value digit => value * base + digit) 0

/-- Reads a numeral of one to `limit` digits; any number of them when there is no limit. -/
def numeral? (base : Nat) (digit? : UInt16 → Option Nat) (limit : Option Nat)
    (units : List UInt16) : Option Nat :=
  if units.isEmpty ∨ limit.any (· < units.length) then none
  else (units.mapM digit?).map (valueOf base)

/-- The number that units denote: `0x` and up to eight hexadecimal digits, or decimal digits. -/
def number? : List UInt16 → Option Nat
  | 0x30 :: 0x78 :: digits | 0x30 :: 0x58 :: digits => numeral? 16 hexDigit? (some 8) digits
  | digits => numeral? 10 decimalDigit? none digits

/-- The id that a text denotes: a number of up to 32 bits, with white space around it or not. The
number is converted to a floating-point number, and it is that one which must not be too large. -/
def ofText? (text : Text) : Option Nat :=
  match number? (text.strip Text.isWhiteSpace).units with
  | none => none
  | some number =>
    let value := Binary64.ofNat number
    if value.exceeds 0xffffffff then none else some value.word

/-- The text of an id: `0x` and eight hexadecimal digits. -/
def toText (id : Int) : Text :=
  "0x" ++ Numeral.hexPadded 8 (Numeral.word id)

end ResourceId
end CompiledResources
