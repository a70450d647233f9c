import CompiledResources.Binary64
import CompiledResources.Notice

/-!
Resource values, and the decoding of one value from its type code and its 32-bit word.
-/

namespace CompiledResources

/-- The unit of a dimension. -/
inductive DimensionUnit where
  | px
  | dip
  | sp
  | pt
  | inch
  | mm
deriving DecidableEq, Repr

namespace DimensionUnit

/-- The unit of a code. -/
def ofCode? : Nat → Option DimensionUnit
  | 0 => some px
  | 1 => some dip
  | 2 => some sp
  | 3 => some pt
  | 4 => some inch
  | 5 => some mm
  | _ => none

/-- The suffix of a number in the unit. -/
def suffix : DimensionUnit → String
  | px => "px"
  | dip => "dip"
  | sp => "sp"
  | pt => "pt"
  | inch => "in"
  | mm => "mm"

end DimensionUnit

/-- What a fraction is a fraction of. -/
inductive FractionBase where
  | whole
  | parent
deriving DecidableEq, Repr

/-- The value of a resource, of an array element or of a map record. -/
inductive Value where
  | null
  | reference (id : Int)
  | attribute (id : Int)
  /-- Without a text when the global string pool has none at the index. -/
  | string (text : Option Text)
  | integer (value : Int)
  | float (value : Binary64)
  | boolean (value : Bool)
  | color (alpha red green blue : Int)
  | dimension (value : Binary64) (unit : DimensionUnit)
  | fraction (value : Binary64) (base : FractionBase)
  | array (elements : List Value)
  /-- Records under their names, in the order in which the names first came. -/
  | complex (typeName : Text) (records : List (Text × Value))
deriving Repr

namespace Value

/-- The number that a fixed-point word encodes: a signed mantissa of 24 bits in bits 8 to 31, scaled
by one of four powers of two as bits 4 and 5 say. Every such number is representable. -/
def ofFixedPoint (word : Int) : Binary64 :=
  let mantissa := (word / 256).bmod 0x1000000
  let places : Int :=
    match (word / 16 % 4).toNat with
    | 0 => 0
    | 1 => 7
    | 2 => 15
    | _ => 23
  .ofDyadic (mantissa < 0) mantissa.natAbs (-places)

/-- The unit code of a fixed-point word: its low four bits. -/
def unitCode (word : Int) : Nat := (word % 16).toNat

/-- The colour of a word, as decoders in use read it: the shift of a channel mask applies before the
mask does, so alpha is the whole word, signed, and the other channels are its low byte. -/
def ofColor (word : Int) : Value :=
  .color (Numeral.signedWord word) (word % 256) (word % 256) (word % 256)

/-- The value of a type code and a word, with the texts of the global string pool. -/
def decode (strings : Int → Option Text) (code word : Int) : Except Refusal Value :=
  match code with
  | 0x00 => .ok .null
  | 0x01 => .ok (.reference word)
  | 0x02 => .ok (.attribute word)
  | 0x03 => .ok (.string (strings word))
  | 0x04 => .ok (.float (.ofBinary32 (UInt32.ofNat (Numeral.word word))))
  | 0x05 =>
    match DimensionUnit.ofCode? (unitCode word) with
    | some unit => .ok (.dimension (ofFixedPoint word) unit)
    | none => .error (.unknownUnit (unitCode word))
  | 0x06 => .ok (.fraction (ofFixedPoint word) (if unitCode word = 0 then .whole else .parent))
  | 0x10 => .ok (.integer (Numeral.signedWord word))
  | 0x11 => .ok (.integer (Numeral.word word))
  | 0x12 => .ok (.boolean (word ≠ 0))
  | 0x1c | 0x1d | 0x1e | 0x1f => .ok (ofColor word)
  | _ => .error (.unknownType code)

end Value
end CompiledResources
