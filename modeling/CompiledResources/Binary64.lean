/-!
Floating-point numbers of 64 bits, as bits with exact arithmetic behind them. A finite number is
`mantissa * 2 ^ exponent`; `ofDyadic` rounds any such product to the nearest representable one, a
tie going to the even mantissa.
-/

namespace CompiledResources

/-- A binary floating-point number: a sign bit, 11 exponent bits and 52 fraction bits. -/
structure Binary64 where
  bits : UInt64
deriving DecidableEq, Inhabited, Repr

namespace Binary64

/-- What the bits of a number stand for. -/
inductive Meaning where
  | notANumber
  | infinite (negative : Bool)
  /-- The number `mantissa * 2 ^ exponent`, or its opposite. -/
  | finite (negative : Bool) (mantissa : Nat) (exponent : Int)
deriving DecidableEq, Repr

/-- Least exponent of a finite number. -/
def leastExponent : Int := -1074

/-- The bits of the exponent field when all of them are set. -/
def endOfFinite : Nat := 2047 <<< 52

/-- Reads the three fields. -/
def meaning (x : Binary64) : Meaning :=
  let negative := x.bits.toNat.testBit 63
  let biased : Nat := (x.bits.toNat >>> 52) % 2048
  let fraction : Nat := x.bits.toNat % (1 <<< 52)
  if biased = 2047 then if fraction = 0 then .infinite negative else .notANumber
  else if biased = 0 then .finite negative fraction leastExponent
  else .finite negative ((1 <<< 52) + fraction) ((biased : Int) - 1075)

/-- The number of a sign and the 63 bits below it. -/
def ofMagnitude (negative : Bool) (magnitude : Nat) : Binary64 :=
  ⟨UInt64.ofNat ((if negative then 1 <<< 63 else 0) + magnitude)⟩

/-- The quiet number that is none. -/
def nan : Binary64 := ofMagnitude false (endOfFinite + (1 <<< 51))

/-- Infinity of either sign. -/
def infinity (negative : Bool) : Binary64 := ofMagnitude negative endOfFinite

/-- `m / 2 ^ places` rounded to the nearest natural number, a half to the even one. -/
def roundShift (m places : Nat) : Nat :=
  let unit := 1 <<< places
  let whole := m / unit
  let rest := 2 * (m % unit)
  if unit < rest ∨ (rest = unit ∧ whole % 2 = 1) then whole + 1 else whole

/-- The representable number nearest to `mantissa * 2 ^ exponent`, or to its opposite. Adding the
rounded mantissa to the exponent field carries into it by itself. -/
def ofDyadic (negative : Bool) (mantissa : Nat) (exponent : Int) : Binary64 :=
  if mantissa = 0 then ofMagnitude negative 0
  else
    let lowest := max (exponent + mantissa.log2 - 52) leastExponent
    let kept :=
      if lowest ≤ exponent then mantissa <<< (exponent - lowest).toNat
      else roundShift mantissa (lowest - exponent).toNat
    let magnitude := ((lowest - leastExponent).toNat <<< 52) + kept
    if endOfFinite ≤ magnitude then infinity negative else ofMagnitude negative magnitude

/-- The number of the 32-bit floating-point format with the given bits; the conversion is exact. -/
def ofBinary32 (bits : UInt32) : Binary64 :=
  let negative := bits.toNat.testBit 31
  let biased : Nat := (bits.toNat >>> 23) % 256
  let fraction : Nat := bits.toNat % (1 <<< 23)
  if biased = 255 then if fraction = 0 then infinity negative else nan
  else if biased = 0 then ofDyadic negative fraction (-149)
  else ofDyadic negative ((1 <<< 23) + fraction) ((biased : Int) - 150)

/-- The number nearest to a natural number. -/
def ofNat (n : Nat) : Binary64 := ofDyadic false n 0

/-- The number is greater than `bound`. -/
def exceeds (x : Binary64) (bound : Nat) : Bool :=
  match x.meaning with
  | .notANumber => false
  | .infinite negative => !negative
  | .finite negative mantissa exponent =>
    !negative && bound <<< (-exponent).toNat < mantissa <<< exponent.toNat

/-- The number without its fraction, modulo 2^32; zero when it is not finite. -/
def word (x : Binary64) : Nat :=
  match x.meaning with
  | .finite negative mantissa exponent =>
    let whole : Int := ((mantissa <<< exponent.toNat) >>> (-exponent).toNat : Nat)
    ((if negative then -whole else whole) % 4294967296).toNat
  | _ => 0

/-- The product with a natural number, rounded. -/
def scale (factor : Nat) (x : Binary64) : Binary64 :=
  match x.meaning with
  | .finite negative mantissa exponent => ofDyadic negative (mantissa * factor) exponent
  | _ => x

end Binary64
end CompiledResources
