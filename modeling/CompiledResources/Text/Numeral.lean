import CompiledResources.Text

/-!
Integers in positional notation, most significant digit first, digits above nine in lower case. A
negative number is a minus sign and the numeral of its absolute value.
-/

namespace CompiledResources.Numeral

/-- The numeral of a natural number. -/
def ofNat (base n : Nat) : Text :=
  .ofChars (Nat.toDigits base n)

/-- The numeral of an integer. -/
def ofInt (base : Nat) : Int → Text
  | .ofNat n => ofNat base n
  | .negSucc n => "-" ++ ofNat base (n + 1)

/-- Decimal numeral. -/
def decimal (n : Int) : Text := ofInt 10 n

/-- Hexadecimal numeral behind `0x`; the minus sign of a negative number stands after the `x`. -/
def hex (n : Int) : Text := "0x" ++ ofInt 16 n

/-- Hexadecimal numeral filled up with leading zeros to at least `width` digits. -/
def hexPadded (width n : Nat) : Text :=
  let digits := Nat.toDigits 16 n
  .ofChars (List.replicate (width - digits.length) '0' ++ digits)

/-- An integer modulo 2^32, in the range of an unsigned 32-bit word. -/
def word (n : Int) : Nat := (n % 4294967296).toNat

/-- An integer modulo 2^32, in the range of a signed 32-bit word. -/
def signedWord (n : Int) : Int := n.bmod 4294967296

end CompiledResources.Numeral
