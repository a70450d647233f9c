import CompiledResources.Binary64
import CompiledResources.Text.Numeral

/-!
The decimal text of a floating-point number: the fewest significant digits that read back as the
same number, the nearest of those, positional between 10^-6 and 10^21 and with an exponent outside.
-/

namespace CompiledResources.Binary64

/-- A positive decimal number: `digits * 10 ^ exponent`. -/
structure Scientific where
  digits : Nat
  exponent : Int
deriving DecidableEq, Repr

/-- The positive numbers that read back as `mantissa * 2 ^ exponent`, in quarters of its last place.
Both ends belong to them exactly when the mantissa is even. -/
structure Neighbourhood where
  least : Nat
  centre : Nat
  greatest : Nat
  closed : Bool
  /-- Exponent of a quarter of the last place. -/
  exponent : Int

/-- The distance to the number below is half as large at a power of two. -/
def neighbourhood (mantissa : Nat) (exponent : Int) : Neighbourhood where
  least := 4 * mantissa - (if mantissa = 1 <<< 52 ∧ exponent ≠ leastExponent then 1 else 2)
  centre := 4 * mantissa
  greatest := 4 * mantissa + 2
  closed := mantissa % 2 = 0
  exponent := exponent - 2

/-- One with so many zeros behind it. -/
def powerOfTen (zeros : Nat) : Nat := Nat.pow 10 zeros

/-- The number of digits of `mantissa * 2 ^ exponent` before its decimal point; at most zero for a
number below one. A positive number is above 10^-324. -/
def pointOf (mantissa : Nat) (exponent : Int) : Int :=
  let shifted := ((mantissa * powerOfTen 324) <<< exponent.toNat) >>> (-exponent).toNat
  (Nat.toDigits 10 shifted).length - 324

namespace Neighbourhood

/-- A multiple of `10 ^ place` in the neighbourhood next to its centre, if there is one: the nearer
one of two, and the even one of two equally near. -/
def onGrid? (n : Neighbourhood) (place : Int) : Option Scientific :=
  let cell := powerOfTen place.toNat <<< (-n.exponent).toNat
  let quarter := powerOfTen (-place).toNat <<< n.exponent.toNat
  let inside (digits : Nat) : Bool :=
    if n.closed then n.least * quarter ≤ digits * cell && digits * cell ≤ n.greatest * quarter
    else n.least * quarter < digits * cell && digits * cell < n.greatest * quarter
  let below := n.centre * quarter / cell
  let above := below + 1
  let toBelow := n.centre * quarter - below * cell
  let toAbove := above * cell - n.centre * quarter
  let nearer :=
    if toBelow < toAbove then below
    else if toAbove < toBelow then above
    else if below % 2 = 0 then below else above
  match inside below, inside above with
  | true, true => some ⟨nearer, place⟩
  | true, false => some ⟨below, place⟩
  | false, true => some ⟨above, place⟩
  | false, false => none

/-- The coarsest of the grids `first`, `first - 1`, … that has a point in the neighbourhood, among
`count + 1` grids; the last one counts as having one. -/
def coarsest (n : Neighbourhood) (first : Int) : Nat → Scientific
  | 0 => (n.onGrid? first).getD ⟨0, 0⟩
  | count + 1 => (n.onGrid? first).getD (coarsest n (first - 1) count)

end Neighbourhood

/-- The shortest decimal number that reads back as `mantissa * 2 ^ exponent`; seventeen digits
always suffice. -/
def shortest (mantissa : Nat) (exponent : Int) : Scientific :=
  (neighbourhood mantissa exponent).coarsest (pointOf mantissa exponent - 1) 16

/-- How a finite number is written. -/
structure Style where
  /-- Greatest number of digits before the decimal point in positional notation. -/
  wholeDigits : Int
  /-- Greatest number of zeros between the decimal point and the first other digit. -/
  leadingZeros : Int

/-- Numbers up to 21 whole digits or five leading zeros are written without an exponent. -/
def style : Style := ⟨21, 5⟩

/-- Writes digits with the decimal point after the first `point` of them. -/
def layOut (style : Style) (digits : List Char) (point : Int) : List Char :=
  let count := digits.length
  if 0 < point ∧ point ≤ style.wholeDigits then
    let whole := point.toNat
    if count ≤ whole then digits ++ List.replicate (whole - count) '0'
    else digits.take whole ++ '.' :: digits.drop whole
  else if point ≤ 0 ∧ -point ≤ style.leadingZeros then
    '0' :: '.' :: (List.replicate (-point).toNat '0' ++ digits)
  else
    let power := point - 1
    let written := (if 0 ≤ power then '+' else '-') :: Nat.toDigits 10 power.natAbs
    match digits with
    | [] => []
    | [digit] => digit :: 'e' :: written
    | digit :: rest => digit :: '.' :: (rest ++ 'e' :: written)

/-- The digits of a decimal number without trailing zeros. -/
def Scientific.significant (s : Scientific) : List Char :=
  ((Nat.toDigits 10 s.digits).reverse.dropWhile (· == '0')).reverse

/-- The decimal text of a number. Zero has no sign. -/
def toText (x : Binary64) : Text :=
  match x.meaning with
  | .notANumber => "NaN"
  | .infinite negative => if negative then "-Infinity" else "Infinity"
  | .finite negative mantissa exponent =>
    if mantissa = 0 then "0"
    else
      let s := shortest mantissa exponent
      let point := s.exponent + (Nat.toDigits 10 s.digits).length
      let written := layOut style s.significant point
      .ofChars (if negative then '-' :: written else written)

end CompiledResources.Binary64
