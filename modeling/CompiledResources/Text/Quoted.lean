import CompiledResources.Text

/-!
Quoted text: a text between double quotes in which the quote, the backslash, the control characters
and every surrogate without its partner are written as escapes. What stands between the quotes has
no line break and no unit that is not part of a character.
-/

namespace CompiledResources.Text

/-- An escape with a letter: a backslash and the unit that stands for the escaped one. -/
def letterEscape? (u : UInt16) : Option Char :=
  match u.toNat with
  | 0x08 => some 'b'
  | 0x09 => some 't'
  | 0x0A => some 'n'
  | 0x0C => some 'f'
  | 0x0D => some 'r'
  | 0x22 => some '"'
  | 0x5C => some '\\'
  | _ => none

/-- The four lower-case hexadecimal digits of a unit behind a backslash and a `u`. -/
def numericEscape (u : UInt16) : List Char :=
  let digit (unit : Nat) := Nat.digitChar (u.toNat / unit % 16)
  ['\\', 'u', digit 0x1000, digit 0x100, digit 0x10, digit 1]

/-- The written form of a unit that is no half of a surrogate pair. -/
def quoteUnit (u : UInt16) : List UInt16 :=
  match letterEscape? u with
  | some c => ['\\', c].flatMap unitsOfChar
  | none => if u < 0x0020 || isHigh u || isLow u then (numericEscape u).flatMap unitsOfChar else [u]

/-- The written form of units, surrogate pairs unchanged. -/
def quoteUnits : List UInt16 → List UInt16
  | [] => []
  | [u] => quoteUnit u
  | u :: v :: rest =>
    if isHigh u && isLow v then u :: v :: quoteUnits rest
    else quoteUnit u ++ quoteUnits (v :: rest)

/-- The text between double quotes, with escapes where they are needed. -/
def quoted (t : Text) : Text :=
  "\"" ++ ⟨quoteUnits t.units⟩ ++ "\""

end CompiledResources.Text
