/-!
Text as a sequence of UTF-16 code units. A name stored in a resource table may hold a surrogate
without its partner, so a text is its units and not its characters. `Text.toString?` gives the
characters exactly when every surrogate has its partner.
-/

namespace CompiledResources

/-- A sequence of UTF-16 code units, well formed or not. -/
structure Text where
  units : List UInt16
deriving DecidableEq, Inhabited, Repr

namespace Text

/-- The text without units. -/
def empty : Text := ⟨[]⟩

/-- The one or two units that encode a character. -/
def unitsOfChar (c : Char) : List UInt16 :=
  if c.toNat < 0x10000 then [UInt16.ofNat c.toNat]
  else
    let above := c.toNat - 0x10000
    [UInt16.ofNat (0xD800 + above / 0x400), UInt16.ofNat (0xDC00 + above % 0x400)]

/-- The text of a list of characters. -/
def ofChars (cs : List Char) : Text :=
  ⟨cs.flatMap unitsOfChar⟩

/-- The text of a string. -/
def ofString (s : String) : Text :=
  ofChars s.toList

instance : Coe String Text := ⟨ofString⟩

instance : Append Text := ⟨fun a b => ⟨a.units ++ b.units⟩⟩

@[simp] theorem units_append (a b : Text) : (a ++ b).units = a.units ++ b.units := rfl

@[simp] theorem units_ofChars (cs : List Char) : (ofChars cs).units = cs.flatMap unitsOfChar := rfl

@[ext] theorem ext_units {a b : Text} (h : a.units = b.units) : a = b := by
  cases a; cases b; simpa using h

/-- Number of code units. -/
def length (t : Text) : Nat := t.units.length

/-- The texts one after another, with `separator` between neighbours. -/
def join (separator : Text) : List Text → Text
  | [] => empty
  | [t] => t
  | t :: rest => t ++ separator ++ join separator rest

/-- First half of a surrogate pair. -/
def isHigh (u : UInt16) : Bool := 0xD800 ≤ u && u ≤ 0xDBFF

/-- Second half of a surrogate pair. -/
def isLow (u : UInt16) : Bool := 0xDC00 ≤ u && u ≤ 0xDFFF

/-- The character of a unit outside the surrogate range. -/
def charOfUnit? (u : UInt16) : Option Char :=
  if isHigh u || isLow u then none else some (Char.ofNat u.toNat)

/-- The character that a high and a low surrogate encode together. -/
def charOfPair (high low : UInt16) : Char :=
  Char.ofNat (0x10000 + (high.toNat - 0xD800) * 0x400 + (low.toNat - 0xDC00))

/-- The characters that units encode, with `none` for a surrogate without its partner. -/
def charsOfUnits : List UInt16 → List (Option Char)
  | [] => []
  | [u] => [charOfUnit? u]
  | u :: v :: rest =>
    if isHigh u && isLow v then some (charOfPair u v) :: charsOfUnits rest
    else charOfUnit? u :: charsOfUnits (v :: rest)

/-- The string of a well-formed text. -/
def toString? (t : Text) : Option String :=
  ((charsOfUnits t.units).mapM id).map String.ofList

/-- The string of a text, with U+FFFD in place of each surrogate without its partner. -/
def toStringLossy (t : Text) : String :=
  String.ofList ((charsOfUnits t.units).map (·.getD (Char.ofNat 0xFFFD)))

/-- The text with U+FFFD in place of each surrogate without its partner. -/
def wellFormed (t : Text) : Text := ofString t.toStringLossy

end Text
end CompiledResources
