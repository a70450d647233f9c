import CompiledResources.Text

/-!
Removing units at the ends of a text. Two classes of unit are removed: white space, around package
names and typed-in ids, and controls with the space, around the strings of a pool.
-/

namespace CompiledResources.Text

/-- The text without its longest leading and trailing runs of units in `removed`. -/
def strip (removed : UInt16 → Bool) (t : Text) : Text :=
  ⟨((t.units.dropWhile removed).reverse.dropWhile removed).reverse⟩

/-- The text without its longest trailing run of units in `removed`. -/
def stripEnd (removed : UInt16 → Bool) (t : Text) : Text :=
  ⟨(t.units.reverse.dropWhile removed).reverse⟩

/-- White space: the space separators of Unicode, tab, the vertical controls, the two line
separators and the byte order mark. -/
def isWhiteSpace (u : UInt16) : Bool :=
  (0x0009 ≤ u && u ≤ 0x000D) || u == 0x0020 || u == 0x00A0 || u == 0x1680 ||
    (0x2000 ≤ u && u ≤ 0x200A) || u == 0x2028 || u == 0x2029 || u == 0x202F || u == 0x205F ||
    u == 0x3000 || u == 0xFEFF

/-- The control characters before the space, and the space. -/
def isControlOrSpace (u : UInt16) : Bool := u ≤ 0x0020

end CompiledResources.Text
