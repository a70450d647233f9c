import CompiledResources.Layout.Number
import CompiledResources.StringPool

/-!
String pools as bytes: the header, an offset for each string, and the strings one behind another;
and what a pool keeps of a string.
-/

namespace CompiledResources.Layout

/-- A string in UTF-16: the number of units, the units and a zero unit. -/
def utf16String (t : Text) : List UInt8 :=
  number 2 t.length ++ t.units.flatMap (fun u => number 2 u.toNat) ++ number 2 0

/-- A string in UTF-8: the number of units, the number of bytes, the bytes and a zero byte. -/
def utf8String (t : Text) : List UInt8 :=
  let encoded := Utf8.encode t
  number 1 t.length ++ number 1 encoded.length ++ encoded ++ number 1 0

/-- A string in the encoding of its pool. -/
def poolString (utf8 : Bool) (t : Text) : List UInt8 :=
  if utf8 then utf8String t else utf16String t

/-- The pool of a list of strings. -/
def stringPool (utf8 : Bool) (strings : List Text) : List UInt8 :=
  let stored := strings.map (poolString utf8)
  let stringsStart := 28 + 4 * strings.length
  chunk Chunk.stringPool 28 <|
    number 4 strings.length ++ number 4 0 ++ number 4 (if utf8 then 0x100 else 0) ++
      number 4 stringsStart ++ number 4 0 ++ (starts 0 stored).flatMap (number 4) ++
      aligned stored.flatten

/-- What a pool keeps of a string: no control characters and spaces at the ends, and in UTF-8 U+FFFD
for each surrogate without its partner. -/
def keptString (utf8 : Bool) (t : Text) : Text :=
  (if utf8 then t.wellFormed else t).strip Text.isControlOrSpace

end CompiledResources.Layout
