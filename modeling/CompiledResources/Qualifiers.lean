import CompiledResources.Bytes
import CompiledResources.Decoder
import CompiledResources.Text.Blank

/-!
Configuration qualifiers: the properties of a device under which a set of values applies, and the
record that stores them. The record grew over time; its size field says which of its later groups
are there, and reading stops with the first group that covers that size.
-/

namespace CompiledResources

/-- Properties of a device. Zero and the empty text stand for any value. -/
structure Qualifiers where
  /-- Number of bytes that the record declares. -/
  size : Int := 28
  mcc : Int := 0
  mnc : Int := 0
  language : Text := .empty
  country : Text := .empty
  orientation : Int := 0
  touchscreen : Int := 0
  density : Int := 0
  keyboard : Int := 0
  navigation : Int := 0
  inputFlags : Int := 0
  inputPad : Int := 0
  screenWidth : Int := 0
  screenHeight : Int := 0
  sdkVersion : Int := 0
  minorVersion : Int := 0
  screenLayout : Int := 0
  uiMode : Int := 0
  smallestWidth : Int := 0
  availableWidth : Int := 0
  availableHeight : Int := 0
  script : Text := .empty
  variant : Text := .empty
deriving DecidableEq, Repr

namespace Qualifiers

/-- The number of bytes that reading a record of a declared size takes. -/
def extent (size : Nat) : Nat :=
  if size ≤ 28 then 28
  else if size ≤ 32 then 32
  else if size ≤ 36 then 36
  else if size ≤ 40 then 40
  else if size ≤ 48 then 48
  else size

/-- The characters of a fixed-width field, one byte each, without the zeros at its end. -/
def charsOfField (bytes : List UInt8) : Text :=
  Text.stripEnd (· == 0) ⟨bytes.map UInt8.toUInt16⟩

/-- Reads a character field. -/
def charsAt (data : ByteArray) (offset : Int) (width : Nat) : Except Fault Text :=
  (Bytes.bytesAt data offset width).map charsOfField

/-- Reads the group of fields that every record has. -/
def readBase (data : ByteArray) (offset : Int) (size : Nat) : Except Fault Qualifiers := do
  let mcc ← Bytes.u16At data (offset + 4)
  let mnc ← Bytes.u16At data (offset + 6)
  let language ← charsAt data (offset + 8) 2
  let country ← charsAt data (offset + 10) 2
  let orientation ← Bytes.u8At data (offset + 12)
  let touchscreen ← Bytes.u8At data (offset + 13)
  let density ← Bytes.u16At data (offset + 14)
  let keyboard ← Bytes.u8At data (offset + 16)
  let navigation ← Bytes.u8At data (offset + 17)
  let inputFlags ← Bytes.u8At data (offset + 18)
  let inputPad ← Bytes.u8At data (offset + 19)
  let screenWidth ← Bytes.u16At data (offset + 20)
  let screenHeight ← Bytes.u16At data (offset + 22)
  let sdkVersion ← Bytes.u16At data (offset + 24)
  let minorVersion ← Bytes.u16At data (offset + 26)
  return {
    size, mcc, mnc, language, country, orientation, touchscreen, density, keyboard, navigation
    inputFlags, inputPad, screenWidth, screenHeight, sdkVersion, minorVersion }

/-- Reads the group of bytes 28 to 32. -/
def readScreen (data : ByteArray) (offset : Int) (q : Qualifiers) : Except Fault Qualifiers := do
  let screenLayout ← Bytes.u8At data (offset + 28)
  let uiMode ← Bytes.u8At data (offset + 29)
  let smallestWidth ← Bytes.u16At data (offset + 30)
  return { q with screenLayout, uiMode, smallestWidth }

/-- Reads the group of bytes 32 to 36. -/
def readAvailable (data : ByteArray) (offset : Int) (q : Qualifiers) :
    Except Fault Qualifiers := do
  let availableWidth ← Bytes.u16At data (offset + 32)
  let availableHeight ← Bytes.u16At data (offset + 34)
  return { q with availableWidth, availableHeight }

/-- Reads the group of bytes 36 to 40. -/
def readScript (data : ByteArray) (offset : Int) (q : Qualifiers) : Except Fault Qualifiers := do
  return { q with script := ← charsAt data (offset + 36) 4 }

/-- Reads the group of bytes 40 to 48. -/
def readVariant (data : ByteArray) (offset : Int) (q : Qualifiers) : Except Fault Qualifiers := do
  return { q with variant := ← charsAt data (offset + 40) 8 }

/-- Passes over the bytes from 48 on, and notes them when they are not all zero. -/
def passTrailing (data : ByteArray) (offset : Int) (size : Nat) : Decoder Unit := do
  let trailing ← Bytes.bytesAt data (offset + 48) (size - 48)
  if trailing.any (· != 0) then
    Decoder.note (.trailingConfigBytes trailing.length (offset + 48))

/-- Reads the record at `offset`; the result has the offset just past the bytes taken. -/
def readAt (data : ByteArray) (offset : Int) : Decoder (Qualifiers × Int) := do
  let size ← Bytes.u32At data offset
  let base ← readBase data offset size
  if size ≤ 28 then return (base, offset + 28)
  let screen ← readScreen data offset base
  if size ≤ 32 then return (screen, offset + 32)
  let available ← readAvailable data offset screen
  if size ≤ 36 then return (available, offset + 36)
  let script ← readScript data offset available
  if size ≤ 40 then return (script, offset + 40)
  let variant ← readVariant data offset script
  if size ≤ 48 then return (variant, offset + 48)
  passTrailing data offset size
  return (variant, offset + size)

end Qualifiers
end CompiledResources
