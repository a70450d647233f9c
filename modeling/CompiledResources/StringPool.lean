import CompiledResources.Chunk
import CompiledResources.Text.Blank
import CompiledResources.Text.Utf8

/-!
String pools. A pool stores its strings behind an array of offsets, in UTF-16 behind a count of
units or in UTF-8 behind a count of characters and a count of bytes. Control characters and spaces
around a string do not belong to it.
-/

namespace CompiledResources

/-- The header of a string pool. -/
structure PoolHeader where
  chunk : Chunk
  stringCount : Nat
  styleCount : Nat
  sorted : Bool
  utf8 : Bool
  /-- Offset of the string data, from the start of the chunk. -/
  stringsStart : Nat
  stylesStart : Nat

namespace PoolHeader

/-- Reads the fields behind the chunk header of a pool. -/
def read (data : ByteArray) (chunk : Chunk) : Except Fault PoolHeader := do
  let stringCount ← Bytes.u32At data (chunk.start + 8)
  let styleCount ← Bytes.u32At data (chunk.start + 12)
  let flags ← Bytes.u32At data (chunk.start + 16)
  let stringsStart ← Bytes.u32At data (chunk.start + 20)
  let stylesStart ← Bytes.u32At data (chunk.start + 24)
  return {
    chunk, stringCount, styleCount, sorted := flags.testBit 0, utf8 := flags.testBit 8
    stringsStart, stylesStart }

end PoolHeader

/-- A string pool: its header, and its strings by ordinal. -/
structure StringPool where
  header : PoolHeader
  strings : List Text

namespace StringPool

/-- The units that bytes hold, two bytes a unit; a last single byte is dropped. -/
def unitsOfBytes : List UInt8 → List UInt16
  | low :: high :: rest => UInt16.ofNat (littleEndian [low, high]) :: unitsOfBytes rest
  | _ => []

/-- The string of a UTF-16 pool at `offset`: the number of units, then the units. -/
def utf16At (data : ByteArray) (offset : Int) : Except Fault Text := do
  let length ← Bytes.u16At data offset
  if length = 0 then return .empty
  return ⟨unitsOfBytes (← Bytes.bytesAt data (offset + 2) (length * 2))⟩

/-- The string of a UTF-8 pool at `offset`: one byte that is passed over, the number of bytes, then
the bytes. The number is one byte, so a string has at most 255 of them. -/
def utf8At (data : ByteArray) (offset : Int) : Except Fault Text := do
  let length ← Bytes.u8At data (offset + 1)
  return Utf8.decode (← Bytes.bytesAt data (offset + 2) length)

/-- String number `ordinal` of a pool. -/
def stringOf (data : ByteArray) (header : PoolHeader) (ordinal : Nat) : Except Fault Text := do
  let place ← Bytes.u32At data (header.chunk.start + 28 + 4 * ordinal)
  let offset := header.chunk.start + header.stringsStart + place
  let stored ← if header.utf8 then utf8At data offset else utf16At data offset
  return stored.strip Text.isControlOrSpace

/-- Reads the pool of a chunk. -/
def read (data : ByteArray) (chunk : Chunk) : Except Fault StringPool := do
  let header ← PoolHeader.read data chunk
  return { header, strings := ← collect header.stringCount (stringOf data header) }

/-- Reads the pool at `offset`, which is needed as `purpose`. -/
def readAt (data : ByteArray) (offset : Int) (purpose : Text) : Except Fault StringPool := do
  let chunk ← Chunk.readAt data offset
  if chunk.kind ≠ Chunk.stringPool then
    throw (.layout (.notAStringPool chunk.kind purpose) offset)
  read data chunk

end StringPool
end CompiledResources
