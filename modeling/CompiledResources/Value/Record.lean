import CompiledResources.Decoder
import CompiledResources.Bytes

/-!
Value records: the eight bytes that store a value, namely their size, a reserved byte, the type code
and the word.
-/

namespace CompiledResources

/-- A stored value. -/
structure ValueRecord where
  offset : Int
  size : Nat
  reserved : Nat
  code : Nat
  word : Nat
deriving DecidableEq, Repr

namespace ValueRecord

/-- Number of bytes of a record. -/
def width : Nat := 8

/-- Reads the record at `offset`; there is none when it declares more than its eight bytes. -/
def readAt (data : ByteArray) (offset : Int) : Decoder (Option ValueRecord) := do
  let size ← Bytes.u16At data offset
  if width < size then return none
  let reserved ← Bytes.u8At data (offset + 2)
  Decoder.check (reserved ≠ 0) .valueReservedZero (offset + 2)
  let code ← Bytes.u8At data (offset + 3)
  let word ← Bytes.u32At data (offset + 4)
  return some { offset, size, reserved, code, word }

/-- Just past the record. -/
def stop (record : ValueRecord) : Int := record.offset + width

end ValueRecord
end CompiledResources
