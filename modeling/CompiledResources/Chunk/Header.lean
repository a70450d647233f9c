import CompiledResources.Chunk
import CompiledResources.Decoder
import CompiledResources.Text.Blank

/-!
The fixed fields behind the chunk header of a table, a package and a type spec. The field offsets
are those of the format, counted from the start of the chunk.
-/

namespace CompiledResources

/-- The header of a whole table. -/
structure TableHeader where
  chunk : Chunk
  packageCount : Nat

namespace TableHeader

/-- Reads the table header at the start of a buffer. -/
def read (data : ByteArray) : Except Fault TableHeader := do
  let chunk ← Chunk.readAt data 0
  if chunk.kind ≠ Chunk.table then throw (.layout (.notATable chunk.kind) 0)
  if chunk.headerSize < 12 then throw (.layout (.tableHeaderTooSmall chunk.headerSize) 0)
  return { chunk, packageCount := ← Bytes.u32At data 8 }

end TableHeader

/-- The header of a package chunk. -/
structure PackageHeader where
  chunk : Chunk
  id : Nat
  name : Text
  /-- Offset of the type name pool, from the start of the chunk. -/
  typeStrings : Nat
  lastPublicType : Nat
  /-- Offset of the key name pool, from the start of the chunk. -/
  keyStrings : Nat
  lastPublicKey : Nat

namespace PackageHeader

/-- Number of units that the name field holds. -/
def nameLength : Nat := 128

/-- The name in a name field: its units before the first zero, without white space at the ends. -/
def nameOf (units : List Nat) : Text :=
  Text.strip Text.isWhiteSpace ⟨(units.takeWhile (· ≠ 0)).map UInt16.ofNat⟩

/-- Reads the fields behind the chunk header of a package. -/
def read (data : ByteArray) (chunk : Chunk) : Except Fault PackageHeader := do
  let id ← Bytes.u32At data (chunk.start + 8)
  let units ← collect nameLength fun i => Bytes.u16At data (chunk.start + 12 + 2 * i)
  let typeStrings ← Bytes.u32At data (chunk.start + 268)
  let lastPublicType ← Bytes.u32At data (chunk.start + 272)
  let keyStrings ← Bytes.u32At data (chunk.start + 276)
  let lastPublicKey ← Bytes.u32At data (chunk.start + 280)
  return { chunk, id, name := nameOf units, typeStrings, lastPublicType, keyStrings, lastPublicKey }

end PackageHeader

/-- The header of a type spec. -/
structure TypeSpec where
  chunk : Chunk
  id : Nat
  reserved : Nat
  typesCount : Nat
  entryCount : Nat

namespace TypeSpec

/-- Reads the fields behind the chunk header of a type spec. -/
def read (data : ByteArray) (chunk : Chunk) : Decoder TypeSpec := do
  let id ← Bytes.u8At data (chunk.start + 8)
  Decoder.check (id = 0) .typeSpecIdNotZero (chunk.start + 8)
  let reserved ← Bytes.u8At data (chunk.start + 9)
  Decoder.check (reserved ≠ 0) .typeSpecReservedZero (chunk.start + 9)
  let typesCount ← Bytes.u16At data (chunk.start + 10)
  let entryCount ← Bytes.u32At data (chunk.start + 12)
  return { chunk, id, reserved, typesCount, entryCount }

end TypeSpec
end CompiledResources
