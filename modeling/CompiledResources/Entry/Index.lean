import CompiledResources.Chunk
import CompiledResources.Qualifiers

/-!
The header of a type chunk and its index table, which says where the entries are. A dense table has
an offset for every entry number and a mark for the numbers without an entry; a sparse one has pairs
of an entry number and a quarter of an offset.
-/

namespace CompiledResources

/-- The header of a type chunk. -/
structure TypeHeader where
  chunk : Chunk
  id : Nat
  flags : Nat
  reserved : Nat
  entryCount : Nat
  /-- Offset of the entries, from the start of the chunk. -/
  entriesStart : Nat
  qualifiers : Qualifiers
  /-- Offset of the index table, just past the record of the qualifiers. -/
  indexStart : Int

namespace TypeHeader

/-- The index table is sparse. -/
def isSparse (flags : Nat) : Bool := flags.testBit 0

/-- The index table holds offsets of 16 bits. -/
def hasShortOffsets (flags : Nat) : Bool := flags.testBit 1

/-- Reads the fields behind the chunk header of a type chunk. -/
def read (data : ByteArray) (chunk : Chunk) : Decoder TypeHeader := do
  let id ← Bytes.u8At data (chunk.start + 8)
  Decoder.check (id = 0) .typeIdNotZero (chunk.start + 8)
  let flags ← Bytes.u8At data (chunk.start + 9)
  if hasShortOffsets flags then throw (.unsupported .shortOffsets (chunk.start + 9))
  Decoder.check (1 < flags) .typeFlagsKnown (chunk.start + 9)
  let reserved ← Bytes.u16At data (chunk.start + 10)
  Decoder.check (reserved ≠ 0) .typeReservedZero (chunk.start + 10)
  let entryCount ← Bytes.u32At data (chunk.start + 12)
  let entriesStart ← Bytes.u32At data (chunk.start + 16)
  let (qualifiers, indexStart) ← Qualifiers.readAt data (chunk.start + 20)
  return { chunk, id, flags, reserved, entryCount, entriesStart, qualifiers, indexStart }

end TypeHeader

/-- Where an entry is. -/
structure EntryPlace where
  entry : Nat
  offset : Int
deriving DecidableEq, Repr

namespace EntryPlace

/-- The offset that marks an entry number without an entry. -/
def noEntry : Nat := 0xffffffff

/-- Slot number `slot` of a dense table at `index`. -/
def denseSlot (data : ByteArray) (base index : Int) (slot : Nat) :
    Except Fault (Option EntryPlace) := do
  let offset ← Bytes.u32At data (index + 4 * slot)
  return if offset = noEntry then none else some { entry := slot, offset := base + offset }

/-- Slot number `slot` of a sparse table at `index`. -/
def sparseSlot (data : ByteArray) (base index : Int) (slot : Nat) :
    Except Fault (Option EntryPlace) := do
  let entry ← Bytes.u16At data (index + 4 * slot)
  let quarter ← Bytes.u16At data (index + 4 * slot + 2)
  return some { entry, offset := base + 4 * quarter }

/-- Reads the index table of a type chunk: its entries in the order of the table. -/
def readAll (data : ByteArray) (header : TypeHeader) : Except Fault (List EntryPlace) := do
  let base := header.chunk.start + header.entriesStart
  let slot := if TypeHeader.isSparse header.flags then sparseSlot else denseSlot
  let slots ← collect header.entryCount (slot data base header.indexStart)
  return slots.filterMap id

end EntryPlace
end CompiledResources
