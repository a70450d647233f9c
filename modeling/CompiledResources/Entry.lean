import CompiledResources.Value.Bag
import CompiledResources.Value.Record

/-!
Entries: a header and either one value or the records of a map. An entry whose header does not fit
its kind, or whose value is not decoded, is left out with a notice and does not disturb the others.
-/

namespace CompiledResources

/-- The header of an entry. -/
structure EntryHeader where
  size : Nat
  flags : Nat
  /-- Index of the name in the key name pool. -/
  key : Nat
  /-- Id of the map that a map entry extends; zero for none. -/
  parent : Nat
  /-- Number of records of a map entry. -/
  count : Nat
deriving DecidableEq, Repr

namespace EntryHeader

/-- The entry is a map. -/
def isMap (flags : Nat) : Bool := flags.testBit 0

/-- The entry may be used by other packages. -/
def isPublic (flags : Nat) : Bool := flags.testBit 1

/-- Another table may override the entry. -/
def isWeak (flags : Nat) : Bool := flags.testBit 2

/-- The entry has the compact form, which is not decoded. -/
def isCompact (flags : Nat) : Bool := flags.testBit 3

/-- The header size of an entry with the given flags. -/
def expectedSize (flags : Nat) : Nat := if isMap flags then 16 else 8

/-- Notes the flags that have no effect on decoding, each once in a run. -/
def noteFlags (flags : Nat) : Decoder Unit := do
  if isWeak flags then Decoder.noteOnce "weak" .weakEntry
  if isCompact flags then Decoder.noteOnce "compact" .compactEntry

/-- Reads the header at `offset`; there is none when its size does not fit its kind. -/
def readAt (data : ByteArray) (offset : Int) : Decoder (Option EntryHeader) := do
  let size ← Bytes.u16At data offset
  let flags ← Bytes.u16At data (offset + 2)
  let key ← Bytes.u32At data (offset + 4)
  noteFlags flags
  if size ≠ expectedSize flags then
    Decoder.note (.unknownEntrySize size offset)
    return none
  if isMap flags then
    let parent ← Bytes.u32At data (offset + 8)
    let count ← Bytes.u32At data (offset + 12)
    return some { size, flags, key, parent, count }
  else return some { size, flags, key, parent := 0, count := 0 }

end EntryHeader

namespace Entry

/-- What the value of an entry depends on besides its bytes: the name of its type and the texts of
the global string pool. -/
structure Context where
  typeName : Text
  strings : Int → Option Text

/-- Number of bytes of a map record: a name and a value record. -/
def recordWidth : Nat := 12

/-- Reads map records into a bag: `count` of them, of which the next has the number `index` and
stands at `offset + 12 * index`. A record whose value is not decoded is left out; one that is too
large makes the rest unreadable. -/
def readRecords (context : Context) (data : ByteArray) (offset : Int) :
    (count index : Nat) → Bag → Decoder (Except Refusal Bag)
  | 0, _, bag => return .ok bag
  | count + 1, index, bag => do
    let place := offset + recordWidth * index
    let name ← Bytes.u32At data place
    match ← ValueRecord.readAt data (place + 4) with
    | none => return .error (.oversizedRecord index place)
    | some record =>
      match Value.decode context.strings record.code record.word with
      | .ok value =>
        let bag := bag.add context.typeName (Numeral.decimal name) value
        readRecords context data offset count (index + 1) bag
      | .error refusal =>
        Decoder.note (.recordLeftOut (Numeral.decimal name) refusal)
        readRecords context data offset count (index + 1) bag

/-- Reads the value behind the header of an entry. -/
def readValue (context : Context) (data : ByteArray) (header : EntryHeader) (offset : Int) :
    Decoder (Except Refusal Value) := do
  if EntryHeader.isMap header.flags then
    match ← readRecords context data offset header.count 0 [] with
    | .ok bag => return .ok (bag.toValue context.typeName)
    | .error refusal => return .error refusal
  else
    match ← ValueRecord.readAt data offset with
    | none => return .error (.oversizedValue offset)
    | some record => return Value.decode context.strings record.code record.word

end Entry
end CompiledResources
