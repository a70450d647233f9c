import CompiledResources.Entry.Index
import CompiledResources.Layout.Qualifiers

/-!
Values, entries and type chunks as bytes, from plans that say what is to be stored.
-/

namespace CompiledResources.Layout

/-- A value to be stored: its type code and its word. -/
structure ValuePlan where
  code : Nat
  word : Nat
deriving DecidableEq, Repr

/-- What an entry holds: one value, or the records of a map. -/
inductive EntryBody where
  | simple (value : ValuePlan)
  | map (parent : Nat) (records : List (Nat × ValuePlan))
deriving DecidableEq, Repr

/-- An entry to be stored under a number. -/
structure EntryPlan where
  number : Nat
  key : Nat
  /-- The flags besides the one of map entries. -/
  flags : Nat := 0
  body : EntryBody
deriving DecidableEq, Repr

/-- A type chunk to be stored. -/
structure TypePlan where
  id : Nat
  qualifiers : Qualifiers := {}
  sparse : Bool := false
  /-- Number of slots of a dense index table. -/
  slots : Nat
  entries : List EntryPlan
deriving DecidableEq, Repr

/-- A value record. -/
def value (plan : ValuePlan) : List UInt8 :=
  number 2 8 ++ number 1 0 ++ number 1 plan.code ++ number 4 plan.word

/-- An entry: its header and its value or records. -/
def entry (plan : EntryPlan) : List UInt8 :=
  match plan.body with
  | .simple stored => number 2 8 ++ number 2 plan.flags ++ number 4 plan.key ++ value stored
  | .map parent records =>
    number 2 16 ++ number 2 (plan.flags ||| 1) ++ number 4 plan.key ++ number 4 parent ++
      number 4 records.length ++
      records.flatMap fun record => number 4 record.1 ++ value record.2

/-- A dense index table of numbers and offsets: a slot for each number below `slots`. -/
def denseIndex (slots : Nat) (places : List (Nat × Nat)) : List UInt8 :=
  (List.range slots).flatMap fun slot =>
    number 4 ((places.lookup slot).getD EntryPlace.noEntry)

/-- A sparse index table of numbers and offsets: a pair for each. -/
def sparseIndex (places : List (Nat × Nat)) : List UInt8 :=
  places.flatMap fun place => number 2 place.1 ++ number 2 (place.2 / 4)

namespace TypePlan

/-- The entries one behind another. -/
def stored (plan : TypePlan) : List (List UInt8) := plan.entries.map Layout.entry

/-- The entries with where they start among the stored entries. -/
def located (plan : TypePlan) : List (EntryPlan × Nat) :=
  plan.entries.zip (starts 0 plan.stored)

/-- The entry of a number with where it starts. Of several entries of one number, the index table
knows only the last. -/
def locate? (plan : TypePlan) (number : Nat) : Option (EntryPlan × Nat) :=
  plan.located.reverse.find? fun found => found.1.number = number

/-- The numbers of the entries and where the entries of these numbers start. -/
def places (plan : TypePlan) : List (Nat × Nat) :=
  plan.entries.map fun entry =>
    (entry.number, ((plan.locate? entry.number).map Prod.snd).getD 0)

/-- The numbers in the order in which the index table goes through them. -/
def numbers (plan : TypePlan) : List Nat :=
  if plan.sparse then plan.entries.map EntryPlan.number else List.range plan.slots

/-- The entries that the index table refers to, in its order. -/
def ordered (plan : TypePlan) : List EntryPlan :=
  plan.numbers.filterMap fun number => (plan.locate? number).map Prod.fst

/-- Number of slots or pairs of the index table. -/
def indexCount (plan : TypePlan) : Nat :=
  if plan.sparse then plan.entries.length else plan.slots

/-- The index table. -/
def index (plan : TypePlan) : List UInt8 :=
  if plan.sparse then sparseIndex plan.places else denseIndex plan.slots plan.places

end TypePlan

/-- A type chunk: the header with the qualifiers, the index table and the entries. -/
def typeChunk (plan : TypePlan) : List UInt8 :=
  let record := qualifiers plan.qualifiers
  let headerSize := 20 + record.length
  chunk Chunk.typeEntries headerSize <|
    number 1 plan.id ++ number 1 (if plan.sparse then 1 else 0) ++ number 2 0 ++
      number 4 plan.indexCount ++ number 4 (headerSize + plan.index.length) ++ record ++
      plan.index ++ plan.stored.flatten

/-- A type spec with a word of flags for each entry. -/
def typeSpec (id entryCount : Nat) : List UInt8 :=
  chunk Chunk.typeSpec 16 <|
    number 1 id ++ number 1 0 ++ number 2 0 ++ number 4 entryCount ++
      (List.replicate entryCount (number 4 0)).flatten

end CompiledResources.Layout
