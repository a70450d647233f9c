import CompiledResources.Chunk.Header
import CompiledResources.Contents
import CompiledResources.Entry
import CompiledResources.Entry.Index
import CompiledResources.StringPool

/-!
Decoding the contents of a table from its bytes. The chunks of the table are walked in order; each
string pool among them replaces global strings, and each package chunk adds to the package of its id
and name. Within a package chunk a type spec declares a type and a type chunk adds resources to one.
Chunks of other kinds are passed over.
-/

namespace CompiledResources

/-- Performs a step for each chunk of a walk, and then ends with the fault that cut it short. -/
def Chunk.Walk.visit {σ : Type} (walk : Chunk.Walk) (step : σ → Chunk → Decoder σ) (state : σ) :
    Decoder σ := do
  let final ← walk.chunks.foldlM step state
  match walk.fault with
  | some fault => throw fault
  | none => return final

/-- What the chunks nested in a package chunk refer to. -/
structure PackageScope where
  data : ByteArray
  packageId : Nat
  typeNames : List Text
  keyNames : List Text
  /-- The global strings collected before the package chunk. -/
  strings : OrderedMap Int Text

namespace PackageScope

/-- Name of a type whose id has none in the type name pool. -/
def unnamedType : Text := "<INVALID TYPE>"

/-- Name of a resource whose key has none in the key name pool. -/
def unnamedResource : Text := "<INVALID RESOURCE>"

/-- The name of a type in the type name pool; ids count from one. -/
def typeName? (scope : PackageScope) (id : Nat) : Option Text :=
  if id = 0 then none else scope.typeNames[id - 1]?

/-- The name that a type id stands for in the package chunk. -/
def typeName (scope : PackageScope) (id : Nat) : Text :=
  (scope.typeName? id).getD unnamedType

/-- The name that a key stands for in the package chunk. -/
def keyName (scope : PackageScope) (key : Nat) : Text :=
  scope.keyNames[key]?.getD unnamedResource

/-- Reads the entry at a place; there is none when it is left out. -/
def readEntry (scope : PackageScope) (typeId : Nat) (place : EntryPlace) :
    Decoder (Option Resource) := do
  match ← EntryHeader.readAt scope.data place.offset with
  | none => return none
  | some header =>
    let name := scope.keyName header.key
    let context : Entry.Context :=
      { typeName := scope.typeName typeId, strings := fun ordinal => scope.strings.get? ordinal }
    match ← Entry.readValue context scope.data header (place.offset + header.size) with
    | .ok value =>
      let id := ResourceId.join ⟨scope.packageId, typeId, place.entry⟩
      return some { id, name, value }
    | .error refusal =>
      Decoder.note (.entryLeftOut name refusal)
      return none

/-- Reads the entries at several places, in order. -/
def readEntries (scope : PackageScope) (typeId : Nat) (places : List EntryPlace) :
    Decoder (List Resource) := do
  return (← places.mapM (scope.readEntry typeId)).filterMap id

end PackageScope

/-- A package while the chunks nested in a package chunk add to it, and the ids of the types that
the type specs among them have declared. -/
structure OpenPackage where
  package : Package
  declared : List Nat := []

namespace OpenPackage

/-- Declares the type of a type spec. -/
def declare (scope : PackageScope) (state : OpenPackage) (chunk : Chunk) :
    Decoder OpenPackage := do
  let spec ← TypeSpec.read scope.data chunk
  if (scope.typeName? spec.id).isNone then Decoder.note (.unnamedType spec.id)
  return {
    package := state.package.declare spec.id (scope.typeName spec.id)
    declared := spec.id :: state.declared }

/-- Adds the entries of a type chunk to their type, which must be declared. -/
def fill (scope : PackageScope) (state : OpenPackage) (chunk : Chunk) : Decoder OpenPackage := do
  let header ← TypeHeader.read scope.data chunk
  if header.id ∉ state.declared then
    throw (.layout (.undeclaredType header.id) chunk.start)
  let places ← EntryPlace.readAll scope.data header
  let resources ← scope.readEntries header.id places
  return { state with
    package :=
      state.package.add header.id (scope.typeName header.id) header.qualifiers resources }

/-- Takes in a nested chunk. -/
def enter (scope : PackageScope) (state : OpenPackage) (chunk : Chunk) : Decoder OpenPackage :=
  if chunk.kind = Chunk.typeSpec then declare scope state chunk
  else if chunk.kind = Chunk.typeEntries then fill scope state chunk
  else pure state

end OpenPackage

/-- Notes how many variants each type of a package has, and how many resources the first of them. -/
def Package.noteSummary (package : Package) : Decoder Unit :=
  package.types.forM fun group =>
    Decoder.note <|
      .typeSummary group.name group.id group.variants.length
        ((group.variants.head?.map fun variant => variant.resources.length).getD 0)

/-- Contents while the chunks of a table add to them, and the number of package chunks so far. -/
structure OpenTable where
  contents : Contents := {}
  packageChunks : Nat := 0

namespace OpenTable

/-- Replaces global strings by those of a pool, ordinal by ordinal. -/
def addStrings (data : ByteArray) (state : OpenTable) (chunk : Chunk) : Decoder OpenTable := do
  let pool ← StringPool.read data chunk
  let pairs := pool.strings.zipIdx.map fun pair => ((pair.2 : Int), pair.1)
  return { state with
    contents := { state.contents with strings := state.contents.strings.putAll pairs } }

/-- Adds a package chunk to the package of its id and name. The nested chunks start behind the key
name pool. -/
def addPackage (data : ByteArray) (state : OpenTable) (chunk : Chunk) : Decoder OpenTable := do
  let header ← PackageHeader.read data chunk
  Decoder.note (.packageStart state.packageChunks header.id header.name)
  let typePool ← StringPool.readAt data (chunk.start + header.typeStrings) "package type strings"
  let keyPool ← StringPool.readAt data (chunk.start + header.keyStrings) "package key strings"
  let scope : PackageScope := {
    data, packageId := header.id, typeNames := typePool.strings, keyNames := keyPool.strings
    strings := state.contents.strings }
  let known := state.contents.package? header.id header.name
  let walk := Chunk.walk data 1 chunk.stop keyPool.header.chunk.stop
  let final ← walk.visit (OpenPackage.enter scope)
    { package := known.getD { id := header.id, name := header.name } }
  final.package.noteSummary
  let packages :=
    Keyed.upsert Package.key ((header.id : Int), header.name) (fun _ => final.package)
      final.package state.contents.packages
  return {
    contents := { state.contents with packages }
    packageChunks := state.packageChunks + 1 }

/-- Takes in a chunk of the table. -/
def enter (data : ByteArray) (state : OpenTable) (chunk : Chunk) : Decoder OpenTable :=
  if chunk.kind = Chunk.stringPool then addStrings data state chunk
  else if chunk.kind = Chunk.package then addPackage data state chunk
  else pure state

end OpenTable

/-- Decodes the contents of a table. The buffer starts with the table and holds all of it. -/
def Contents.decode (data : ByteArray) : Decoder Contents := do
  let header ← TableHeader.read data
  Decoder.note (.tableStart header.packageCount)
  if (data.size : Int) < header.chunk.stop then
    throw (.layout (.tableTruncated header.chunk.size data.size) 0)
  let walk := Chunk.walk data 8 header.chunk.stop header.chunk.headerSize
  let final ← walk.visit (OpenTable.enter data) {}
  return final.contents

end CompiledResources
