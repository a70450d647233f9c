import CompiledResources.Chunk.Header
import CompiledResources.Layout.Entry
import CompiledResources.Layout.StringPool

/-!
Packages and whole tables as bytes, and what these keep of the texts and qualifiers of a plan.
-/

namespace CompiledResources.Layout

/-- A chunk of a kind that decoding passes over. -/
structure ForeignChunk where
  kind : Nat
  headerSize : Nat
  body : List UInt8
deriving DecidableEq, Repr

/-- The chunk as bytes. -/
def ForeignChunk.bytes (foreign : ForeignChunk) : List UInt8 :=
  chunk foreign.kind foreign.headerSize foreign.body

/-- A chunk nested in a package chunk. -/
inductive NestedPlan where
  | typeSpec (id entryCount : Nat)
  | entries (plan : TypePlan)
  | foreign (chunk : ForeignChunk)
deriving DecidableEq, Repr

/-- The nested chunk as bytes. -/
def NestedPlan.bytes : NestedPlan → List UInt8
  | .typeSpec id entryCount => Layout.typeSpec id entryCount
  | .entries plan => typeChunk plan
  | .foreign chunk => chunk.bytes

/-- A package chunk to be stored. -/
structure PackagePlan where
  id : Nat
  name : Text
  typeNames : List Text
  keyNames : List Text
  nested : List NestedPlan
deriving DecidableEq, Repr

/-- The name field of a package. -/
def nameField (name : Text) : List UInt8 :=
  (name.units.take PackageHeader.nameLength).flatMap (fun u => number 2 u.toNat) ++
    (List.replicate (PackageHeader.nameLength - name.length) (number 2 0)).flatten

/-- A package chunk: the header, the two name pools and the nested chunks. -/
def packageChunk (plan : PackagePlan) : List UInt8 :=
  let typePool := stringPool false plan.typeNames
  let keyPool := stringPool false plan.keyNames
  chunk Chunk.package 288 <|
    number 4 plan.id ++ nameField plan.name ++ number 4 288 ++
      number 4 plan.typeNames.length ++ number 4 (288 + typePool.length) ++
      number 4 plan.keyNames.length ++ number 4 0 ++ typePool ++ keyPool ++
      plan.nested.flatMap NestedPlan.bytes

/-- A chunk of a table behind its global string pool. -/
inductive TopPlan where
  | package (plan : PackagePlan)
  | foreign (chunk : ForeignChunk)
deriving DecidableEq, Repr

/-- The chunk as bytes. -/
def TopPlan.bytes : TopPlan → List UInt8
  | .package plan => packageChunk plan
  | .foreign chunk => chunk.bytes

/-- A table to be stored: chunks around one global string pool. -/
structure TablePlan where
  utf8 : Bool := false
  strings : List Text := []
  /-- Chunks before the global string pool. -/
  leading : List ForeignChunk := []
  chunks : List TopPlan
deriving DecidableEq, Repr

namespace TablePlan

/-- The package chunks of the table. -/
def packages (plan : TablePlan) : List PackagePlan :=
  plan.chunks.filterMap fun
    | .package package => some package
    | .foreign _ => none

/-- The table as bytes. -/
def bytes (plan : TablePlan) : List UInt8 :=
  chunk Chunk.table 12 <|
    number 4 plan.packages.length ++ plan.leading.flatMap ForeignChunk.bytes ++
      stringPool plan.utf8 plan.strings ++ plan.chunks.flatMap TopPlan.bytes

end TablePlan

/-! ### What is kept of a plan -/

/-- What a name field keeps of a name: its units before the first zero, as many as there is room
for, without white space at the ends. -/
def keptName (name : Text) : Text :=
  Text.strip Text.isWhiteSpace ⟨(name.units.take PackageHeader.nameLength).takeWhile (· ≠ 0)⟩

/-- The nested chunk with its qualifiers as they are kept. -/
def NestedPlan.kept : NestedPlan → NestedPlan
  | .typeSpec id entryCount => .typeSpec id entryCount
  | .entries plan => .entries { plan with qualifiers := keptQualifiers plan.qualifiers }
  | .foreign chunk => .foreign chunk

/-- The package chunk with its names and nested chunks as they are kept. -/
def PackagePlan.kept (plan : PackagePlan) : PackagePlan where
  id := plan.id
  name := keptName plan.name
  typeNames := plan.typeNames.map (keptString false)
  keyNames := plan.keyNames.map (keptString false)
  nested := plan.nested.map NestedPlan.kept

/-- The chunk with what it holds as it is kept. -/
def TopPlan.kept : TopPlan → TopPlan
  | .package plan => .package plan.kept
  | .foreign chunk => .foreign chunk

/-- The table with its strings and chunks as they are kept. -/
def TablePlan.kept (plan : TablePlan) : TablePlan :=
  { plan with
    strings := plan.strings.map (keptString plan.utf8)
    chunks := plan.chunks.map TopPlan.kept }

end CompiledResources.Layout
