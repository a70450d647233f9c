import CompiledResources.Table.Session

/-!
Tables as objects that change while an operation runs. An operation is a sequence of single changes.
An error ends it where it is raised: what was changed by then stays changed unless the operation
itself puts it back. A table is building while its bytes are decoded, and its packages and strings
are filled in one after another.
-/

namespace CompiledResources

/-- A table whose fields are changed one at a time. -/
structure TableObject where
  policy : Policy := .strict
  stage : Stage := .empty
  packages : List Package := []
  strings : OrderedMap Int Text := []

/-- The table objects by name, and all that the logger of each has got. -/
structure World where
  objects : Text → TableObject
  logs : Text → List Notice := fun _ => []

namespace World

/-- Changes one object. -/
def change (world : World) (name : Text) (f : TableObject → TableObject) : World :=
  { world with
    objects := fun other => if other = name then f (world.objects name) else world.objects other }

/-- Hands notices to the logger of one object. -/
def log (world : World) (name : Text) (notices : List Notice) : World :=
  { world with
    logs := fun other => if other = name then world.logs name ++ notices else world.logs other }

end World

/-- A sequence of changes that an error may end. -/
abbrev Operation (α : Type) := ExceptT TableError (StateM World) α

namespace Operation

/-- Performs an operation and gives its result with the world that it leaves. -/
def perform {α : Type} (operation : Operation α) (world : World) : Except TableError α × World :=
  operation.run.run world

/-- The object of a name as it is now. -/
def object (name : Text) : Operation TableObject := return (← get).objects name

/-- Changes the object of a name. -/
def change (name : Text) (f : TableObject → TableObject) : Operation Unit :=
  modify fun world => world.change name f

/-- Hands notices to the logger of a name. -/
def log (name : Text) (notices : List Notice) : Operation Unit :=
  modify fun world => world.log name notices

/-- Puts the object of a name into a stage. -/
def setStage (name : Text) (stage : Stage) : Operation Unit :=
  change name fun object => { object with stage }

/-- Goes on only with an empty table. -/
def requireEmpty (name : Text) : Operation Unit := do
  let table ← object name
  if table.stage ≠ .empty then throw (.notEmpty table.stage)

/-- Decodes bytes under the policy of a table. Each decoding starts a journal of its own, whose
notices go to the logger of the table however it ends. -/
def decode (name : Text) (data : ByteArray) : Operation Contents := do
  let table ← object name
  let (result, journal) := (Contents.decode data).run table.policy {}
  log name journal.notices.toList
  match result with
  | .ok contents => return contents
  | .error fault => throw (.fault fault)

/-- Adds packages behind those of a table. -/
def addPackages (name : Text) (packages : List Package) : Operation Unit :=
  change name fun object => { object with packages := object.packages ++ packages }

/-- Sets one global string of a table. -/
def setString (name : Text) (pair : Int × Text) : Operation Unit :=
  change name fun object => { object with strings := object.strings.put pair.1 pair.2 }

/-- Merges one package into a table. -/
def mergePackage (name : Text) (package : Package) : Operation Unit :=
  change name fun object => { object with
    packages :=
      Keyed.upsert Package.key package.key (·.merge package) package object.packages }

/-- Parses bytes into an empty table. The table is building meanwhile, and it is set back to empty
when the bytes cannot be decoded. -/
def parse (name : Text) (data : ByteArray) : Operation Unit := do
  requireEmpty name
  setStage name .building
  let contents ← tryCatch (decode name data) fun error => do
    setStage name .empty
    throw error
  addPackages name contents.packages
  contents.strings.forM (setString name)
  setStage name .ready

/-- Parses the table at the start of a stream. The stage is looked at before the stream is read, and
once more when its bytes are there. -/
def parseStream (name : Text) (stream : ByteStream) : Operation Unit := do
  requireEmpty name
  match stream.gather with
  | .ok data => parse name data
  | .error error => throw error

/-- Parses the bytes of a file, which is read first. -/
def parseFile (name path : Text) (file : Except FileFailure ByteArray) : Operation Unit :=
  match file with
  | .ok data => parse name data
  | .error failure => throw (.unreadable (.fileFailed path failure))

/-- Parses the bytes of a source. -/
def load (name : Text) : Source → Operation Unit
  | .bytes data => parse name data
  | .stream stream => parseStream name stream
  | .file path file => parseFile name path file

/-- Merges another table into a table, package by package and then string by string. -/
def merge (name other : Text) : Operation Unit := do
  let table ← object name
  let merged ← object other
  if table.stage ≠ .ready ∨ merged.stage ≠ .ready then throw .notParsed
  merged.packages.forM (mergePackage name)
  merged.strings.forM (setString name)

end Operation

/-- What is called on a table object. -/
inductive Call where
  | load (source : Source)
  | merge (other : Text)

namespace Call

/-- The operation that a call on the table of a name performs. -/
def operation (name : Text) : Call → Operation Unit
  | load source => .load name source
  | merge other => .merge name other

/-- The action on a session that a call stands for. -/
def action : Call → Action
  | load source => .load source
  | merge other => .merge other

/-- The call parses a source. -/
def isLoad : Call → Bool
  | load _ => true
  | merge _ => false

end Call

namespace World

/-- Performs a call on the table of a name. -/
def call (world : World) (name : Text) (call : Call) : Except TableError Unit × World :=
  (call.operation name).perform world

/-- The world after calls on the tables of given names. -/
def callAll (world : World) (calls : List (Text × Call)) : World :=
  calls.foldl (fun current call => (current.call call.1 call.2).2) world

/-- How many of the calls load the table of a name with success. -/
def loads (world : World) (name : Text) : List (Text × Call) → Nat
  | [] => 0
  | (target, call) :: rest =>
    let (result, after) := world.call target call
    (if target = name ∧ call.isLoad ∧ result.isOk then 1 else 0) + after.loads name rest

end World

/-- A table as an object between operations. -/
def Table.object (table : Table) : TableObject where
  policy := table.policy
  stage := if table.isReady then .ready else .empty
  packages := table.contents.packages
  strings := table.contents.strings

/-- The tables of a session as objects. -/
def Session.objects (session : Session) (name : Text) : TableObject := (session.table name).object

/-- New tables with their policies. -/
def Session.created (tables : List (Text × Policy)) : Session :=
  performAll [] (tables.map fun table => (table.1, .create table.2))

/-- New table objects, whose loggers have got nothing yet. -/
def World.created (tables : List (Text × Policy)) : World where
  objects := (Session.created tables).objects

end CompiledResources
