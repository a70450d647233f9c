import CompiledResources.Console
import CompiledResources.Rendering
import CompiledResources.Table

/-!
The command line: four queries on the table in a file. Reading the arguments and answering a query
are functions; the file itself is read by whatever the machine offers for it, which may be a tree of
files (`Invocation.runIn`).
-/

namespace CompiledResources.CommandLine

open Numeral

/-- What is asked of a table. -/
inductive Query where
  /-- Everything in the table. -/
  | dump
  /-- The resources with the id that a text denotes. -/
  | find (id : Text)
  /-- The string resource with the given name. -/
  | string (name : Text)
  /-- The resources of the type with the given name. -/
  | type (name : Text)
deriving DecidableEq, Repr

/-- A query, the file that it is about, and how the file is decoded. -/
structure Invocation where
  query : Query
  file : Text
  lenient : Bool := false
  verbose : Bool := false
deriving DecidableEq, Repr

/-- Arguments sorted into operands and options. -/
structure Arguments where
  operands : List Text := []
  lenient : Bool := false
  verbose : Bool := false

/-- Sorts arguments. Options may stand anywhere before `--`, behind which all arguments are
operands; there is no result for an unknown option. -/
def sortArguments : List Text → Option Arguments
  | [] => some {}
  | arg :: rest =>
    if arg = "--" then some { operands := rest }
    else if arg = "--lenient" then (sortArguments rest).map ({ · with lenient := true })
    else if arg = "--verbose" then (sortArguments rest).map ({ · with verbose := true })
    else if arg.units.head? = some 0x2D ∧ 1 < arg.length then none
    else (sortArguments rest).map fun sorted => { sorted with operands := arg :: sorted.operands }

/-- The query that operands ask, and its file; operands beyond those needed are ignored. -/
def query? : List Text → Option (Query × Text)
  | command :: file :: rest =>
    if command = "dump" then some (.dump, file)
    else
      match rest with
      | [] => none
      | subject :: _ =>
        if command = "find" then some (.find subject, file)
        else if command = "string" then some (.string subject, file)
        else if command = "type" then some (.type subject, file)
        else none
  | _ => none

/-- The invocation that arguments ask for. -/
def Invocation.ofArguments? (args : List Text) : Option Invocation := do
  let sorted ← sortArguments args
  let (query, file) ← query? sorted.operands
  return { query, file, lenient := sorted.lenient, verbose := sorted.verbose }

/-- A line that a run writes. -/
inductive Line where
  /-- A notice, through the console. -/
  | noted (level : Level) (message : Text)
  /-- A line of the answer. -/
  | answered (text : Text)
  /-- A failure, on the error output. -/
  | failed (text : Text)
deriving DecidableEq, Repr

/-- The lines of a run and its exit code. -/
structure Report where
  lines : List Line
  exit : Nat
deriving DecidableEq, Repr

/-- The name of a query in a failure message. -/
def Query.title : Query → Text
  | .dump => "Dump"
  | .find _ => "Find"
  | .string _ => "String lookup"
  | .type _ => "Type listing"

/-- The id of a package in at least two hexadecimal digits. -/
def packageNumber (id : Int) : Text := hexPadded 2 id.toNat

/-- Every package, type, variant and resource of a table, one a line. -/
def listing (contents : Contents) : List Text :=
  contents.packages.flatMap fun package =>
    ("Package 0x" ++ packageNumber package.id ++ " " ++ package.name) ::
      package.types.flatMap fun group =>
        ("  Type " ++ group.name ++ " (id " ++ decimal group.id ++ ")") ::
          group.variants.flatMap fun variant =>
            ("    Config " ++ variant.qualifiers.render) ::
              variant.resources.map fun resource => "      " ++ resource.render

/-- The answer to a query about a table: its lines and the exit code. The id of a `find` query has
been read before. -/
def Query.answer (contents : Contents) : Query → List Text × Nat
  | .dump => (listing contents, 0)
  | .find text =>
    let id : Int := (ResourceId.ofText? text).getD 0
    match contents.resourcesWithId id with
    | [] => (["No resource with id " ++ ResourceId.toText id], 2)
    | resources => (resources.map Resource.render, 0)
  | .string name =>
    match contents.stringOfName? name with
    | none => (["No string resource named " ++ name], 2)
    | some text => ([text], 0)
  | .type name => ((contents.resourcesOfType name).map Resource.render, 0)

/-- What makes a query unanswerable, whatever the table holds. -/
def Query.objection? : Query → Option Text
  | .find text =>
    match ResourceId.ofText? text with
    | none => some ("Not a resource id: " ++ text)
    | some _ => none
  | _ => none

/-- The report of a run that fails. -/
def failure (query : Query) (noted : List Line) (message : Text) : Report where
  lines := noted ++ [.failed ("❌ " ++ query.title ++ " failed: " ++ message)]
  exit := 1

/-- The report of a run, with what came of reading the file at the given absolute path. -/
def Invocation.report (invocation : Invocation) (path : Text)
    (file : Except FileFailure ByteArray) : Report :=
  let query := invocation.query
  match query.objection? with
  | some message => failure query [] message
  | none =>
    let table : Table := { policy := if invocation.lenient then .lenient else .strict }
    let outcome := table.parseFile path file
    let noted := outcome.notices.map fun notice => Line.noted notice.level notice.message
    match outcome.result with
    | .error error => failure query noted error.message
    | .ok table =>
      let (lines, exit) := query.answer table.contents
      { lines := noted ++ lines.map .answered, exit }

/-- Runs an invocation in a directory. The file is not read for a query that has no answer. -/
def Invocation.run {m : Type → Type} [Monad m]
    (readFile : Text → m (Except FileFailure ByteArray)) (directory : Text)
    (invocation : Invocation) : m Report := do
  let path := Path.resolve directory invocation.file
  let file ←
    if invocation.query.objection?.isSome then pure (.error .missing)
    else readFile path
  return invocation.report path file

/-- The report of a run in a directory of a machine with the given files. -/
def Invocation.runIn (files : FileTree) (directory : Text) (invocation : Invocation) : Report :=
  Id.run (invocation.run (fun path => pure (files.read path)) directory)

/-- Where a line goes and what is written, if anything is. -/
def Line.write? (verbose : Bool) (stamp : Text) : Line → Option (Channel × Text)
  | .noted level message => Console.line? verbose stamp level message
  | .answered text => some (.log, text)
  | .failed text => some (.error, text)

end CompiledResources.CommandLine
