import CompiledResources.Contents.Decoding
import CompiledResources.FileTree

/-!
Tables. A table is empty until its bytes are parsed and ready from then on. It is parsed once; a
failure leaves it as it was. Two ready tables can be merged.
-/

namespace CompiledResources

/-- Why the bytes of a table could not be had. -/
inductive ReadError where
  | streamEnded (received expected : Nat)
  | streamFailed (message : Text)
  | fileFailed (path : Text) (failure : FileFailure)
deriving DecidableEq, Repr

namespace ReadError

/-- The failure in words. -/
def message : ReadError → Text
  | streamEnded received expected =>
    "Resource table stream ended after " ++ Numeral.decimal received ++ " of " ++
      Numeral.decimal expected ++ " bytes"
  | streamFailed message => "Could not read resource table stream: " ++ message
  | fileFailed path failure =>
    "Could not read resource table \"" ++ path ++ "\": " ++ failure.message path

end ReadError

/-- How far the parse of a table has come. -/
inductive Stage where
  | empty
  | building
  | ready
deriving DecidableEq, Repr

/-- The stage in a word. -/
def Stage.name : Stage → Text
  | empty => "empty"
  | building => "building"
  | ready => "ready"

/-- Why an operation on a table failed. -/
inductive TableError where
  /-- The bytes were not decoded. -/
  | fault (fault : Fault)
  /-- The bytes were not read. -/
  | unreadable (error : ReadError)
  /-- A table that is not empty was to be parsed. -/
  | notEmpty (stage : Stage)
  /-- A table that is not ready was to be merged. -/
  | notParsed
deriving DecidableEq, Repr

namespace TableError

/-- The failure in words. -/
def message : TableError → Text
  | fault cause => cause.message
  | unreadable error => error.message
  | notEmpty stage => "Cannot parse a table in state \"" ++ stage.name ++ "\""
  | notParsed => "Both tables must be parsed before merging"

end TableError

/-- A table: the policy of its parse, and its contents once it is ready. -/
structure Table where
  policy : Policy := .strict
  contents? : Option Contents := none

/-- What an operation gives, and the notices that it leaves either way. -/
structure Outcome (α : Type) where
  result : Except TableError α
  notices : List Notice := []

namespace Table

/-- The table has been parsed. -/
def isReady (table : Table) : Bool := table.contents?.isSome

/-- The contents of a table; an empty table has none. -/
def contents (table : Table) : Contents := table.contents?.getD {}

/-- Parses bytes that hold a whole table. -/
def parse (table : Table) (data : ByteArray) : Outcome Table :=
  if table.isReady then { result := .error (.notEmpty .ready) }
  else
    let (result, journal) := (Contents.decode data).run table.policy
    { result :=
        match result with
        | .ok contents => .ok { table with contents? := some contents }
        | .error fault => .error (.fault fault)
      notices := journal.notices.toList }

/-- Parses the bytes of the file at a path. The file is read whatever state the table is in, so a
failure to read it comes first. -/
def parseFile (table : Table) (path : Text) (file : Except FileFailure ByteArray) :
    Outcome Table :=
  match file with
  | .ok data => table.parse data
  | .error failure => { result := .error (.unreadable (.fileFailed path failure)) }

/-- Merges another table into a table. -/
def merge (table other : Table) : Except TableError Table :=
  match table.contents?, other.contents? with
  | some first, some second => .ok { table with contents? := some (first.merge second) }
  | _, _ => .error .notParsed

end Table
end CompiledResources
