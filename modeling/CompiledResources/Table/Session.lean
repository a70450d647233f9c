import CompiledResources.Table.Stream

/-!
Sessions: several tables under names, and the operations that change them one after another. An
operation that fails changes no table.
-/

namespace CompiledResources

/-- Where the bytes of a table come from. -/
inductive Source where
  | bytes (data : ByteArray)
  | stream (stream : ByteStream)
  | file (path : Text) (contents : Except FileFailure ByteArray)

/-- Parses the bytes of a source. -/
def Table.load (table : Table) : Source → Outcome Table
  | .bytes data => table.parse data
  | .stream stream => table.parseStream stream
  | .file path contents => table.parseFile path contents

/-- An operation on the table of a name. -/
inductive Action where
  /-- Puts an empty table in the place of the table. -/
  | create (policy : Policy)
  /-- Puts a table parsed from a source in the place of the table. -/
  | createFrom (policy : Policy) (source : Source)
  /-- Parses a source into the table. -/
  | load (source : Source)
  /-- Merges the table of another name into the table. -/
  | merge (other : Text)
  /-- Removes the resources of one variant of the type that an id belongs to. -/
  | clear (id : Int) (index : Nat)

/-- Tables by name. -/
abbrev Session := OrderedMap Text Table

namespace Session

/-- The table of a name; a name without one stands for an empty table. -/
def table (session : Session) (name : Text) : Table :=
  (session.get? name).getD {}

/-- What an action makes of the table of a name. -/
def next (session : Session) (name : Text) : Action → Outcome Table
  | .create policy => { result := .ok { policy } }
  | .createFrom policy source => Table.load { policy } source
  | .load source => (session.table name).load source
  | .merge other => { result := (session.table name).merge (session.table other) }
  | .clear id index =>
    let table := session.table name
    { result := .ok { table with
        contents? := table.contents?.map fun contents => contents.clearVariant id index } }

/-- Performs an action on the table of a name. -/
def perform (session : Session) (name : Text) (action : Action) : Outcome Unit × Session :=
  let outcome := session.next name action
  match outcome.result with
  | .ok table => ({ result := .ok (), notices := outcome.notices }, session.put name table)
  | .error error => ({ result := .error error, notices := outcome.notices }, session)

/-- The session after actions on tables of given names. -/
def performAll (session : Session) (actions : List (Text × Action)) : Session :=
  actions.foldl (fun current action => (current.perform action.1 action.2).2) session

end Session
end CompiledResources
