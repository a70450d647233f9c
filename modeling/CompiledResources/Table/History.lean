import CompiledResources.Contents.Position
import CompiledResources.Table.Session

/-!
Histories: all that happens to the tables of a session. Besides the actions there is one more kind
of event: whoever holds a variant may remove its resources, whether an id leads to it or not.
-/

namespace CompiledResources.Session

/-- What happens to the table of a name. -/
inductive Event where
  | action (action : Action)
  /-- Variant number `index` of the type at a position loses its resources. -/
  | empty (position : TypePosition) (index : Nat)

/-- The session after an event. -/
def after (session : Session) (name : Text) : Event → Session
  | .action action => (session.perform name action).2
  | .empty position index =>
    let table := session.table name
    session.put name { table with
      contents? := table.contents?.map fun contents => contents.emptyVariant position index }

/-- The session after events at the tables of given names. -/
def afterAll (session : Session) (events : List (Text × Event)) : Session :=
  events.foldl (fun current event => current.after event.1 event.2) session

end CompiledResources.Session
