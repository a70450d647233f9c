import CompiledResources.OrderedMap
import CompiledResources.Value

/-!
Bags: the values that the records of a map entry gather under their names. A record replaces what
was there under its name, except that in the type named "array" the strings of one name gather to
an array, until a value of another kind settles that name for good.
-/

namespace CompiledResources

/-- What a name holds so far. -/
inductive Slot where
  | gathering (strings : Array Value)
  | settled (value : Value)

/-- What the names hold so far, in the order in which they first came. -/
abbrev Bag := OrderedMap Text Slot

namespace Bag

/-- Name of the type whose strings gather to arrays. -/
def arrayType : Text := "array"

/-- A value of a type is gathered with others of its name. -/
def gathers (typeName : Text) : Value → Bool
  | .string _ => typeName = arrayType
  | _ => false

/-- Puts a value under a name. -/
def add (typeName : Text) (bag : Bag) (name : Text) (value : Value) : Bag :=
  match gathers typeName value, bag.get? name with
  | true, none => bag.put name (.gathering #[value])
  | true, some (.gathering strings) => bag.put name (.gathering (strings.push value))
  | true, some (.settled _) => bag
  | false, _ => bag.put name (.settled value)

end Bag

/-- The value of a name. -/
def Slot.value : Slot → Value
  | .gathering strings => .array strings.toList
  | .settled value => value

/-- The value of a map entry. -/
def Bag.toValue (typeName : Text) (bag : Bag) : Value :=
  .complex typeName (bag.map fun pair => (pair.1, pair.2.value))

end CompiledResources
