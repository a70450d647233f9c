import CompiledResources.Model.Lookup
import CompiledResources.Model.Merge
import CompiledResources.OrderedMap

/-!
The contents of a table: its packages and its global strings by ordinal. Ids and names are looked up
in the packages in their order.
-/

namespace CompiledResources

/-- The packages and the global strings of a table. -/
structure Contents where
  packages : List Package := []
  strings : OrderedMap Int Text := []
deriving Repr

namespace Contents

/-- The contents of both tables; where both have a string of the same ordinal, the second one's. -/
def merge (first second : Contents) : Contents where
  packages := Package.mergeAll first.packages second.packages
  strings := first.strings.putAll second.strings

/-- The package with the given id and name. -/
def package? (contents : Contents) (id : Int) (name : Text) : Option Package :=
  Keyed.find? Package.key (id, name) contents.packages

/-- The type that a resource id belongs to. Of several packages with the same id, only the first
counts. -/
def typeOfId? (contents : Contents) (id : Int) : Option TypeGroup :=
  let parts := ResourceId.split id
  (Keyed.find? Package.id parts.package contents.packages).bind fun package =>
    package.typeOfId? parts.type

/-- The first resource with the given id. -/
def resource? (contents : Contents) (id : Int) : Option Resource :=
  (contents.typeOfId? id).bind fun group => group.firstWithId? id

/-- The resources with the given id in all variants. -/
def resourcesWithId (contents : Contents) (id : Int) : List Resource :=
  ((contents.typeOfId? id).map fun group => group.withId id).getD []

/-- The resource with the given type name and name, in the first package that has one. -/
def resourceOfName? (contents : Contents) (typeName name : Text) : Option Resource :=
  contents.packages.findSome? fun package =>
    (package.typeOfName? typeName).bind fun group =>
      group.distinct.find? fun resource => resource.name = name

/-- Name of the type that holds strings. -/
def stringType : Text := "string"

/-- The text of the string resource with the given name. -/
def stringOfName? (contents : Contents) (name : Text) : Option Text :=
  match (contents.resourceOfName? stringType name).map Resource.value with
  | some (.string text) => text
  | _ => none

/-- The resources of the type with the given name, one of each name in a package. -/
def resourcesOfType (contents : Contents) (typeName : Text) : List Resource :=
  contents.packages.flatMap fun package =>
    ((package.typeOfName? typeName).map TypeGroup.distinct).getD []

/-- Removes the resources of variant number `index` of the type that a resource id belongs to. -/
def clearVariant (contents : Contents) (id : Int) (index : Nat) : Contents :=
  let parts := ResourceId.split id
  let clear (group : TypeGroup) : TypeGroup :=
    { group with
      variants := group.variants.modify index fun variant => { variant with resources := [] } }
  let enter (package : Package) : Package :=
    { package with types := Keyed.modify TypeGroup.id parts.type clear package.types }
  { contents with packages := Keyed.modify Package.id parts.package enter contents.packages }

end Contents
end CompiledResources
