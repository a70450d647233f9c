import CompiledResources.Keyed
import CompiledResources.Qualifiers
import CompiledResources.Value

/-!
The resource model. A package owns types, a type owns variants, and a variant owns the resources
that apply under its configuration qualifiers. A package and a type are known by their id and name
together, a variant by all of its qualifiers.
-/

namespace CompiledResources

/-- A named value. -/
structure Resource where
  id : Int
  name : Text
  value : Value
deriving Repr

/-- The resources of a type under the same qualifiers. -/
structure Variant where
  qualifiers : Qualifiers
  resources : List Resource := []
deriving Repr

/-- The resources of a type, such as strings or colours. -/
structure TypeGroup where
  id : Int
  name : Text
  variants : List Variant := []
deriving Repr

/-- A package of a table. -/
structure Package where
  id : Int
  name : Text
  types : List TypeGroup := []
deriving Repr

namespace TypeGroup

/-- What a type is known by in its package. -/
def key (group : TypeGroup) : Int × Text := (group.id, group.name)

/-- The variant of the given qualifiers. -/
def variant? (group : TypeGroup) (qualifiers : Qualifiers) : Option Variant :=
  Keyed.find? Variant.qualifiers qualifiers group.variants

/-- Adds resources to the variant of the given qualifiers, which is made if it is not there. -/
def add (group : TypeGroup) (qualifiers : Qualifiers) (resources : List Resource) : TypeGroup :=
  { group with
    variants :=
      Keyed.upsert Variant.qualifiers qualifiers
        (fun variant => { variant with resources := variant.resources ++ resources })
        { qualifiers, resources } group.variants }

end TypeGroup

namespace Package

/-- What a package is known by in its table. -/
def key (package : Package) : Int × Text := (package.id, package.name)

/-- The type with the given id and name. -/
def type? (package : Package) (id : Int) (name : Text) : Option TypeGroup :=
  Keyed.find? TypeGroup.key (id, name) package.types

/-- The first type with the given id. -/
def typeOfId? (package : Package) (id : Int) : Option TypeGroup :=
  Keyed.find? TypeGroup.id id package.types

/-- The first type with the given name. -/
def typeOfName? (package : Package) (name : Text) : Option TypeGroup :=
  Keyed.find? TypeGroup.name name package.types

/-- Makes the type with the given id and name if it is not there. -/
def declare (package : Package) (id : Int) (name : Text) : Package :=
  { package with
    types := Keyed.upsert TypeGroup.key (id, name) (fun group => group) { id, name } package.types }

/-- Adds resources to a variant of the type with the given id and name. -/
def add (package : Package) (id : Int) (name : Text) (qualifiers : Qualifiers)
    (resources : List Resource) : Package :=
  { package with
    types :=
      Keyed.upsert TypeGroup.key (id, name) (fun group => group.add qualifiers resources)
        ({ id, name : TypeGroup }.add qualifiers resources) package.types }

end Package
end CompiledResources
