import CompiledResources.Model

/-!
Model objects with an identity. Packages, types and variants are built up step by step in a store;
a type belongs to the package that lists it, a variant to the type that lists it. A copy consists of
new objects all the way down, and adding one object to another copies what is not merged, so no two
objects come to share a part.
-/

namespace CompiledResources

/-- Identity of a variant in a store. -/
structure VariantRef where
  index : Nat
deriving DecidableEq, Repr

/-- Identity of a type in a store. -/
structure TypeRef where
  index : Nat
deriving DecidableEq, Repr

/-- Identity of a package in a store. -/
structure PackageRef where
  index : Nat
deriving DecidableEq, Repr

/-- A type object: its id, its name and the variants that belong to it. -/
structure TypeObject where
  id : Int
  name : Text
  variants : List VariantRef := []

/-- A package object: its id, its name and the types that belong to it. -/
structure PackageObject where
  id : Int
  name : Text
  types : List TypeRef := []

/-- All objects made so far; an identity is a position in the list of its kind. -/
structure Store where
  variants : List Variant := []
  types : List TypeObject := []
  packages : List PackageObject := []

namespace Store

/-- The variant object of an identity. -/
def variant (store : Store) (ref : VariantRef) : Variant :=
  store.variants[ref.index]?.getD { qualifiers := {} }

/-- The type object of an identity. -/
def type (store : Store) (ref : TypeRef) : TypeObject :=
  store.types[ref.index]?.getD { id := 0, name := .empty }

/-- The package object of an identity. -/
def package (store : Store) (ref : PackageRef) : PackageObject :=
  store.packages[ref.index]?.getD { id := 0, name := .empty }

/-- The value of a type object with all that belongs to it. -/
def typeValue (store : Store) (ref : TypeRef) : TypeGroup :=
  let object := store.type ref
  { id := object.id, name := object.name, variants := object.variants.map store.variant }

/-- The value of a package object with all that belongs to it. -/
def packageValue (store : Store) (ref : PackageRef) : Package :=
  let object := store.package ref
  { id := object.id, name := object.name, types := object.types.map store.typeValue }

/-- The variant of a type that has the given qualifiers. -/
def variantOf? (store : Store) (ref : TypeRef) (qualifiers : Qualifiers) : Option VariantRef :=
  (store.type ref).variants.find? fun candidate =>
    (store.variant candidate).qualifiers = qualifiers

/-- The type of a package that has the given id and name. -/
def typeOf? (store : Store) (ref : PackageRef) (id : Int) (name : Text) : Option TypeRef :=
  (store.package ref).types.find? fun candidate =>
    (store.type candidate).id = id ∧ (store.type candidate).name = name

/-- The first type of a package that has the given id. -/
def typeOfId? (store : Store) (ref : PackageRef) (id : Int) : Option TypeRef :=
  (store.package ref).types.find? fun candidate => (store.type candidate).id = id

/-- The first type of a package that has the given name. -/
def typeOfName? (store : Store) (ref : PackageRef) (name : Text) : Option TypeRef :=
  (store.package ref).types.find? fun candidate => (store.type candidate).name = name

/-! ### Steps -/

/-- Makes a variant object. -/
def newVariant (variant : Variant) : StateM Store VariantRef := fun store =>
  (⟨store.variants.length⟩, { store with variants := store.variants ++ [variant] })

/-- Makes a type object to which the given variants belong. -/
def newType (id : Int) (name : Text) (variants : List VariantRef := []) : StateM Store TypeRef :=
  fun store =>
    (⟨store.types.length⟩, { store with types := store.types ++ [{ id, name, variants }] })

/-- Makes a package object to which the given types belong. -/
def newPackage (id : Int) (name : Text) (types : List TypeRef := []) : StateM Store PackageRef :=
  fun store =>
    (⟨store.packages.length⟩,
      { store with packages := store.packages ++ [{ id, name, types }] })

/-- Appends resources to a variant. -/
def push (ref : VariantRef) (resources : List Resource) : StateM Store Unit := fun store =>
  ((), { store with
    variants := store.variants.modify ref.index fun variant =>
      { variant with resources := variant.resources ++ resources } })

/-- Removes the resources of a variant. -/
def clear (ref : VariantRef) : StateM Store Unit := fun store =>
  ((), { store with
    variants := store.variants.modify ref.index fun variant => { variant with resources := [] } })

/-- Gives a variant to a type. -/
def attachVariant (ref : TypeRef) (variant : VariantRef) : StateM Store Unit := fun store =>
  ((), { store with
    types := store.types.modify ref.index fun object =>
      { object with variants := object.variants ++ [variant] } })

/-- Gives a type to a package. -/
def attachType (ref : PackageRef) (type : TypeRef) : StateM Store Unit := fun store =>
  ((), { store with
    packages := store.packages.modify ref.index fun object =>
      { object with types := object.types ++ [type] } })

/-- The variant of a type that has the given qualifiers, made if it is not there. -/
def getOrAddVariant (ref : TypeRef) (qualifiers : Qualifiers) : StateM Store VariantRef := do
  match (← get).variantOf? ref qualifiers with
  | some known => return known
  | none =>
    let made ← newVariant { qualifiers }
    attachVariant ref made
    return made

/-- The type of a package that has the given id and name, made if it is not there. -/
def getOrAddType (ref : PackageRef) (id : Int) (name : Text) : StateM Store TypeRef := do
  match (← get).typeOf? ref id name with
  | some known => return known
  | none =>
    let made ← newType id name
    attachType ref made
    return made

/-- A copy of a variant. -/
def cloneVariant (ref : VariantRef) : StateM Store VariantRef := do
  newVariant ((← get).variant ref)

/-- A copy of a type and of its variants. -/
def cloneType (ref : TypeRef) : StateM Store TypeRef := do
  let object := (← get).type ref
  let variants ← object.variants.mapM cloneVariant
  newType object.id object.name variants

/-- A copy of a package and of all that belongs to it. -/
def clonePackage (ref : PackageRef) : StateM Store PackageRef := do
  let object := (← get).package ref
  let types ← object.types.mapM cloneType
  newPackage object.id object.name types

/-- Appends the resources of another variant to a variant. -/
def addVariant (ref other : VariantRef) : StateM Store Unit := do
  push ref ((← get).variant other).resources

/-- Adds a variant of another type to a type. -/
def takeVariant (ref : TypeRef) (other : VariantRef) : StateM Store Unit := do
  let store ← get
  match store.variantOf? ref (store.variant other).qualifiers with
  | some known => addVariant known other
  | none => attachVariant ref (← cloneVariant other)

/-- Adds the variants of another type to a type. -/
def addType (ref other : TypeRef) : StateM Store Unit := do
  ((← get).type other).variants.forM (takeVariant ref)

/-- Adds a type of another package to a package. -/
def takeType (ref : PackageRef) (other : TypeRef) : StateM Store Unit := do
  let store ← get
  match store.typeOf? ref (store.type other).id (store.type other).name with
  | some known => addType known other
  | none => attachType ref (← cloneType other)

/-- Adds the types of another package to a package. -/
def addPackage (ref other : PackageRef) : StateM Store Unit := do
  ((← get).package other).types.forM (takeType ref)

end Store

/-- Any object of a store. -/
inductive ObjectRef where
  | package (ref : PackageRef)
  | type (ref : TypeRef)
  | variant (ref : VariantRef)
deriving DecidableEq, Repr

namespace Store

/-- One step of building up a model. -/
inductive Step where
  | newPackage (id : Int) (name : Text)
  | newType (id : Int) (name : Text)
  | newVariant (qualifiers : Qualifiers)
  | getOrAddType (ref : PackageRef) (id : Int) (name : Text)
  | getOrAddVariant (ref : TypeRef) (qualifiers : Qualifiers)
  | push (ref : VariantRef) (resources : List Resource)
  | clear (ref : VariantRef)
  | clonePackage (ref : PackageRef)
  | cloneType (ref : TypeRef)
  | cloneVariant (ref : VariantRef)
  | addPackage (ref other : PackageRef)
  | addType (ref other : TypeRef)
  | addVariant (ref other : VariantRef)

/-- Performs a step; the result is the object that the step gives, if it gives one. -/
def perform : Step → StateM Store (Option ObjectRef)
  | .newPackage id name => return some (.package (← newPackage id name))
  | .newType id name => return some (.type (← newType id name))
  | .newVariant qualifiers => return some (.variant (← newVariant { qualifiers }))
  | .getOrAddType ref id name => return some (.type (← getOrAddType ref id name))
  | .getOrAddVariant ref qualifiers => return some (.variant (← getOrAddVariant ref qualifiers))
  | .push ref resources => do push ref resources; return none
  | .clear ref => do clear ref; return none
  | .clonePackage ref => return some (.package (← clonePackage ref))
  | .cloneType ref => return some (.type (← cloneType ref))
  | .cloneVariant ref => return some (.variant (← cloneVariant ref))
  | .addPackage ref other => do addPackage ref other; return none
  | .addType ref other => do addType ref other; return none
  | .addVariant ref other => do addVariant ref other; return none

/-- The store after several steps. -/
def performAll (steps : List Step) (store : Store) : Store :=
  steps.foldl (fun current step => ((perform step).run current).2) store

end Store
end CompiledResources
