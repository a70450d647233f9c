import CompiledResources.Model.Store
import Mathlib.Logic.Relation

/-!
Who owns what in a store. An object owns its parts and what these own; two objects are related when
one of them owns the other. What an object is worth depends on it and on what it owns.
-/

namespace CompiledResources

/-- An object as it stands in a store. -/
inductive StoredObject where
  | package (object : PackageObject)
  | type (object : TypeObject)
  | variant (variant : Variant)

/-- The objects that belong to an object. -/
def StoredObject.parts : StoredObject → List ObjectRef
  | .package object => object.types.map .type
  | .type object => object.variants.map .variant
  | .variant _ => []

/-- The value of any object. -/
inductive ObjectValue where
  | package (value : Package)
  | type (value : TypeGroup)
  | variant (value : Variant)

namespace Store

/-- The object of an identity is there. -/
def Has (store : Store) : ObjectRef → Prop
  | .package ref => ref.index < store.packages.length
  | .type ref => ref.index < store.types.length
  | .variant ref => ref.index < store.variants.length

/-- The object of an identity. -/
def object (store : Store) : ObjectRef → StoredObject
  | .package ref => .package (store.package ref)
  | .type ref => .type (store.type ref)
  | .variant ref => .variant (store.variant ref)

/-- The value of an object with all that belongs to it. -/
def value (store : Store) : ObjectRef → ObjectValue
  | .package ref => .package (store.packageValue ref)
  | .type ref => .type (store.typeValue ref)
  | .variant ref => .variant (store.variant ref)

/-- The objects that belong to an object. -/
def parts (store : Store) (owner : ObjectRef) : List ObjectRef := (store.object owner).parts

/-- One object belongs to another. -/
def PartOf (store : Store) (part owner : ObjectRef) : Prop := part ∈ store.parts owner

/-- One object is another or is owned by it: it belongs to it, or to a part of it. -/
def Within (store : Store) : ObjectRef → ObjectRef → Prop := Relation.ReflTransGen store.PartOf

/-- Two objects are the same, or one of them owns the other. -/
def Related (store : Store) (first second : ObjectRef) : Prop :=
  store.Within first second ∨ store.Within second first

/-- The object that a step is applied to, if it is one of those that change an object. -/
def Step.target? : Step → Option ObjectRef
  | .newPackage _ _ | .newType _ _ | .newVariant _ => none
  | .getOrAddType ref _ _ => some (.package ref)
  | .getOrAddVariant ref _ => some (.type ref)
  | .push ref _ | .clear ref => some (.variant ref)
  | .clonePackage _ | .cloneType _ | .cloneVariant _ => none
  | .addPackage ref _ => some (.package ref)
  | .addType ref _ => some (.type ref)
  | .addVariant ref _ => some (.variant ref)

/-- The object that a step adds to, and the one that it adds, if it is one of those that add. -/
def Step.addition? : Step → Option (ObjectRef × ObjectRef)
  | .addPackage ref other => some (.package ref, .package other)
  | .addType ref other => some (.type ref, .type other)
  | .addVariant ref other => some (.variant ref, .variant other)
  | _ => none

/-- The store after a step. -/
def after (store : Store) (step : Step) : Store := ((perform step).run store).2

/-- Each of the steps that change an object is applied to this object or to one that it then
owns. -/
def AppliedWithin (whole : ObjectRef) : List Step → Store → Prop
  | [], _ => True
  | step :: rest, store =>
    (∀ target, step.target? = some target → store.Within target whole) ∧
      AppliedWithin whole rest (store.after step)

/-- Whatever is done from now on to one of two objects and to what it owns does not show in the
other. -/
def Independent (store : Store) (first second : ObjectRef) : Prop :=
  ∀ later,
    (AppliedWithin first later store →
      (performAll later store).value second = store.value second) ∧
    (AppliedWithin second later store →
      (performAll later store).value first = store.value first)

end Store
end CompiledResources
