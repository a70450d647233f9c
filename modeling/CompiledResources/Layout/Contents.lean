import CompiledResources.Contents.Decoding
import CompiledResources.Layout.Table

/-!
The contents that a plan of a table amounts to: a package for each id and name, with a type for each
declared id and name, with a variant for each of its qualifiers. Each of these stands where it first
comes in the plan and holds what all chunks of the plan together give it.
-/

namespace CompiledResources.Layout

/-- The name of a type id in a package chunk. -/
def PackagePlan.typeName (plan : PackagePlan) (id : Nat) : Text :=
  if id = 0 then PackageScope.unnamedType
  else plan.typeNames[id - 1]?.getD PackageScope.unnamedType

/-- The value of a plan with the given global strings, if its code has one. -/
def ValuePlan.value? (strings : List Text) (plan : ValuePlan) : Option Value :=
  (Value.decode (fun ordinal => strings[ordinal.toNat]?) plan.code plan.word).toOption

/-- The value of an entry in the type of the given name, if it has one. -/
def EntryBody.value? (strings : List Text) (typeName : Text) : EntryBody → Option Value
  | .simple stored => stored.value? strings
  | .map _ records =>
    let bag : Bag := records.foldl (fun bag record =>
      match record.2.value? strings with
      | some value => bag.add typeName (Numeral.decimal record.1) value
      | none => bag) []
    some (bag.toValue typeName)

/-- The resource of an entry in a package chunk, if its value has one. -/
def EntryPlan.resource? (strings : List Text) (package : PackagePlan) (typeId : Nat)
    (plan : EntryPlan) : Option Resource :=
  (plan.body.value? strings (package.typeName typeId)).map fun value =>
    { id := ResourceId.join ⟨package.id, typeId, plan.number⟩
      name := package.keyNames[plan.key]?.getD PackageScope.unnamedResource
      value }

namespace PackagePlan

/-- What the package is known by in its table. -/
def key (plan : PackagePlan) : Int × Text := (plan.id, plan.name)

/-- The qualifiers and resources of a type chunk in a package chunk. -/
def variant (strings : List Text) (plan : PackagePlan) (group : TypePlan) : Variant where
  qualifiers := group.qualifiers
  resources := group.ordered.filterMap (EntryPlan.resource? strings plan group.id)

end PackagePlan

namespace NestedPlan

/-- What the type of a type spec in a package chunk is known by. -/
def declared? (package : PackagePlan) : NestedPlan → Option (Int × Text)
  | .typeSpec id _ => some (id, package.typeName id)
  | .entries _ => none
  | .foreign _ => none

/-- What a type chunk in a package chunk holds, if it is one of the given type. -/
def variant? (strings : List Text) (package : PackagePlan) (type : Int × Text) :
    NestedPlan → Option Variant
  | .typeSpec _ _ => none
  | .entries group =>
    if ((group.id : Int), package.typeName group.id) = type then
      some (package.variant strings group)
    else none
  | .foreign _ => none

end NestedPlan

namespace PackagePlan

/-- What the types of a package chunk are known by, as its type specs come. -/
def declared (plan : PackagePlan) : List (Int × Text) :=
  plan.nested.filterMap (NestedPlan.declared? plan)

/-- What the type chunks of a type hold, as they come in a package chunk. -/
def variants (strings : List Text) (type : Int × Text) (plan : PackagePlan) : List Variant :=
  plan.nested.filterMap (NestedPlan.variant? strings plan type)

end PackagePlan

/-- The variant of given qualifiers with the resources of several variants. -/
def variantOf (qualifiers : Qualifiers) (variants : List Variant) : Variant where
  qualifiers := qualifiers
  resources := variants.flatMap Variant.resources

/-- A variant for each of the qualifiers, from all variants of these. -/
def variantsOf (variants : List Variant) : List Variant :=
  Keyed.groupOn Variant.qualifiers variantOf variants

/-- The package of an id and name from its package chunks: a type for each that they declare, with
what they hold of it. -/
def packageOf (strings : List Text) (key : Int × Text) (parts : List PackagePlan) : Package where
  id := key.1
  name := key.2
  types := (Keyed.firsts (parts.flatMap PackagePlan.declared)).map fun type =>
    { id := type.1
      name := type.2
      variants := variantsOf (parts.flatMap (PackagePlan.variants strings type)) }

/-- The global strings by their ordinals. -/
def numbered (strings : List Text) : OrderedMap Int Text :=
  strings.zipIdx.map fun pair => ((pair.2 : Int), pair.1)

/-- The contents of a table: a package for each id and name, from all package chunks of these. -/
def TablePlan.contents (plan : TablePlan) : Contents where
  packages := Keyed.groupOn PackagePlan.key (packageOf plan.strings) plan.packages
  strings := numbered plan.strings

end CompiledResources.Layout
