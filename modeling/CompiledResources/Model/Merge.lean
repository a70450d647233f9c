import CompiledResources.Model

/-!
Merging parts of two models. Parts known by the same key are merged in turn, down to the lists of
resources, of which the second follows the first; all other parts of the second model come behind
those of the first.
-/

namespace CompiledResources

/-- The resources of both variants. -/
def Variant.merge (first second : Variant) : Variant :=
  { first with resources := first.resources ++ second.resources }

/-- The variants of both types. -/
def TypeGroup.merge (first second : TypeGroup) : TypeGroup :=
  { first with
    variants := Keyed.mergeOn Variant.qualifiers Variant.merge first.variants second.variants }

/-- The types of both packages. -/
def Package.merge (first second : Package) : Package :=
  { first with types := Keyed.mergeOn TypeGroup.key TypeGroup.merge first.types second.types }

/-- The packages of both lists. -/
def Package.mergeAll (first second : List Package) : List Package :=
  Keyed.mergeOn Package.key Package.merge first second

end CompiledResources
