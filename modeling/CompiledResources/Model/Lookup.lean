import CompiledResources.Model
import CompiledResources.ResourceId

/-!
Lookups among the resources of a type, across its variants in their order. An id stands for its
remainder modulo 2^32.
-/

namespace CompiledResources.TypeGroup

/-- All resources, one variant after another. -/
def resources (group : TypeGroup) : List Resource :=
  group.variants.flatMap Variant.resources

/-- The first resource of each name, in the order in which the names first come. -/
def distinct (group : TypeGroup) : List Resource :=
  Keyed.mergeOn Resource.name (fun kept _ => kept) [] group.resources

/-- The names of the resources, each once, in the order in which they first come. -/
def names (group : TypeGroup) : List Text :=
  Keyed.mergeOn (fun name => name) (fun kept _ => kept) [] (group.resources.map Resource.name)

/-- The resources with the given id, at most one a variant unless a variant repeats it. -/
def withId (group : TypeGroup) (id : Int) : List Resource :=
  group.variants.flatMap fun variant =>
    variant.resources.filter fun resource => resource.id = Numeral.word id

/-- The first resource, variant by variant, that meets a condition. -/
def firstWhere? (group : TypeGroup) (condition : Resource → Bool) : Option Resource :=
  group.variants.findSome? fun variant => variant.resources.find? condition

/-- The first resource with the given id. -/
def firstWithId? (group : TypeGroup) (id : Int) : Option Resource :=
  group.firstWhere? fun resource => resource.id = Numeral.word id

/-- The first resource with the given name. -/
def firstWithName? (group : TypeGroup) (name : Text) : Option Resource :=
  group.firstWhere? fun resource => resource.name = name

end CompiledResources.TypeGroup
