import CompiledResources.Proofs.IdLookup

/-!
The lookups of a type and of a table, compared with one another. Where several resources have the
same name or id, all of them take the one that comes first: variant by variant within a type,
package by package within a table.
-/

namespace CompiledResources

/-! ### Rows of which the first with a key is kept -/

namespace Keyed

variable {α κ : Type} [DecidableEq κ] {key : α → κ} {k : κ}

/-- The row that is kept under a key is the first one with it. -/
theorem find?_mergeOn_kept (rows others : List α) :
    find? key k (mergeOn key (fun kept _ => kept) rows others) =
      (find? key k rows).or (find? key k others) := by
  induction others generalizing rows with
  | nil => exact Option.or_none.symm
  | cons other rest ih =>
    have hself : ∀ row : α, key row = key other → key row = key other := fun _ hkey => hkey
    rw [mergeOn_cons, ih]
    by_cases hother : key other = k
    · subst hother
      rw [find?_upsert_self key hself rfl, find?_cons_self]
      cases find? key (key other) rows <;> rfl
    · rw [find?_upsert_of_ne key hself rfl (Ne.symm hother), find?_cons_of_ne hother]

/-- The keys of the rows that are kept are the keys that are kept. -/
theorem map_mergeOn_kept (rows others : List α) :
    (mergeOn key (fun kept _ => kept) rows others).map key =
      mergeOn (fun k => k) (fun kept _ => kept) (rows.map key) (others.map key) := by
  induction others generalizing rows with
  | nil => rfl
  | cons other rest ih =>
    rw [mergeOn_cons, ih, List.map_cons, mergeOn_cons]
    by_cases hmem : key other ∈ rows.map key
    · have hmem' : key other ∈ (rows.map key).map fun k => k := by rwa [List.map_id']
      rw [upsert_kept_of_mem hmem, upsert_kept_of_mem hmem']
    · have hmem' : key other ∉ (rows.map key).map fun k => k := by rwa [List.map_id']
      rw [upsert_of_not_mem hmem, upsert_of_not_mem hmem', List.map_append]
      rfl

end Keyed

open Keyed

/-! ### The resources of a type -/

namespace TypeGroup

variable (group : TypeGroup)

theorem distinct_distinct : Distinct Resource.name group.distinct := by
  have hnone : Distinct Resource.name [] := List.nodup_nil
  exact distinct_mergeOn (fun _ _ => rfl) hnone group.resources

theorem map_name_distinct : group.distinct.map Resource.name = group.names :=
  map_mergeOn_kept [] group.resources

/-- The search through the variants finds what stands first in all of them together. -/
theorem firstWhere?_eq (condition : Resource → Bool) :
    group.firstWhere? condition = group.resources.find? condition :=
  List.find?_flatMap.symm

theorem firstWithName?_eq (name : Text) :
    group.firstWithName? name = find? Resource.name name group.distinct := by
  have hkept : find? Resource.name name group.distinct =
      find? Resource.name name group.resources := find?_mergeOn_kept [] group.resources
  exact (group.firstWhere?_eq _).trans hkept.symm

/-- The search by name finds the resources that are kept, in their order. -/
theorem map_firstWithName?_names :
    group.names.map group.firstWithName? = group.distinct.map some := by
  rw [← map_name_distinct, List.map_map]
  apply List.map_congr_left
  intro resource hresource
  exact (group.firstWithName?_eq resource.name).trans
    (find?_of_mem group.distinct_distinct hresource)

theorem firstWithName?_eq_none_iff (name : Text) :
    group.firstWithName? name = none ↔ name ∉ group.names := by
  rw [firstWithName?_eq, find?_eq_none_iff, map_name_distinct]

end TypeGroup

/-! ### The resources of a table -/

namespace Contents

variable (contents : Contents)

theorem resourcesOfType_eq (typeName : Text) :
    contents.resourcesOfType typeName =
      contents.packages.flatMap fun package =>
        match package.types.find? fun group => group.name = typeName with
        | some group => group.distinct
        | none => [] := by
  apply congrArg (contents.packages.flatMap ·)
  funext package
  rw [Package.typeOfName?, find?]
  cases package.types.find? fun group => group.name = typeName <;> rfl

theorem resourceOfName?_eq (typeName name : Text) :
    contents.resourceOfName? typeName name =
      (contents.resourcesOfType typeName).find? fun resource => resource.name = name := by
  rw [resourcesOfType, List.find?_flatMap, resourceOfName?]
  apply congrArg (contents.packages.findSome? ·)
  funext package
  cases package.typeOfName? typeName <;> rfl

theorem stringOfName?_eq_some_iff (name text : Text) :
    contents.stringOfName? name = some text ↔
      ∃ resource, contents.resourceOfName? "string" name = some resource ∧
        resource.value = .string (some text) := by
  rw [stringOfName?, stringType]
  cases contents.resourceOfName? "string" name with
  | none => simp
  | some resource =>
    rw [Option.map_some]
    constructor
    · intro h
      refine ⟨resource, rfl, ?_⟩
      split at h
      next found hvalue => rw [Option.some.inj hvalue, h]
      next => cases h
    · rintro ⟨_, hresource, hvalue⟩
      rw [Option.some.inj hresource, hvalue]

end Contents

/-- The lookups of every type and of every table agree. Of a type: the resources with different
names have each name once, in the order of the list of names, and each is the first that is found
under its name; nothing is found under exactly the names that are not listed; and the first resource
of an id is the first of all that have it. Of a table: the same holds of an id; the resource of a
name is the first of that name among all of its type, and its text is the string of the type of
strings, if it is one; and the resources of a type name are, package after package, those of the
first type with the name. -/
theorem Contents.lookups_agree :
    (∀ group : TypeGroup,
      (group.distinct.map Resource.name).Nodup ∧
        group.distinct.map Resource.name = group.names ∧
        group.names.map group.firstWithName? = group.distinct.map some ∧
        (∀ name, group.firstWithName? name = none ↔ name ∉ group.names) ∧
        ∀ id, group.firstWithId? id = (group.withId id).head?) ∧
      ∀ contents : Contents,
        (∀ id, contents.resource? id = (contents.resourcesWithId id).head?) ∧
          (∀ typeName name, contents.resourceOfName? typeName name =
            (contents.resourcesOfType typeName).find? fun resource => resource.name = name) ∧
          (∀ name text, contents.stringOfName? name = some text ↔
            ∃ resource, contents.resourceOfName? "string" name = some resource ∧
              resource.value = .string (some text)) ∧
          ∀ typeName, contents.resourcesOfType typeName =
            contents.packages.flatMap fun package =>
              match package.types.find? fun group => group.name = typeName with
              | some group => group.distinct
              | none => [] := by
  refine ⟨fun group => ⟨group.distinct_distinct, group.map_name_distinct,
    group.map_firstWithName?_names, group.firstWithName?_eq_none_iff, group.firstWithId?_eq⟩,
    fun contents => ⟨contents.resource?_eq, contents.resourceOfName?_eq,
      contents.stringOfName?_eq_some_iff, contents.resourcesOfType_eq⟩⟩

end CompiledResources
