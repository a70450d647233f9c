import CompiledResources.Proofs.StoredIds
import Mathlib.Algebra.Group.Int.Defs

/-!
Which stored resources an id leads to. The search takes the first package with the number in the id
and its first type with the number in the id. So it misses a resource when the number of the package
is wider than a byte and when a package or a type of the same number comes earlier. Where nothing of
the kind is there, the resources of an id are all stored ones that have it.
-/

namespace CompiledResources

namespace Keyed

variable {α β κ : Type} [DecidableEq κ] {key : α → κ} {k : κ} {rows : List α}

/-- When only rows with a key contribute and no two rows have the same, the row of the key
contributes all. -/
theorem flatMap_eq_of_distinct (hrows : Distinct key rows) {f : α → List β}
    (hf : ∀ row ∈ rows, key row ≠ k → f row = []) :
    rows.flatMap f = ((find? key k rows).map f).getD [] := by
  induction rows with
  | nil => rfl
  | cons row rest ih =>
    rw [List.flatMap_cons]
    by_cases hrow : key row = k
    · subst hrow
      have hrest : rest.flatMap f = [] := by
        rw [List.flatMap_eq_nil_iff]
        intro other hother
        apply hf other (List.mem_cons_of_mem row hother)
        intro hkey
        exact hrows.key_not_mem (hkey ▸ List.mem_map_of_mem hother)
      rw [hrest, List.append_nil, find?_cons_self]
      rfl
    · rw [hf row List.mem_cons_self hrow, List.nil_append, find?_cons_of_ne hrow]
      exact ih hrows.tail fun other hother => hf other (List.mem_cons_of_mem row hother)

end Keyed

open Keyed

/-- Integers that differ by a multiple of 2^32 have the same parts. -/
theorem ResourceId.split_emod (id : Int) : split (id % 0x100000000) = split id := by
  simp only [split, ResourceId.mk.injEq]
  omega

/-- The first resource of a type with an id is the first of all in it with the id. -/
theorem TypeGroup.firstWithId?_eq (group : TypeGroup) (id : Int) :
    group.firstWithId? id = (group.withId id).head? := by
  rw [withId, ← List.filter_flatMap, List.head?_filter, List.find?_flatMap]
  rfl

/-- All resources, one package after another. -/
def Contents.resources (contents : Contents) : List Resource :=
  contents.packages.flatMap fun package => package.types.flatMap TypeGroup.resources

namespace Contents

variable {contents : Contents}

/-- The id of a stored resource leads to where it is stored when the number of the package fits a
byte and no earlier package and no earlier type have the same numbers. -/
theorem positionOfId?_eq_some_iff (h : contents.Addressed) {i j : Nat} {package : Package}
    {group : TypeGroup} {resource : Resource} (hpackage : contents.packages[i]? = some package)
    (hgroup : package.types[j]? = some group) (hresource : resource ∈ group.resources) :
    contents.positionOfId? resource.id = some ⟨i, j⟩ ↔
      package.id < 0x100 ∧ (∀ earlier ∈ contents.packages.take i, earlier.id ≠ package.id) ∧
        ∀ earlier ∈ package.types.take j, earlier.id ≠ group.id := by
  have hstored : package.Addressed := h package (List.mem_of_getElem? hpackage)
  obtain ⟨_, hid⟩ := hstored.resource (List.mem_of_getElem? hgroup) hresource
  have hsearch : contents.positionOfId? resource.id = some ⟨i, j⟩ ↔
      position? Package.id (package.id % 0x100) contents.packages = some i ∧
        position? TypeGroup.id group.id package.types = some j := by
    simp only [positionOfId?, hid.package, hid.type, Package.key, TypeGroup.key,
      Option.bind_eq_some_iff, Option.map_eq_some_iff, TypePosition.mk.injEq]
    constructor
    · rintro ⟨_, hi, found, hfound, _, hj, rfl, rfl⟩
      obtain rfl : package = found := Option.some.inj (hpackage.symm.trans hfound)
      exact ⟨hi, hj⟩
    · rintro ⟨hi, hj⟩
      exact ⟨i, hi, package, hpackage, j, hj, rfl, rfl⟩
  have hbyte : package.id = package.id % 0x100 ↔ package.id < 0x100 := by
    have hnonneg := hstored.id_nonneg
    omega
  rw [hsearch, position?_eq_some_iff hpackage, position?_eq_some_iff hgroup, hbyte, and_assoc]
  refine and_congr_right fun hlt => ?_
  rw [← hbyte.mpr hlt]
  exact and_congr_right fun _ => and_iff_right rfl

/-- A resource that has an id, in a package whose number fits a byte, is in the type and the package
that the id names. -/
theorem Addressed.of_id (h : contents.Addressed) {package : Package} {group : TypeGroup}
    {resource : Resource} (hpackage : package ∈ contents.packages) (hbyte : package.id < 0x100)
    (hgroup : group ∈ package.types) (hresource : resource ∈ group.resources) {id : Int}
    (hid : resource.id = id % 0x100000000) :
    package.id = (ResourceId.split id).package ∧ group.id = (ResourceId.split id).type := by
  obtain ⟨_, hstored⟩ := (h package hpackage).resource hgroup hresource
  have hpart : (ResourceId.split resource.id).package = package.id % 0x100 := hstored.package
  have hnonneg : 0 ≤ package.id := (h package hpackage).id_nonneg
  rw [← ResourceId.split_emod id, ← hid]
  exact ⟨by omega, hstored.type.symm⟩

/-- Where packages have different numbers of a byte, and the types of a package different numbers,
the resources of an id are all stored ones that have it. -/
theorem resourcesWithId_eq (h : contents.Addressed)
    (hbyte : ∀ package ∈ contents.packages, package.id < 0x100)
    (hpackages : Distinct Package.id contents.packages)
    (htypes : ∀ package ∈ contents.packages, Distinct TypeGroup.id package.types) (id : Int) :
    contents.resourcesWithId id =
      contents.resources.filter fun resource => resource.id = id % 0x100000000 := by
  have hword : (Numeral.word id : Int) = id % 0x100000000 := by
    rw [Numeral.word]
    omega
  let parts := ResourceId.split id
  let kept (group : TypeGroup) : List Resource :=
    group.resources.filter fun resource => resource.id = id % 0x100000000
  -- Only the package of the id contributes, and in it only the type of the id.
  have hgroups (package : Package) (hpackage : package ∈ contents.packages) :
      package.types.flatMap kept =
        ((find? TypeGroup.id parts.type package.types).map kept).getD [] :=
    flatMap_eq_of_distinct (htypes package hpackage) fun group hgroup hne =>
      List.filter_eq_nil_iff.mpr fun resource hresource hid =>
        hne (h.of_id hpackage (hbyte package hpackage) hgroup hresource (of_decide_eq_true hid)).2
  have hall : contents.packages.flatMap (fun package => package.types.flatMap kept) =
      ((find? Package.id parts.package contents.packages).map fun package =>
        package.types.flatMap kept).getD [] := by
    refine flatMap_eq_of_distinct hpackages fun package hpackage hne => ?_
    rw [List.flatMap_eq_nil_iff]
    intro group hgroup
    exact List.filter_eq_nil_iff.mpr fun resource hresource hid =>
      hne (h.of_id hpackage (hbyte package hpackage) hgroup hresource (of_decide_eq_true hid)).1
  have hfilter : contents.resources.filter (fun resource => resource.id = id % 0x100000000) =
      contents.packages.flatMap fun package => package.types.flatMap kept := by
    simp only [resources, List.filter_flatMap, kept]
  have hwith (group : TypeGroup) : group.withId id = kept group := by
    simp only [TypeGroup.withId, kept, TypeGroup.resources, List.filter_flatMap, hword]
  rw [hfilter, hall, resourcesWithId, typeOfId?]
  cases hfind : find? Package.id parts.package contents.packages with
  | none => rfl
  | some package =>
    rw [Option.map_some, Option.getD_some, hgroups package (mem_of_find? hfind), Option.bind_some,
      Package.typeOfId?]
    simp only [hwith, parts]

/-- The first resource with an id is the first of all those with it. -/
theorem resource?_eq (contents : Contents) (id : Int) :
    contents.resource? id = (contents.resourcesWithId id).head? := by
  rw [resource?, resourcesWithId]
  cases contents.typeOfId? id with
  | none => rfl
  | some group => exact group.firstWithId?_eq id

end Contents

/-- What an id leads to in a ready table of any history. The type found is the one at the position
found. The id of a stored resource leads to its own type exactly when the number of its package is
below 256, no earlier package has this number, and no earlier type of the package has the number of
its type. So where no number is wider or repeated, the resources of any integer are all stored ones
whose id is its remainder modulo 2^32, in their order, and the first of them is found first. -/
theorem Session.lookup_afterAll (events : List (Text × Event)) (name : Text) {contents : Contents}
    (hready : (Session.table (afterAll [] events) name).contents? = some contents) :
    (∀ id, contents.typeOfId? id = (contents.positionOfId? id).bind contents.typeAt?) ∧
      (∀ i j package group resource, contents.packages[i]? = some package →
        package.types[j]? = some group → resource ∈ group.resources →
          (contents.positionOfId? resource.id = some ⟨i, j⟩ ↔
            package.id < 256 ∧ (∀ earlier ∈ contents.packages.take i, earlier.id ≠ package.id) ∧
              ∀ earlier ∈ package.types.take j, earlier.id ≠ group.id)) ∧
        ((∀ package ∈ contents.packages, package.id < 256) →
          (contents.packages.map Package.id).Nodup →
            (∀ package ∈ contents.packages, (package.types.map TypeGroup.id).Nodup) →
              ∀ n : Int,
                let found := contents.resources.filter fun resource => resource.id = n % 2 ^ 32
                contents.resourcesWithId n = found ∧ contents.resource? n = found.head?) := by
  have haddressed : contents.Addressed :=
    meets_afterAll Contents.lasting_addressed meets_nil events name contents hready
  refine ⟨contents.typeOfId?_eq, ?_, ?_⟩
  · intro i j package group resource hpackage hgroup hresource
    exact Contents.positionOfId?_eq_some_iff haddressed hpackage hgroup hresource
  · intro hbyte hpackages htypes n found
    have hall := Contents.resourcesWithId_eq haddressed hbyte hpackages htypes n
    exact ⟨hall, by rw [Contents.resource?_eq, hall]; rfl⟩

theorem Session.lookup_afterAll_neighbours :
    ∃ (contents : Contents) (resource : Resource),
      (Session.table (afterAll [] neighbours) "both").contents? = some contents ∧
        contents.positionOfId? resource.id = some ⟨1, 0⟩ ∧
          contents.resource? resource.id =
            (contents.resources.filter fun stored => stored.id = resource.id % 2 ^ 32).head? := by
  obtain ⟨contents, first, second, one, two, hready, hall, hfirst, hsecond, hone, htwo, -, -,
    hresources⟩ := packages_neighbours
  obtain ⟨resource, _, hsplit, -, -⟩ := List.map_eq_cons_iff.mp hresources
  have hpackage : contents.packages[1]? = some second := by simp [hall]
  have hgroup : second.types[0]? = some two := by simp [htwo]
  have hresource : resource ∈ two.resources := by simp [hsplit]
  have hbyte : ∀ package ∈ contents.packages, package.id < 256 := by simp [hall, hfirst, hsecond]
  have hpackages : (contents.packages.map Package.id).Nodup := by simp [hall, hfirst, hsecond]
  have htypes : ∀ package ∈ contents.packages, (package.types.map TypeGroup.id).Nodup := by
    simp [hall, hone, htwo]
  obtain ⟨-, hposition, hfound⟩ := Session.lookup_afterAll neighbours "both" hready
  refine ⟨contents, resource, hready, ?_, (hfound hbyte hpackages htypes resource.id).2⟩
  rw [hposition 1 0 second two resource hpackage hgroup hresource]
  simp [hall, hfirst, hsecond]

end CompiledResources
