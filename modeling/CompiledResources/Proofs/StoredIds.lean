import CompiledResources.Proofs.Merging

/-!
The ids of stored resources. Every resource that decoding stores has the id of its package, cut to a
byte, and of its type, and it keeps its place when tables are merged. So the id of a resource says
where it is stored, as far as a byte can say which package it is.
-/

namespace CompiledResources

open Keyed Decoder

/-- The id of a stored resource is a word of 32 bits that names its type and, cut to a byte, its
package. -/
structure Placed.Addressed (placed : Placed) : Prop where
  nonneg : 0 ≤ placed.resource.id
  lt : placed.resource.id < 0x100000000
  package : (ResourceId.split placed.resource.id).package = placed.package.1 % 0x100
  type : (ResourceId.split placed.resource.id).type = placed.type.1

/-- The id of a package is not negative, and the ids of its resources name where they are. -/
structure Package.Addressed (package : Package) : Prop where
  id_nonneg : 0 ≤ package.id
  placed : ∀ placed ∈ package.placed, placed.Addressed

/-- All packages of a table are of this kind. -/
def Contents.Addressed (contents : Contents) : Prop :=
  ∀ package ∈ contents.packages, package.Addressed

/-- The id of an entry is made of those of its package and its type. -/
theorem Placed.addressed_join {package type : Int × Text} (htype : 0 ≤ type.1 ∧ type.1 < 0x100)
    (qualifiers : Qualifiers) (entry : Int) {resource : Resource}
    (hid : resource.id = ResourceId.join ⟨package.1, type.1, entry⟩) :
    Placed.Addressed ⟨package, type, qualifiers, resource⟩ := by
  have hsplit := ResourceId.split_join ⟨package.1, type.1, entry⟩
  rw [← hid] at hsplit
  have hjoin : resource.id = package.1 % 0x100 * 0x1000000 + type.1 % 0x100 * 0x10000 +
      entry % 0x10000 := hid
  refine ⟨?_, ?_, ?_, ?_⟩
  · change 0 ≤ resource.id
    omega
  · change resource.id < _
    omega
  · rw [hsplit]
  · rw [hsplit]
    exact Int.emod_eq_of_lt htype.1 htype.2

/-- The id of a resource names the type and the package that hold it. -/
theorem Package.Addressed.resource {package : Package} (h : package.Addressed) {group : TypeGroup}
    (hgroup : group ∈ package.types) {resource : Resource}
    (hresource : resource ∈ group.resources) :
    ∃ qualifiers, Placed.Addressed ⟨package.key, group.key, qualifiers, resource⟩ := by
  obtain ⟨variant, hvariant, hmem⟩ := List.mem_flatMap.mp hresource
  refine ⟨variant.qualifiers, h.placed _ (List.mem_flatMap.mpr ⟨group, hgroup, ?_⟩)⟩
  exact List.mem_flatMap.mpr ⟨variant, hvariant, List.mem_map_of_mem hmem⟩

/-! ### The steps that build up a model -/

/-- Resources are added at their place: adding them is merging a package that has only them. -/
theorem Package.placed_add (package : Package) (id : Int) (name : Text) (qualifiers : Qualifiers)
    (resources : List Resource) :
    (package.add id name qualifiers resources).placed.Perm
      (package.placed ++ resources.map fun resource =>
        ⟨package.key, (id, name), qualifiers, resource⟩) := by
  let added : Package :=
    { package with types := [{ id, name, variants := [{ qualifiers, resources }] }] }
  have hmerge : package.add id name qualifiers resources = package.merge added := rfl
  have hadded : added.placed = resources.map fun resource =>
      ⟨package.key, (id, name), qualifiers, resource⟩ := by
    simp [added, Package.placed, TypeGroup.placed, Variant.placed, Package.key, TypeGroup.key]
  rw [hmerge, ← hadded]
  exact Package.placed_merge package added rfl

/-- A declared type has no resources. -/
theorem Package.placed_declare (package : Package) (id : Int) (name : Text) :
    (package.declare id name).placed.Perm package.placed := by
  let added : Package := { package with types := [{ id, name }] }
  have hmerge : package.declare id name = package.merge added := rfl
  have hadded : added.placed = [] := rfl
  have hperm := Package.placed_merge package added rfl
  rwa [← hmerge, hadded, List.append_nil] at hperm

theorem Package.addressed_empty {id : Int} (hid : 0 ≤ id) (name : Text) :
    ({ id, name } : Package).Addressed where
  id_nonneg := hid
  placed := by
    intro placed hplaced
    cases hplaced

theorem Package.addressed_declare {package : Package} (h : package.Addressed) (id : Int)
    (name : Text) : (package.declare id name).Addressed where
  id_nonneg := h.id_nonneg
  placed placed hplaced := h.placed placed ((package.placed_declare id name).mem_iff.mp hplaced)

/-- Entries of a type are added with ids made of those of the package and the type. -/
theorem Package.addressed_add {package : Package} (h : package.Addressed) {id : Int}
    (hid : 0 ≤ id ∧ id < 0x100) (name : Text) (qualifiers : Qualifiers) {resources : List Resource}
    (hresources : ∀ resource ∈ resources, ∃ entry : Int,
      resource.id = ResourceId.join ⟨package.id, id, entry⟩) :
    (package.add id name qualifiers resources).Addressed where
  id_nonneg := h.id_nonneg
  placed placed hplaced := by
    have hmem := (package.placed_add id name qualifiers resources).mem_iff.mp hplaced
    rcases List.mem_append.mp hmem with hold | hnew
    · exact h.placed placed hold
    · obtain ⟨resource, hresource, rfl⟩ := List.mem_map.mp hnew
      obtain ⟨entry, hentry⟩ := hresources resource hresource
      exact Placed.addressed_join hid qualifiers entry hentry

/-! ### Merging and emptying -/

theorem Package.addressed_merge {first second : Package} (hkey : first.key = second.key)
    (hfirst : first.Addressed) (hsecond : second.Addressed) : (first.merge second).Addressed where
  id_nonneg := hfirst.id_nonneg
  placed placed hplaced := by
    have hmem := (Package.placed_merge first second hkey).mem_iff.mp hplaced
    rcases List.mem_append.mp hmem with h | h
    · exact hfirst.placed placed h
    · exact hsecond.placed placed h

theorem Contents.addressed_merge {first second : Contents} (hfirst : first.Addressed)
    (hsecond : second.Addressed) : (first.merge second).Addressed :=
  forall_mem_mergeOn (fun _ _ hkey => Package.addressed_merge hkey) hfirst hsecond

/-- A variant that is emptied leaves its resources out and moves no other. -/
theorem Contents.addressed_emptyVariant {contents : Contents} (h : contents.Addressed)
    (position : TypePosition) (index : Nat) :
    (contents.emptyVariant position index).Addressed := by
  have hgroup (key : Int × Text) (group : TypeGroup) :
      TypeGroup.placed key { group with
        variants := group.variants.modify index fun variant => { variant with resources := [] } } ⊆
        group.placed key :=
    flatMap_modify_subset (fun _ => List.nil_subset _) index group.variants
  refine forall_mem_modify (fun package hpackage => ⟨hpackage.id_nonneg, fun placed hplaced => ?_⟩)
    position.package h
  apply hpackage.placed placed
  exact flatMap_modify_subset (hgroup package.key) position.type package.types hplaced

/-! ### Decoding -/

theorem TypeHeader.ensures_read (data : ByteArray) (chunk : Chunk) :
    Ensures (TypeHeader.read data chunk) fun header => header.id < 0x100 := by
  refine .read fun id hid => ?_
  have hlt : id < 0x100 := (Bytes.fits_of_numberAt hid).2
  refine .after fun _ => .after fun flags => .ite (.after fun _ => ?_) ?_ <;>
    exact .after fun _ => .after fun _ => .after fun _ => .after fun _ => .after fun _ =>
      .after fun _ => .pure hlt

/-- The id of an entry is made of those of its package and its type, and its number. -/
theorem PackageScope.ensures_readEntry (scope : PackageScope) (typeId : Nat)
    (place : EntryPlace) :
    Ensures (scope.readEntry typeId place) fun found => ∀ resource, found = some resource →
      ∃ entry : Int, resource.id = ResourceId.join ⟨scope.packageId, typeId, entry⟩ := by
  have hnone : Ensures (pure none : Decoder (Option Resource)) fun found =>
      ∀ resource, found = some resource →
        ∃ entry : Int, resource.id = ResourceId.join ⟨scope.packageId, typeId, entry⟩ :=
    .pure fun resource hresource => nomatch hresource
  refine .after fun header => ?_
  cases header with
  | none => exact hnone
  | some header =>
    refine .after fun result => ?_
    cases result with
    | error refusal => exact .after fun _ => hnone
    | ok value =>
      refine .pure fun resource hresource => ⟨place.entry, ?_⟩
      obtain rfl := Option.some.inj hresource
      rfl

theorem PackageScope.ensures_readEntries (scope : PackageScope) (typeId : Nat)
    (places : List EntryPlace) :
    Ensures (scope.readEntries typeId places) fun resources => ∀ resource ∈ resources,
      ∃ entry : Int, resource.id = ResourceId.join ⟨scope.packageId, typeId, entry⟩ := by
  refine .bind (.mapM (scope.ensures_readEntry typeId) places) fun found hfound =>
    .pure fun resource hresource => ?_
  obtain ⟨_, hmem, rfl⟩ := List.mem_filterMap.mp hresource
  exact hfound _ hmem resource rfl

theorem OpenPackage.ensures_addressed (scope : PackageScope) (state : OpenPackage) (chunk : Chunk)
    (h : state.package.Addressed ∧ state.package.id = scope.packageId) :
    Ensures (OpenPackage.enter scope state chunk) fun next =>
      next.package.Addressed ∧ next.package.id = scope.packageId := by
  rcases h with ⟨haddressed, hid⟩
  refine .ite (.after fun spec => ?_)
    (.ite (.bind (TypeHeader.ensures_read _ _) fun header hlt => ?_) (.pure ⟨haddressed, hid⟩))
  · have hdeclared := Package.addressed_declare haddressed spec.id (scope.typeName spec.id)
    exact .ite (.after fun _ => .pure ⟨hdeclared, hid⟩) (.pure ⟨hdeclared, hid⟩)
  · have hadded (resources : List Resource) (hresources : ∀ resource ∈ resources,
        ∃ entry : Int, resource.id = ResourceId.join ⟨scope.packageId, header.id, entry⟩) :
        (state.package.add header.id (scope.typeName header.id) header.qualifiers
          resources).Addressed := by
      rw [← hid] at hresources
      exact Package.addressed_add haddressed ⟨Int.natCast_nonneg _, by omega⟩ _ _ hresources
    refine .ite (.after fun _ => ?_) ?_ <;>
      exact .after fun places => .bind (scope.ensures_readEntries header.id places)
        fun resources hresources => .pure ⟨hadded resources hresources, hid⟩

theorem OpenTable.ensures_addressed (data : ByteArray) (state : OpenTable) (chunk : Chunk)
    (h : state.contents.Addressed) :
    Ensures (OpenTable.enter data state chunk) fun next => next.contents.Addressed := by
  refine .ite (.after fun pool => .pure h) (.ite ?_ (.pure h))
  refine .after fun header => .after fun _ => .after fun typePool => .after fun keyPool => ?_
  have hstart := state.contents.getD_package? header.id header.name
    (fun package => package.Addressed ∧ package.id = header.id)
    ⟨Package.addressed_empty (Int.natCast_nonneg _) _, rfl⟩
    fun known hmem hkey => ⟨h known hmem, congrArg Prod.fst hkey⟩
  exact .bind (Chunk.ensures_visit (OpenPackage.ensures_addressed _) _ hstart)
    fun final hfinal => .after fun _ => .pure (forall_mem_upsert h (fun _ _ _ => hfinal.1) hfinal.1)

theorem Contents.lasting_addressed : Contents.Lasting Contents.Addressed where
  start := by
    intro package hpackage
    cases hpackage
  enter := OpenTable.ensures_addressed
  merge _ _ := Contents.addressed_merge
  empty _ position index h := Contents.addressed_emptyVariant h position index

/-! ### A table with two packages -/

/-- A table of two packages that have a type of the same number, with a resource in each. -/
def Layout.TablePlan.neighbours : Layout.TablePlan :=
  let group : Layout.TypePlan := {
    id := 1, slots := 1, entries := [{ number := 0, key := 0, body := .simple ⟨0x10, 5⟩ }] }
  let package (id : Nat) (name : Text) : Layout.PackagePlan := {
    id, name, typeNames := ["id"], keyNames := ["a"]
    nested := [.typeSpec 1 1, .entries group] }
  { chunks := [.package (package 1 "first"), .package (package 2 "second")] }

namespace Session

/-- The history in which this table is loaded. -/
def neighbours : List (Text × Event) :=
  let bytes : ByteArray := ⟨Layout.TablePlan.neighbours.bytes.toArray⟩
  [("both", .action (.createFrom .strict (.bytes bytes)))]

theorem packages_neighbours :
    ∃ contents first second one two,
      (Session.table (afterAll [] neighbours) "both").contents? = some contents ∧
        contents.packages = [first, second] ∧ first.id = 1 ∧ second.id = 2 ∧
          first.types = [one] ∧ second.types = [two] ∧ one.id = 1 ∧ two.id = 1 ∧
            two.resources.map Resource.id = [0x02010000] := by
  let ids (package : Package) : Int × List (Int × List Int) :=
    (package.id, package.types.map fun group => (group.id, group.resources.map Resource.id))
  have hids : (Session.table (afterAll [] neighbours) "both").contents?.map (fun contents =>
      contents.packages.map ids) =
        some [(1, [(1, [0x01010000])]), (2, [(1, [0x02010000])])] := by
    have hplan : Layout.TablePlan.neighbours.Storable := by decide +kernel
    rw [afterAll, neighbours, List.foldl_cons, List.foldl_nil, after,
      perform_createFrom hplan, table_put_self]
    decide +kernel
  obtain ⟨contents, hready, hpackages⟩ := Option.map_eq_some_iff.mp hids
  obtain ⟨first, _, hall, hfirst, hrest⟩ := List.map_eq_cons_iff.mp hpackages
  obtain ⟨second, _, rfl, hsecond, hnil⟩ := List.map_eq_cons_iff.mp hrest
  obtain rfl := List.map_eq_nil_iff.mp hnil
  obtain ⟨hfirstId, hfirstTypes⟩ := Prod.ext_iff.mp hfirst
  obtain ⟨hsecondId, hsecondTypes⟩ := Prod.ext_iff.mp hsecond
  obtain ⟨one, _, hone, honeIds, hnil⟩ := List.map_eq_cons_iff.mp hfirstTypes
  obtain rfl := List.map_eq_nil_iff.mp hnil
  obtain ⟨two, _, htwo, htwoIds, hnil⟩ := List.map_eq_cons_iff.mp hsecondTypes
  obtain rfl := List.map_eq_nil_iff.mp hnil
  exact ⟨contents, first, second, one, two, hready, hall, hfirstId, hsecondId, hone, htwo,
    congrArg Prod.fst honeIds, congrArg Prod.fst htwoIds, congrArg Prod.snd htwoIds⟩

end Session
end CompiledResources
