import CompiledResources.Proofs.IdLookup
import CompiledResources.Proofs.MergeAlgebra
import CompiledResources.Proofs.Merging
import Mathlib.Data.List.Find

/-!
Lookups by id after a merge. Merging matches parts by number and name, but an id names a package and
a type by their numbers alone. Where the parts that an id leads to in the two tables have the same
names, the merged table has the resources of the id of both.
-/

namespace CompiledResources

namespace Keyed

/-! ### The first row of a part of its key -/

variable {α κ ι : Type} [DecidableEq κ] [DecidableEq ι] {key : α → κ} {part : α → ι}
  {join : α → α → α} {p : ι} {rows others : List α}

/-- The first row of a part of the key is the first row of its key. -/
theorem find?_key_of_find?_part (hpart : ∀ row other, key row = key other → part row = part other)
    {row : α} (h : find? part p rows = some row) : find? key (key row) rows = some row := by
  induction rows with
  | nil => cases h
  | cons head tail ih =>
    by_cases hhead : part head = p
    · have hrow : head = row := by simpa [find?, hhead] using h
      rw [← hrow, find?_cons_self]
    · rw [find?_cons_of_ne hhead] at h
      have hne : key head ≠ key row := fun heq =>
        hhead ((hpart head row heq).trans (key_of_find? h))
      rw [find?_cons_of_ne hne, ih h]

/-- No row has a key when none has the part of the key. -/
theorem find?_key_eq_none (hpart : ∀ row other, key row = key other → part row = part other)
    {row : α} (hrow : part row = p) (h : find? part p others = none) :
    find? key (key row) others = none := by
  rw [find?_eq_none_iff] at h ⊢
  intro hmem
  obtain ⟨other, hother, hkey⟩ := List.mem_map.mp hmem
  exact h (List.mem_map.mpr ⟨other, hother, (hpart other row hkey).trans hrow⟩)

/-- Among joined rows, the first one of a part of the key is that of the rows that were there,
joined to the row of its key, and that of the other rows where there was none. -/
theorem find?_joined (hpart : ∀ row other, key row = key other → part row = part other)
    (hjoin : ∀ row other, key (join row other) = key row) :
    find? part p (joined key join rows others) =
      ((find? part p rows).map fun row =>
        ((find? key (key row) others).map (join row)).getD row).or (find? part p others) := by
  let change (row : α) : α := ((find? key (key row) others).map (join row)).getD row
  have hchange (row : α) : part (change row) = part row := by
    simp only [change]
    cases find? key (key row) others with
    | none => rfl
    | some other => exact hpart _ _ (hjoin row other)
  have hfirst : find? part p (rows.map change) = (find? part p rows).map change := by
    simp only [find?, List.find?_map, Function.comp_def, hchange]
  have happend : find? part p (joined key join rows others) =
      (find? part p (rows.map change)).or
        (find? part p (others.filter fun other => key other ∉ rows.map key)) :=
    List.find?_append
  rw [happend, hfirst]
  cases hrows : find? part p rows with
  | some row => rfl
  | none =>
    -- no row with a key of `rows` has the part, so none that is left out does
    have hkept : ∀ other, part other = p → key other ∉ rows.map key := by
      intro other hother hmem
      obtain ⟨row, hrow, hkey⟩ := List.mem_map.mp hmem
      exact find?_eq_none_iff.mp hrows
        (List.mem_map.mpr ⟨row, hrow, (hpart row other hkey).trans hother⟩)
    refine List.find?_filter.trans (List.find?_congr fun other _ => ?_)
    by_cases hother : part other = p
    · simpa [hother] using hkept other hother
    · simp [hother]

/-- What the first row of a part of the key contributes. -/
def contribution {β : Type} (part : α → ι) (p : ι) (f : α → List β) (rows : List α) : List β :=
  ((find? part p rows).map f).getD []

/-- When the first rows of a part of the key have the same key, where both lists have one, both
contribute after joining. -/
theorem contribution_joined {β : Type} {f : α → List β}
    (hpart : ∀ row other, key row = key other → part row = part other)
    (hjoin : ∀ row other, key (join row other) = key row)
    (hboth : ∀ row other, find? part p rows = some row → find? part p others = some other →
      key row = key other ∧ (f (join row other)).Perm (f row ++ f other)) :
    (contribution part p f (joined key join rows others)).Perm
      (contribution part p f rows ++ contribution part p f others) := by
  rw [contribution, contribution, contribution, find?_joined hpart hjoin]
  cases hrow : find? part p rows with
  | none => exact .refl _
  | some row =>
    cases hother : find? part p others with
    | none =>
      have hnone : find? key (key row) others = none :=
        find?_key_eq_none hpart (key_of_find? hrow) hother
      simp [hnone]
    | some other =>
      obtain ⟨hkey, hjoined⟩ := hboth row other hrow hother
      have hfind : find? key (key row) others = some other := by
        rw [hkey]
        exact find?_key_of_find?_part hpart hother
      simpa [hfind] using hjoined

end Keyed

open Keyed

/-! ### Types and packages of an id -/

theorem TypeGroup.id_of_key (first second : TypeGroup) (h : first.key = second.key) :
    first.id = second.id :=
  congrArg Prod.fst h

theorem Package.id_of_key (first second : Package) (h : first.key = second.key) :
    first.id = second.id :=
  congrArg Prod.fst h

theorem TypeGroup.withId_joined {first second : TypeGroup} (hfirst : first.DistinctKeys)
    (hsecond : second.DistinctKeys) (id : Int) :
    ((first.joined second).withId id).Perm (first.withId id ++ second.withId id) := by
  rw [← merge_eq_joined hfirst hsecond]
  refine mergeOn_flatMap_perm fun variant other _ => ?_
  rw [Variant.merge, List.filter_append]

/-- The resources of an id in the type that it leads to in a package. -/
def Package.withId (package : Package) (id : Int) : List Resource :=
  contribution TypeGroup.id (ResourceId.split id).type (fun group => group.withId id) package.types

/-- The types that an id leads to in two packages have the same name, where both packages have
one. -/
def Package.SameType (id : Int) (first second : Package) : Prop :=
  ∀ group group', first.typeOfId? (ResourceId.split id).type = some group →
    second.typeOfId? (ResourceId.split id).type = some group' → group.name = group'.name

theorem Package.withId_joined {first second : Package} (hfirst : first.DistinctKeys)
    (hsecond : second.DistinctKeys) {id : Int} (hname : SameType id first second) :
    ((first.joined second).withId id).Perm (first.withId id ++ second.withId id) := by
  refine contribution_joined TypeGroup.id_of_key (fun _ _ => rfl) fun group group' h h' => ⟨?_, ?_⟩
  · have hid : group.id = group'.id := (key_of_find? h).trans (key_of_find? h').symm
    exact Prod.ext hid (hname group group' h h')
  · exact TypeGroup.withId_joined (hfirst.groups group (mem_of_find? h))
      (hsecond.groups group' (mem_of_find? h')) id

namespace Contents

/-- The package that an id leads to. -/
def packageOfId? (contents : Contents) (id : Int) : Option Package :=
  find? Package.id (ResourceId.split id).package contents.packages

/-- The packages that an id leads to in two tables have the same name, where both tables have one,
and so have the types that it leads to in them. -/
def SameParts (id : Int) (first second : Contents) : Prop :=
  ∀ package package', first.packageOfId? id = some package →
    second.packageOfId? id = some package' →
    package.name = package'.name ∧ Package.SameType id package package'

theorem resourcesWithId_eq_contribution (contents : Contents) (id : Int) :
    contents.resourcesWithId id =
      contribution Package.id (ResourceId.split id).package (fun package => package.withId id)
        contents.packages := by
  rw [resourcesWithId, typeOfId?, contribution]
  cases find? Package.id (ResourceId.split id).package contents.packages <;> rfl

variable {first second : Contents} (hfirst : first.DistinctKeys) (hsecond : second.DistinctKeys)
  {id : Int}
include hfirst hsecond

/-- Where an id leads to parts of the same names, a merge loses none of its resources. -/
theorem resourcesWithId_merge (hnames : SameParts id first second) :
    ((first.merge second).resourcesWithId id).Perm
      (first.resourcesWithId id ++ second.resourcesWithId id) := by
  rw [resourcesWithId_eq_contribution, resourcesWithId_eq_contribution,
    resourcesWithId_eq_contribution, merge, Package.mergeAll_eq_joined hfirst hsecond]
  refine contribution_joined Package.id_of_key (fun _ _ => rfl) fun package package' h h' => ?_
  obtain ⟨hname, htypes⟩ := hnames package package' h h'
  have hid : package.id = package'.id := (key_of_find? h).trans (key_of_find? h').symm
  exact ⟨Prod.ext hid hname, Package.withId_joined (hfirst.parts package (mem_of_find? h))
    (hsecond.parts package' (mem_of_find? h')) htypes⟩

theorem packageOfId?_merge :
    (first.merge second).packageOfId? id =
      ((first.packageOfId? id).map fun package =>
        ((find? Package.key package.key second.packages).map package.joined).getD package).or
          (second.packageOfId? id) := by
  have hjoin (package other : Package) : (package.joined other).key = package.key := rfl
  have hpackages : (first.merge second).packages =
      joined Package.key Package.joined first.packages second.packages :=
    Package.mergeAll_eq_joined hfirst hsecond
  rw [packageOfId?, hpackages]
  exact find?_joined Package.id_of_key hjoin

/-- An id that leads to no package of the second table leads to the package that it led to. -/
theorem packageOfId?_merge_of_left (h : second.packageOfId? id = none) :
    (first.merge second).packageOfId? id = first.packageOfId? id := by
  rw [packageOfId?_merge hfirst hsecond]
  cases hpackage : first.packageOfId? id with
  | none => exact h
  | some package =>
    have hnone : find? Package.key package.key second.packages = none :=
      find?_key_eq_none Package.id_of_key (key_of_find? hpackage) h
    simp [hnone]

/-- An id that leads to no package of the first table leads to the package of the second. -/
theorem packageOfId?_merge_of_right (h : first.packageOfId? id = none) :
    (first.merge second).packageOfId? id = second.packageOfId? id := by
  rw [packageOfId?_merge hfirst hsecond, h, Option.map_none, Option.none_or]

end Contents

/-- An id that leads to the same package leads to the same resources. -/
theorem Contents.lookup_congr {first second : Contents} {id : Int}
    (h : first.packageOfId? id = second.packageOfId? id) :
    first.resourcesWithId id = second.resourcesWithId id ∧
      first.resource? id = second.resource? id := by
  have hwith : first.resourcesWithId id = second.resourcesWithId id := by
    rw [resourcesWithId_eq_contribution, resourcesWithId_eq_contribution]
    exact congrArg (fun package : Option Package => (package.map _).getD []) h
  exact ⟨hwith, by rw [resource?_eq, resource?_eq, hwith]⟩

/-- Merging loses nothing to lookups by id. After a ready table of any history is merged into
another one or into itself, the resources of an integer are those that it had in both, up to their
order, provided that the packages that it leads to have the same name, and so have the types, where
both tables have one. Where only one of the tables has a package for the integer, lookups give
exactly what they gave in that table. -/
theorem Session.lookup_merge_afterAll (events : List (Text × Event)) (name other : Text)
    {first second : Contents}
    (hfirst : (Session.table (afterAll [] events) name).contents? = some first)
    (hsecond : (Session.table (afterAll [] events) other).contents? = some second) :
    ∃ merged,
      ((afterAll [] events).perform name (.merge other)).1.result = .ok () ∧
      (Session.table ((afterAll [] events).perform name (.merge other)).2 name).contents? =
        some merged ∧
      ∀ id,
        (Contents.SameParts id first second →
          (merged.resourcesWithId id).Perm
            (first.resourcesWithId id ++ second.resourcesWithId id)) ∧
        (second.packageOfId? id = none →
          merged.resourcesWithId id = first.resourcesWithId id ∧
            merged.resource? id = first.resource? id) ∧
        (first.packageOfId? id = none →
          merged.resourcesWithId id = second.resourcesWithId id ∧
            merged.resource? id = second.resource? id) := by
  have hkeys : Meets Contents.DistinctKeys (afterAll [] events) :=
    meets_afterAll Contents.lasting_distinctKeys meets_nil events
  have hdistinct := hkeys name first hfirst
  have hdistinct' := hkeys other second hsecond
  refine ⟨first.merge second, ?_, ?_, fun id => ⟨?_, fun h => ?_, fun h => ?_⟩⟩
  · rw [perform_merge_of_ready hfirst hsecond]
  · rw [perform_merge_of_ready hfirst hsecond, table_put_self]
  · exact Contents.resourcesWithId_merge hdistinct hdistinct'
  · exact Contents.lookup_congr (Contents.packageOfId?_merge_of_left hdistinct hdistinct' h)
  · exact Contents.lookup_congr (Contents.packageOfId?_merge_of_right hdistinct hdistinct' h)

theorem Session.lookup_merge_afterAll_copies :
    ∃ contents doubled filled,
      (Session.table (afterAll [] copies) "both").contents? = some contents ∧
        (Session.table ((afterAll [] copies).perform "both" (.merge "both")).2 "both").contents? =
          some doubled ∧
        (doubled.resourcesWithId 0x02010000).Perm
          (contents.resourcesWithId 0x02010000 ++ contents.resourcesWithId 0x02010000) ∧
        (Session.table ((afterAll [] copies).perform "none" (.merge "both")).2 "none").contents? =
          some filled ∧
        filled.resourcesWithId 0x02010000 = contents.resourcesWithId 0x02010000 ∧
          filled.resource? 0x02010000 = contents.resource? 0x02010000 := by
  obtain ⟨contents, hboth, -, -, hnone⟩ := tables_copies
  have hbare : (Session.table (afterAll [] copies) "none").contents? = some {} := by rw [hnone]
  obtain ⟨doubled, -, hdoubled, hcopied⟩ :=
    Session.lookup_merge_afterAll copies "both" "both" hboth hboth
  obtain ⟨filled, -, hfilled, hkept⟩ :=
    Session.lookup_merge_afterAll copies "none" "both" hbare hboth
  -- the parts that an integer leads to in a table and in the same table have the same names
  have hsame : Contents.SameParts 0x02010000 contents contents := by
    rintro package _ hpackage hpackage'
    obtain rfl := Option.some.inj (hpackage.symm.trans hpackage')
    refine ⟨rfl, fun group group' hgroup hgroup' => ?_⟩
    rw [Option.some.inj (hgroup.symm.trans hgroup')]
  obtain ⟨hwith, hfirst⟩ := (hkept 0x02010000).2.2 rfl
  exact ⟨contents, doubled, filled, hboth, hdoubled, (hcopied _).1 hsame, hfilled, hwith, hfirst⟩

end CompiledResources
