import CompiledResources.Proofs.PackageRoundTrip
import Mathlib.Data.List.Induction

/-!
Rows that are found or appended one after another are in the end the groups of what they were made
of. So the packages that the package chunks of a plan make, merged one after another, are those that
the plan amounts to.
-/

namespace CompiledResources

namespace Keyed

variable {α β κ : Type} [DecidableEq κ]

/-- A key behind others is one of them or comes last. -/
theorem firsts_concat (keys : List κ) (k : κ) :
    firsts (keys ++ [k]) = if k ∈ keys then firsts keys else firsts keys ++ [k] := by
  rw [firsts, firsts, List.eraseDups_append, List.removeAll]
  by_cases h : k ∈ keys
  · simp [h]
  · simp [h, List.eraseDups_cons]

theorem mem_firsts {keys : List κ} {k : κ} : k ∈ firsts keys ↔ k ∈ keys := List.mem_eraseDups

theorem nodup_firsts (keys : List κ) : (firsts keys).Nodup := by
  have hbehind (front : List κ) (hfront : (firsts front).Nodup) :
      (firsts (front ++ keys)).Nodup := by
    induction keys generalizing front with
    | nil => rwa [List.append_nil]
    | cons k rest ih =>
      rw [List.append_cons]
      apply ih
      rw [firsts_concat]
      split
      next => exact hfront
      next hnew =>
        refine List.nodup_append.mpr ⟨hfront, by simp, ?_⟩
        intro other hother last hlast heq
        obtain rfl := List.mem_singleton.mp hlast
        exact hnew (heq ▸ mem_firsts.mp hother)
  exact hbehind [] List.nodup_nil

theorem mem_congr_of_firsts {keys others : List κ} (h : firsts keys = firsts others) (k : κ) :
    k ∈ keys ↔ k ∈ others := by
  rw [← mem_firsts, h, mem_firsts]

theorem firsts_concat_congr {keys others : List κ} (h : firsts keys = firsts others) (k : κ) :
    firsts (keys ++ [k]) = firsts (others ++ [k]) := by
  have hmem := mem_congr_of_firsts h k
  rw [firsts_concat, firsts_concat, h]
  by_cases hk : k ∈ others
  · rw [if_pos (hmem.mpr hk), if_pos hk]
  · rw [if_neg (mt hmem.mp hk), if_neg hk]

section

variable {key : α → κ} {make : κ → List α → β} {rowKey : β → κ}

theorem map_groupOn (hkey : ∀ k items, rowKey (make k items) = k) (items : List α) :
    (groupOn key make items).map rowKey = firsts (items.map key) := by
  rw [groupOn, List.map_map]
  exact (List.map_congr_left fun k _ => hkey k _).trans (List.map_id _)

theorem filter_concat_of_ne {k : κ} (items : List α) {item : α} (hne : key item ≠ k) :
    (items ++ [item]).filter (fun other => key other = k) =
      items.filter fun other => key other = k := by
  rw [List.filter_append, List.filter_cons_of_neg (by simpa using hne), List.filter_nil,
    List.append_nil]

theorem filter_concat_self (items : List α) (item : α) :
    (items ++ [item]).filter (fun other => key other = key item) =
      items.filter (fun other => key other = key item) ++ [item] := by
  rw [List.filter_append, List.filter_cons_of_pos (by simp), List.filter_nil]

/-- One more item of a key that some item has: only the row of that key is made of one item more. -/
theorem groupOn_concat_of_mem {make : κ → List α → β} (items : List α) {item : α}
    (hmem : key item ∈ items.map key) :
    groupOn key make (items ++ [item]) = (firsts (items.map key)).map fun k =>
      if k = key item then
        make k (items.filter (fun other => key other = key item) ++ [item])
      else make k (items.filter fun other => key other = k) := by
  rw [groupOn, List.map_append, List.map_singleton, firsts_concat, if_pos hmem]
  apply List.map_congr_left
  intro k _
  by_cases hk : k = key item
  · subst hk
    rw [if_pos rfl, filter_concat_self]
  · rw [if_neg hk, filter_concat_of_ne items (Ne.symm hk)]

/-- One more item of a new key makes a row of its own. -/
theorem groupOn_concat_of_not_mem {make : κ → List α → β} (items : List α) {item : α}
    (hmem : key item ∉ items.map key) :
    groupOn key make (items ++ [item]) = groupOn key make items ++ [make (key item) [item]] := by
  have hnone : items.filter (fun other => key other = key item) = [] := by
    rw [List.filter_eq_nil_iff]
    intro other hother heq
    exact hmem (of_decide_eq_true heq ▸ List.mem_map_of_mem hother)
  rw [groupOn, groupOn, List.map_append, List.map_singleton, firsts_concat, if_neg hmem,
    List.map_append, List.map_singleton, filter_concat_self, hnone, List.nil_append]
  congr 1
  apply List.map_congr_left
  intro k hk
  have hne : key item ≠ k := fun heq => hmem (heq ▸ mem_firsts.mp hk)
  rw [filter_concat_of_ne items hne]

/-- One more item changes the row of its key or appends one to the groups. -/
theorem upsert_groupOn (hkey : ∀ k items, rowKey (make k items) = k) {change : β → β} {fresh : β}
    (items : List α) {item : α} {k : κ} (hitem : key item = k)
    (hchange : ∀ alike, change (make k alike) = make k (alike ++ [item]))
    (hfresh : fresh = make k [item]) :
    upsert rowKey k change fresh (groupOn key make items) =
      groupOn key make (items ++ [item]) := by
  subst hitem
  by_cases hmem : key item ∈ items.map key
  · have hdistinct : Distinct rowKey (groupOn key make items) := by
      rw [Distinct, map_groupOn hkey]
      exact nodup_firsts _
    have hrow : key item ∈ (groupOn key make items).map rowKey := by
      rw [map_groupOn hkey]
      exact mem_firsts.mpr hmem
    rw [upsert_of_mem hdistinct hrow, groupOn_concat_of_mem items hmem, groupOn, List.map_map]
    apply List.map_congr_left
    intro k _
    rw [Function.comp_apply, hkey]
    split
    next hk =>
      subst hk
      exact hchange _
    next => rfl
  · have hrow : key item ∉ (groupOn key make items).map rowKey := by
      rw [map_groupOn hkey]
      exact fun h => hmem (mem_firsts.mp h)
    rw [upsert_of_not_mem hrow, groupOn_concat_of_not_mem items hmem, hfresh]

end

section

variable {κ' : Type} [DecidableEq κ'] {f : κ → κ'}

theorem firsts_map (hf : ∀ k k', f k = f k' → k = k') (keys : List κ) :
    firsts (keys.map f) = (firsts keys).map f := by
  induction keys using List.reverseRecOn with
  | nil => rfl
  | append_singleton keys k ih =>
    have hmem : f k ∈ keys.map f ↔ k ∈ keys := by
      simp only [List.mem_map]
      exact ⟨fun ⟨k', hk', heq⟩ => hf k' k heq ▸ hk', fun hk => ⟨k, hk, rfl⟩⟩
    rw [List.map_append, List.map_singleton, firsts_concat, firsts_concat, ih]
    by_cases hk : k ∈ keys
    · rw [if_pos (hmem.mpr hk), if_pos hk]
    · rw [if_neg (mt hmem.mp hk), if_neg hk, List.map_append, List.map_singleton]

/-- Groups may be made under names of the keys, as long as these tell the keys apart. -/
theorem groupOn_map {α' : Type} {key : α → κ} {key' : α' → κ'} {g : α → α'}
    (hf : ∀ k k', f k = f k' → k = k') (hkey : ∀ item, key' (g item) = f (key item))
    (make : κ' → List α' → β) (items : List α) :
    groupOn key' make (items.map g) =
      groupOn key (fun k alike => make (f k) (alike.map g)) items := by
  have hkeys : (items.map g).map key' = (items.map key).map f := by
    rw [List.map_map, List.map_map]
    exact List.map_congr_left fun item _ => hkey item
  rw [groupOn, groupOn, hkeys, firsts_map hf, List.map_map]
  apply List.map_congr_left
  intro k _
  have halike : (items.map g).filter (fun item => key' item = f k) =
      (items.filter fun item => key item = k).map g := by
    rw [List.filter_map]
    refine congrArg (List.map g) (List.filter_congr fun item _ => ?_)
    rw [Function.comp_apply, hkey, decide_eq_decide]
    exact ⟨hf _ _, congrArg f⟩
  rw [Function.comp_apply, halike]

end

end Keyed

open Keyed Layout

/-! ### Variants and types -/

/-- What a nested chunk gives to a type: the type alone, or a variant of it. -/
structure Supply where
  type : Int × Text
  variant? : Option Variant

/-- The type from all that is given to it. -/
def TypeGroup.ofSupplies (type : Int × Text) (supplies : List Supply) : TypeGroup where
  id := type.1
  name := type.2
  variants := variantsOf (supplies.filterMap Supply.variant?)

/-- The package from all that is given to its types. -/
def Package.ofSupplies (key : Int × Text) (supplies : List Supply) : Package where
  id := key.1
  name := key.2
  types := groupOn Supply.type TypeGroup.ofSupplies supplies

/-- What a package becomes when something is given to one of its types. -/
def Package.supply (package : Package) (given : Supply) : Package :=
  match given.variant? with
  | none => package.declare given.type.1 given.type.2
  | some variant => package.add given.type.1 given.type.2 variant.qualifiers variant.resources

/-- A variant that is given to a type is joined to the one of its qualifiers. -/
theorem TypeGroup.add_ofSupplies (type : Int × Text) (supplies : List Supply) (variant : Variant) :
    (TypeGroup.ofSupplies type supplies).add variant.qualifiers variant.resources =
      TypeGroup.ofSupplies type (supplies ++ [⟨type, some variant⟩]) := by
  let given : Supply := { type, variant? := some variant }
  have hgiven : (supplies ++ [given]).filterMap Supply.variant? =
      supplies.filterMap Supply.variant? ++ [variant] := List.filterMap_append
  have hvariants (variants : List Variant) :
      upsert Variant.qualifiers variant.qualifiers
          (fun known => { known with resources := known.resources ++ variant.resources })
          variant (variantsOf variants) = variantsOf (variants ++ [variant]) := by
    apply upsert_groupOn
    · intro qualifiers alike
      rfl
    · rfl
    · intro alike
      rw [variantOf, variantOf, List.flatMap_append, List.flatMap_singleton]
    · rw [variantOf, List.flatMap_singleton]
  rw [TypeGroup.ofSupplies, TypeGroup.ofSupplies, hgiven, ← hvariants]
  rfl

theorem Package.supply_ofSupplies (key : Int × Text) (supplies : List Supply) (given : Supply) :
    (Package.ofSupplies key supplies).supply given =
      Package.ofSupplies key (supplies ++ [given]) := by
  have hkey (type : Int × Text) (alike : List Supply) :
      (TypeGroup.ofSupplies type alike).key = type := rfl
  obtain ⟨type, variant?⟩ := given
  cases variant? with
  | none =>
    have htypes : upsert TypeGroup.key type (fun group => group) { id := type.1, name := type.2 }
        (groupOn Supply.type TypeGroup.ofSupplies supplies) =
        groupOn Supply.type TypeGroup.ofSupplies (supplies ++ [⟨type, none⟩]) := by
      apply upsert_groupOn hkey
      · rfl
      · intro alike
        simp [TypeGroup.ofSupplies]
      · rfl
    rw [Package.ofSupplies, Package.ofSupplies, ← htypes]
    rfl
  | some variant =>
    have htypes : upsert TypeGroup.key type
        (fun group => group.add variant.qualifiers variant.resources)
        (({ id := type.1, name := type.2 } : TypeGroup).add variant.qualifiers variant.resources)
        (groupOn Supply.type TypeGroup.ofSupplies supplies) =
        groupOn Supply.type TypeGroup.ofSupplies (supplies ++ [⟨type, some variant⟩]) := by
      apply upsert_groupOn hkey
      · rfl
      · exact fun alike => TypeGroup.add_ofSupplies type alike variant
      · exact TypeGroup.add_ofSupplies type [] variant
    rw [Package.ofSupplies, Package.ofSupplies, ← htypes]
    rfl

theorem Package.foldl_supply_ofSupplies (key : Int × Text) (supplies more : List Supply) :
    more.foldl Package.supply (Package.ofSupplies key supplies) =
      Package.ofSupplies key (supplies ++ more) := by
  induction more generalizing supplies with
  | nil => rw [List.append_nil, List.foldl_nil]
  | cons given rest ih =>
    rw [List.foldl_cons, Package.supply_ofSupplies, ih, List.append_assoc, List.singleton_append]

/-! ### Merging packages -/

theorem Package.distinctKeys_supply {package : Package} (h : package.DistinctKeys)
    (given : Supply) : (package.supply given).DistinctKeys := by
  unfold Package.supply
  split
  · exact Package.distinctKeys_declare h _ _
  · exact Package.distinctKeys_add h _ _ _ _

/-- What is given to a package may be given before it is merged. -/
theorem Package.merge_supply (first : Package) {second : Package} (h : second.DistinctKeys)
    (given : Supply) :
    first.merge (second.supply given) = (first.merge second).supply given := by
  unfold Package.supply
  split
  · exact Package.merge_declare first h _ _
  · exact Package.merge_add first h _ _ _ _

theorem Package.merge_foldl_supply (first : Package) {second : Package} (h : second.DistinctKeys)
    (supplies : List Supply) :
    first.merge (supplies.foldl Package.supply second) =
      supplies.foldl Package.supply (first.merge second) := by
  induction supplies generalizing second with
  | nil => rfl
  | cons given rest ih =>
    rw [List.foldl_cons, List.foldl_cons, ih (Package.distinctKeys_supply h given),
      Package.merge_supply first h]

/-- Merging packages brings together what was given to them. -/
theorem Package.merge_ofSupplies (key other : Int × Text) (supplies more : List Supply) :
    (Package.ofSupplies key supplies).merge (Package.ofSupplies other more) =
      Package.ofSupplies key (supplies ++ more) := by
  have hmore : Package.ofSupplies other more =
      more.foldl Package.supply { id := other.1, name := other.2 } :=
    (Package.foldl_supply_ofSupplies other [] more).symm
  have hempty : (Package.ofSupplies key supplies).merge { id := other.1, name := other.2 } =
      Package.ofSupplies key supplies := rfl
  rw [hmore, Package.merge_foldl_supply _ (Package.distinctKeys_empty _ _), hempty,
    Package.foldl_supply_ofSupplies]

namespace Layout

/-! ### Package chunks -/

/-- What a nested chunk of a package chunk gives to one of its types. -/
def NestedPlan.supply? (strings : List Text) (package : PackagePlan) : NestedPlan → Option Supply
  | .typeSpec id _ => some { type := (id, package.typeName id), variant? := none }
  | .entries group => some {
      type := (group.id, package.typeName group.id)
      variant? := some (package.variant strings group) }
  | .foreign _ => none

/-- What the nested chunks of a package chunk give to its types. -/
def PackagePlan.supplies (strings : List Text) (plan : PackagePlan) : List Supply :=
  plan.nested.filterMap (NestedPlan.supply? strings plan)

/-- A package chunk makes the package of what its nested chunks give. -/
theorem PackagePlan.package_eq (strings : List Text) (plan : PackagePlan) :
    plan.package strings = Package.ofSupplies plan.key (plan.supplies strings) := by
  have hsupplies : plan.package strings =
      (plan.supplies strings).foldl Package.supply (Package.ofSupplies plan.key []) := by
    rw [PackagePlan.supplies, List.foldl_filterMap, PackagePlan.package]
    congr 1
    funext package nested
    cases nested <;> rfl
  rw [hsupplies, Package.foldl_supply_ofSupplies, List.nil_append]

/-- The packages of package chunks, merged one after another, are made of what all chunks of
their id and name give. -/
theorem mergeAll_packages (strings : List Text) (plans : List PackagePlan) :
    Package.mergeAll [] (plans.map (PackagePlan.package strings)) =
      groupOn PackagePlan.key (fun key parts =>
        Package.ofSupplies key (parts.flatMap (PackagePlan.supplies strings))) plans := by
  let make (key : Int × Text) (parts : List PackagePlan) : Package :=
    Package.ofSupplies key (parts.flatMap (PackagePlan.supplies strings))
  have hbehind (before : List PackagePlan) :
      Package.mergeAll (groupOn PackagePlan.key make before)
        (plans.map (PackagePlan.package strings)) =
        groupOn PackagePlan.key make (before ++ plans) := by
    induction plans generalizing before with
    | nil =>
      rw [List.append_nil]
      rfl
    | cons plan rest ih =>
      have hstep : upsert Package.key (plan.package strings).key
          (fun known => known.merge (plan.package strings)) (plan.package strings)
          (groupOn PackagePlan.key make before) =
          groupOn PackagePlan.key make (before ++ [plan]) := by
        apply upsert_groupOn
        · intro key parts
          rfl
        · rw [PackagePlan.package_eq]
          rfl
        · intro alike
          rw [PackagePlan.package_eq]
          simp only [make, Package.merge_ofSupplies, List.flatMap_append, List.flatMap_singleton]
        · rw [PackagePlan.package_eq]
          simp only [make, List.flatMap_singleton]
          rfl
      rw [List.map_cons, Package.mergeAll, mergeOn_cons, hstep]
      exact (ih (before ++ [plan])).trans (by rw [List.append_assoc, List.singleton_append])
  exact hbehind []

/-- Behind declared types, the types that are given something are those that are declared. -/
theorem firsts_supplies (strings : List Text) (package : PackagePlan)
    (nested : List NestedPlan) {declared : List Nat} (h : DeclaredFirst declared nested)
    {given known : List (Int × Text)} (hkeys : firsts given = firsts known)
    (hknown : ∀ id ∈ declared, ((id : Int), package.typeName id) ∈ known) :
    firsts (given ++ (nested.filterMap (NestedPlan.supply? strings package)).map Supply.type) =
      firsts (known ++ nested.filterMap (NestedPlan.declared? package)) := by
  induction nested generalizing declared given known with
  | nil => simpa using hkeys
  | cons first rest ih =>
    cases first with
    | typeSpec id entryCount =>
      let key : Int × Text := (id, package.typeName id)
      have hnext : firsts (given ++ [key]) = firsts (known ++ [key]) :=
        firsts_concat_congr hkeys key
      have hnextKnown : ∀ other ∈ id :: declared,
          ((other : Int), package.typeName other) ∈ known ++ [key] := by
        intro other hother
        rcases List.mem_cons.mp hother with rfl | hother
        · exact List.mem_append_right known List.mem_cons_self
        · exact List.mem_append_left [key] (hknown other hother)
      have hrest := ih h hnext hnextKnown
      rwa [List.append_assoc, List.append_assoc] at hrest
    | entries group =>
      let key : Int × Text := (group.id, package.typeName group.id)
      have hgiven : key ∈ given := (mem_congr_of_firsts hkeys key).mpr (hknown group.id h.1)
      have hnext : firsts (given ++ [key]) = firsts known := by
        rw [firsts_concat, if_pos hgiven, hkeys]
      have hrest := ih h.2 hnext hknown
      rwa [List.append_assoc] at hrest
    | foreign chunk => exact ih h hkeys hknown

/-- The types of package chunks that are given something are those that the type specs declare. -/
theorem firsts_flatMap_supplies (strings : List Text) (parts : List PackagePlan)
    (h : ∀ part ∈ parts, DeclaredFirst [] part.nested) :
    firsts ((parts.flatMap (PackagePlan.supplies strings)).map Supply.type) =
      firsts (parts.flatMap PackagePlan.declared) := by
  have hbehind (given known : List (Int × Text)) (hkeys : firsts given = firsts known) :
      firsts (given ++ (parts.flatMap (PackagePlan.supplies strings)).map Supply.type) =
        firsts (known ++ parts.flatMap PackagePlan.declared) := by
    induction parts generalizing given known with
    | nil => simpa using hkeys
    | cons part rest ih =>
      rw [List.forall_mem_cons] at h
      have hpart := firsts_supplies strings part part.nested h.1 hkeys (by simp)
      have hrest := ih h.2 _ _ hpart
      rwa [List.append_assoc, List.append_assoc, ← List.map_append] at hrest
  exact hbehind [] [] rfl

/-- What type chunks give to a type is what they hold of it. -/
theorem filterMap_supplies (strings : List Text) (type : Int × Text) (plan : PackagePlan) :
    ((plan.supplies strings).filter fun given => given.type = type).filterMap Supply.variant? =
      plan.variants strings type := by
  rw [PackagePlan.supplies, List.filter_filterMap, List.filterMap_filterMap, PackagePlan.variants]
  congr 1
  funext nested
  cases nested with
  | typeSpec id entryCount =>
    by_cases htype : ((id : Int), plan.typeName id) = type
    · simp [NestedPlan.supply?, NestedPlan.variant?, htype]
    · simp [NestedPlan.supply?, NestedPlan.variant?, htype]
  | entries group =>
    by_cases htype : ((group.id : Int), plan.typeName group.id) = type
    · simp [NestedPlan.supply?, NestedPlan.variant?, htype, Option.filter]
    · simp [NestedPlan.supply?, NestedPlan.variant?, htype]
  | foreign chunk => rfl

/-- The package of package chunks is made of what they give to its types. -/
theorem packageOf_eq (strings : List Text) (key : Int × Text) {parts : List PackagePlan}
    (h : ∀ part ∈ parts, DeclaredFirst [] part.nested) :
    packageOf strings key parts =
      Package.ofSupplies key (parts.flatMap (PackagePlan.supplies strings)) := by
  rw [packageOf, Package.ofSupplies, groupOn, firsts_flatMap_supplies strings parts h]
  congr 2
  funext type
  have hvariants : ((parts.flatMap (PackagePlan.supplies strings)).filter
      fun given => given.type = type).filterMap Supply.variant? =
      parts.flatMap (PackagePlan.variants strings type) := by
    rw [List.filter_flatMap, List.filterMap_flatMap]
    congr 1
    funext plan
    exact filterMap_supplies strings type plan
  rw [TypeGroup.ofSupplies, hvariants]

/-- The packages that the package chunks of a plan make, merged one after another, are those that
the plan amounts to. -/
theorem TablePlan.mergeAll_packages (plan : TablePlan)
    (h : ∀ part ∈ plan.packages, DeclaredFirst [] part.nested) :
    Package.mergeAll [] (plan.packages.map (PackagePlan.package plan.strings)) =
      plan.contents.packages := by
  rw [Layout.mergeAll_packages, TablePlan.contents, groupOn, groupOn]
  apply List.map_congr_left
  intro key _
  refine (packageOf_eq plan.strings key ?_).symm
  intro part hpart
  exact h part (List.mem_filter.mp hpart).1

end Layout

end CompiledResources
