import CompiledResources.Proofs.Histories
import CompiledResources.Proofs.KeyedMerge

/-!
No two packages of a table have the same id and name, no two types of a package, and no two variants
of a type the same qualifiers; a global string has one ordinal. Decoding builds contents of this
kind, merging and emptying keep them so, and hence every table of every session has such contents.
-/

namespace CompiledResources

open Keyed

/-- No two variants have the same qualifiers. -/
def TypeGroup.DistinctKeys (group : TypeGroup) : Prop :=
  Distinct Variant.qualifiers group.variants

/-- No two types have the same id and name, and the types are of this kind too. -/
structure Package.DistinctKeys (package : Package) : Prop where
  types : Distinct TypeGroup.key package.types
  groups : ∀ group ∈ package.types, group.DistinctKeys

/-- No two packages have the same id and name and no two strings the same ordinal, and the packages
are of this kind too. -/
structure Contents.DistinctKeys (contents : Contents) : Prop where
  packages : Distinct Package.key contents.packages
  parts : ∀ package ∈ contents.packages, package.DistinctKeys
  strings : contents.strings.keys.Nodup

/-! ### The steps that build up a model -/

theorem TypeGroup.distinctKeys_add {group : TypeGroup} (h : group.DistinctKeys)
    (qualifiers : Qualifiers) (resources : List Resource) :
    (group.add qualifiers resources).DistinctKeys := by
  apply distinct_upsert _ _ h
  · intro variant hvariant
    exact hvariant
  · rfl

theorem TypeGroup.distinctKeys_empty (id : Int) (name : Text) :
    ({ id, name } : TypeGroup).DistinctKeys :=
  List.nodup_nil

theorem Package.distinctKeys_empty (id : Int) (name : Text) :
    ({ id, name } : Package).DistinctKeys where
  types := List.nodup_nil
  groups := by simp

theorem Package.distinctKeys_declare {package : Package} (h : package.DistinctKeys) (id : Int)
    (name : Text) : (package.declare id name).DistinctKeys where
  types := by
    apply distinct_upsert _ _ h.types
    · intro group hgroup
      exact hgroup
    · rfl
  groups := forall_mem_upsert h.groups (fun group hgroup _ => h.groups group hgroup)
    (TypeGroup.distinctKeys_empty id name)

theorem Package.distinctKeys_add {package : Package} (h : package.DistinctKeys) (id : Int)
    (name : Text) (qualifiers : Qualifiers) (resources : List Resource) :
    (package.add id name qualifiers resources).DistinctKeys where
  types := by
    apply distinct_upsert _ _ h.types
    · intro group hgroup
      exact hgroup
    · rfl
  groups := forall_mem_upsert h.groups
    (fun group hgroup _ => TypeGroup.distinctKeys_add (h.groups group hgroup) qualifiers resources)
    (TypeGroup.distinctKeys_add (TypeGroup.distinctKeys_empty id name) qualifiers resources)

theorem OrderedMap.nodup_keys_put {κ υ : Type} [DecidableEq κ] {m : OrderedMap κ υ}
    (h : m.keys.Nodup) (k : κ) (v : υ) : (m.put k v).keys.Nodup := by
  rw [OrderedMap.keys_put]
  split
  next => exact h
  next hnew => exact List.nodup_append.mpr ⟨h, by simp, by
    intro known hknown new hmem heq
    obtain rfl := List.mem_singleton.mp hmem
    exact hnew (heq ▸ hknown)⟩

theorem OrderedMap.nodup_keys_putAll {κ υ : Type} [DecidableEq κ] {m : OrderedMap κ υ}
    (h : m.keys.Nodup) (pairs : List (κ × υ)) : (m.putAll pairs).keys.Nodup := by
  induction pairs generalizing m with
  | nil => exact h
  | cons pair rest ih => exact ih (OrderedMap.nodup_keys_put h pair.1 pair.2)

/-- Setting the values of several keys is merging: a key that is there keeps its place. -/
theorem OrderedMap.putAll_eq_mergeOn {κ υ : Type} [DecidableEq κ] (m : OrderedMap κ υ)
    (pairs : List (κ × υ)) :
    m.putAll pairs = mergeOn Prod.fst (fun row pair => (row.1, pair.2)) m pairs := by
  have hput (m : OrderedMap κ υ) (pair : κ × υ) :
      m.put pair.1 pair.2 = upsert Prod.fst pair.1 (fun row => (row.1, pair.2)) pair m := by
    induction m with
    | nil => rfl
    | cons row rest ih =>
      by_cases hrow : row.1 = pair.1
      · simp [put, upsert, hrow]
      · rw [put] at ih
        rw [put, upsert, upsert, if_neg hrow, if_neg hrow, ih]
  induction pairs generalizing m with
  | nil => rfl
  | cons pair rest ih =>
    rw [mergeOn_cons, ← hput, ← ih]
    rfl

/-- New keys come behind those that were there. -/
theorem OrderedMap.putAll_of_nodup {κ υ : Type} [DecidableEq κ] {m : OrderedMap κ υ}
    {pairs : List (κ × υ)} (h : ((m ++ pairs).map Prod.fst).Nodup) :
    m.putAll pairs = m ++ pairs := by
  rw [putAll_eq_mergeOn, mergeOn_of_distinct h]

/-! ### Merging and emptying -/

theorem TypeGroup.distinctKeys_merge {first : TypeGroup} (h : first.DistinctKeys)
    (second : TypeGroup) : (first.merge second).DistinctKeys := by
  apply distinct_mergeOn _ h
  intro row other
  rfl

theorem Package.distinctKeys_merge {first second : Package} (hfirst : first.DistinctKeys)
    (hsecond : second.DistinctKeys) : (first.merge second).DistinctKeys where
  types := by
    apply distinct_mergeOn _ hfirst.types
    intro row other
    rfl
  groups := forall_mem_mergeOn (fun _ other _ hrow _ => TypeGroup.distinctKeys_merge hrow other)
    hfirst.groups hsecond.groups

theorem Contents.distinctKeys_merge {first second : Contents} (hfirst : first.DistinctKeys)
    (hsecond : second.DistinctKeys) : (first.merge second).DistinctKeys where
  packages := by
    apply distinct_mergeOn _ hfirst.packages
    intro row other
    rfl
  parts := forall_mem_mergeOn (fun _ _ _ hrow hother => Package.distinctKeys_merge hrow hother)
    hfirst.parts hsecond.parts
  strings := OrderedMap.nodup_keys_putAll hfirst.strings second.strings

/-- Emptying a variant changes no key. -/
theorem Contents.distinctKeys_emptyVariant {contents : Contents} (h : contents.DistinctKeys)
    (position : TypePosition) (index : Nat) :
    (contents.emptyVariant position index).DistinctKeys := by
  refine ⟨?_, ?_, h.strings⟩
  · have hkeys : (contents.emptyVariant position index).packages.map Package.key =
        contents.packages.map Package.key := by
      apply map_key_modify
      intro package
      rfl
    rw [Distinct, hkeys]
    exact h.packages
  · refine forall_mem_modify (fun package hpackage => ⟨?_, ?_⟩) position.package h.parts
    · rw [Distinct, map_key_modify]
      · exact hpackage.types
      · intro group
        rfl
    · refine forall_mem_modify (fun group hgroup => ?_) position.type hpackage.groups
      rw [TypeGroup.DistinctKeys, Distinct, map_key_modify]
      · exact hgroup
      · intro variant
        rfl

/-! ### Decoding -/

open Decoder

theorem OpenPackage.ensures_enter (scope : PackageScope) (key : Int × Text) (state : OpenPackage)
    (chunk : Chunk) (h : state.package.DistinctKeys ∧ state.package.key = key) :
    Ensures (OpenPackage.enter scope state chunk) fun next =>
      next.package.DistinctKeys ∧ next.package.key = key := by
  rcases h with ⟨hkeys, hkey⟩
  refine .ite (.after fun spec => ?_) (.ite (.after fun header => ?_) (.pure ⟨hkeys, hkey⟩))
  · have hdeclared := Package.distinctKeys_declare hkeys spec.id (scope.typeName spec.id)
    exact .ite (.after fun _ => .pure ⟨hdeclared, hkey⟩) (.pure ⟨hdeclared, hkey⟩)
  · have hadded (resources : List Resource) := Package.distinctKeys_add hkeys header.id
      (scope.typeName header.id) header.qualifiers resources
    refine .ite (.after fun _ => ?_) ?_ <;>
      exact .after fun _ => .after fun resources => .pure ⟨hadded resources, hkey⟩

/-- What holds of a new package, and of a known one of the same id and name, holds of the package
that a package chunk adds to. -/
theorem Contents.getD_package? (contents : Contents) (id : Int) (name : Text) (p : Package → Prop)
    (hfresh : p { id, name })
    (hknown : ∀ package ∈ contents.packages, package.key = (id, name) → p package) :
    p ((contents.package? id name).getD { id, name }) := by
  cases hfind : contents.package? id name with
  | none => exact hfresh
  | some known => exact hknown known (mem_of_find? hfind) (key_of_find? hfind)

theorem OpenTable.ensures_enter (data : ByteArray) (state : OpenTable) (chunk : Chunk)
    (h : state.contents.DistinctKeys) :
    Ensures (OpenTable.enter data state chunk) fun next => next.contents.DistinctKeys := by
  refine .ite (.after fun pool => .pure ?_) (.ite ?_ (.pure h))
  · exact ⟨h.packages, h.parts, OrderedMap.nodup_keys_putAll h.strings _⟩
  · refine .after fun header => .after fun _ => .after fun typePool => .after fun keyPool => ?_
    have hstart := state.contents.getD_package? header.id header.name
      (fun package => package.DistinctKeys ∧ package.key = (↑header.id, header.name))
      ⟨Package.distinctKeys_empty _ _, rfl⟩ fun known hmem hkey => ⟨h.parts known hmem, hkey⟩
    refine .bind (Chunk.ensures_visit (OpenPackage.ensures_enter _ _) _ hstart)
      fun final hfinal => .after fun _ => .pure ⟨?_, ?_, h.strings⟩
    · exact distinct_upsert (fun _ _ => hfinal.2) hfinal.2 h.packages
    · exact forall_mem_upsert h.parts (fun _ _ _ => hfinal.1) hfinal.1

/-! ### Tables and sessions -/

theorem Contents.lasting_distinctKeys : Contents.Lasting Contents.DistinctKeys where
  start := ⟨List.nodup_nil, by simp, List.nodup_nil⟩
  enter := OpenTable.ensures_enter
  merge _ _ := Contents.distinctKeys_merge
  empty _ position index h := Contents.distinctKeys_emptyVariant h position index

/-- The contents of a table, if it has any, repeat no key. -/
def Table.DistinctKeys (table : Table) : Prop :=
  ∀ contents, table.contents? = some contents → contents.DistinctKeys

namespace Session

/-- The contents of every table of a session repeat no key. -/
def DistinctKeys (session : Session) : Prop := ∀ name, (session.table name).DistinctKeys

theorem distinctKeys_nil : DistinctKeys [] :=
  meets_nil

/-- No history of operations brings about contents that repeat a key. -/
theorem distinctKeys_performAll {session : Session} (h : session.DistinctKeys)
    (actions : List (Text × Action)) : (session.performAll actions).DistinctKeys :=
  meets_performAll Contents.lasting_distinctKeys h actions

end Session
end CompiledResources
