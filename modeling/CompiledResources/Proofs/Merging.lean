import CompiledResources.Proofs.DistinctKeys
import CompiledResources.Proofs.TableRoundTrip

/-!
What merging two tables amounts to. Level by level, parts with the same key are joined in the place
of the first, all other parts of the second table come behind, and every stored resource stays in
its package, type and variant. Merging a table with itself doubles its lists of resources.
-/

namespace CompiledResources

open Keyed

/-! ### Parts joined level by level -/

/-- A variant with the resources of another one behind its own. -/
def Variant.joined (first second : Variant) : Variant :=
  { first with resources := first.resources ++ second.resources }

/-- The variants of a type joined to those of another, and the new ones behind. -/
def TypeGroup.joined (first second : TypeGroup) : TypeGroup :=
  { first with
    variants := Keyed.joined Variant.qualifiers Variant.joined first.variants second.variants }

/-- The types of a package joined to those of another, and the new ones behind. -/
def Package.joined (first second : Package) : Package :=
  { first with types := Keyed.joined TypeGroup.key TypeGroup.joined first.types second.types }

theorem Variant.merge_eq_joined (first second : Variant) :
    first.merge second = first.joined second := rfl

theorem TypeGroup.merge_eq_joined {first second : TypeGroup} (hfirst : first.DistinctKeys)
    (hsecond : second.DistinctKeys) : first.merge second = first.joined second := by
  have hvariants : mergeOn Variant.qualifiers Variant.merge first.variants second.variants =
      Keyed.joined Variant.qualifiers Variant.merge first.variants second.variants := by
    apply mergeOn_eq_joined _ hfirst hsecond
    intro row other
    rfl
  have hrows : Keyed.joined Variant.qualifiers Variant.merge first.variants second.variants =
      Keyed.joined Variant.qualifiers Variant.joined first.variants second.variants :=
    joined_congr fun variant _ other _ => Variant.merge_eq_joined variant other
  rw [TypeGroup.merge, hvariants, hrows]
  rfl

theorem Package.merge_eq_joined {first second : Package} (hfirst : first.DistinctKeys)
    (hsecond : second.DistinctKeys) : first.merge second = first.joined second := by
  have htypes : mergeOn TypeGroup.key TypeGroup.merge first.types second.types =
      Keyed.joined TypeGroup.key TypeGroup.merge first.types second.types := by
    apply mergeOn_eq_joined _ hfirst.types hsecond.types
    intro row other
    rfl
  have hgroups : Keyed.joined TypeGroup.key TypeGroup.merge first.types second.types =
      Keyed.joined TypeGroup.key TypeGroup.joined first.types second.types :=
    joined_congr fun group hgroup other hother =>
      TypeGroup.merge_eq_joined (hfirst.groups group hgroup) (hsecond.groups other hother)
  rw [Package.merge, htypes, hgroups]
  rfl

theorem Package.mergeAll_eq_joined {first second : Contents} (hfirst : first.DistinctKeys)
    (hsecond : second.DistinctKeys) :
    Package.mergeAll first.packages second.packages =
      Keyed.joined Package.key Package.joined first.packages second.packages := by
  have hpackages : mergeOn Package.key Package.merge first.packages second.packages =
      Keyed.joined Package.key Package.merge first.packages second.packages := by
    apply mergeOn_eq_joined _ hfirst.packages hsecond.packages
    intro row other
    rfl
  rw [Package.mergeAll, hpackages]
  exact joined_congr fun package hpackage other hother =>
    Package.merge_eq_joined (hfirst.parts package hpackage) (hsecond.parts other hother)

/-! ### Where resources are stored -/

/-- A stored resource with what its package, its type and its variant are known by. -/
structure Placed where
  package : Int × Text
  type : Int × Text
  qualifiers : Qualifiers
  resource : Resource

/-- The resources of a variant, where they are stored. -/
def Variant.placed (package type : Int × Text) (variant : Variant) : List Placed :=
  variant.resources.map fun resource => ⟨package, type, variant.qualifiers, resource⟩

/-- The resources of a type, where they are stored. -/
def TypeGroup.placed (package : Int × Text) (group : TypeGroup) : List Placed :=
  group.variants.flatMap (Variant.placed package group.key)

/-- The resources of a package, where they are stored. -/
def Package.placed (package : Package) : List Placed :=
  package.types.flatMap (TypeGroup.placed package.key)

/-- All resources of a table, where they are stored. -/
def Contents.placed (contents : Contents) : List Placed :=
  contents.packages.flatMap Package.placed

theorem Variant.placed_merge (package type : Int × Text) (first second : Variant)
    (hkey : first.qualifiers = second.qualifiers) :
    (Variant.merge first second).placed package type =
      first.placed package type ++ second.placed package type := by
  simp [Variant.placed, Variant.merge, hkey]

theorem TypeGroup.placed_merge (package : Int × Text) (first second : TypeGroup)
    (hkey : first.key = second.key) :
    ((first.merge second).placed package).Perm
      (first.placed package ++ second.placed package) := by
  have hmerged : (first.merge second).placed package =
      (mergeOn Variant.qualifiers Variant.merge first.variants second.variants).flatMap
        (Variant.placed package first.key) := rfl
  rw [hmerged, TypeGroup.placed, TypeGroup.placed, ← hkey]
  exact mergeOn_flatMap_perm fun variant other hqualifiers =>
    .of_eq (Variant.placed_merge package first.key variant other hqualifiers)

theorem Package.placed_merge (first second : Package) (hkey : first.key = second.key) :
    (first.merge second).placed.Perm (first.placed ++ second.placed) := by
  have hmerged : (first.merge second).placed =
      (mergeOn TypeGroup.key TypeGroup.merge first.types second.types).flatMap
        (TypeGroup.placed first.key) := rfl
  rw [hmerged, Package.placed, Package.placed, ← hkey]
  exact mergeOn_flatMap_perm (TypeGroup.placed_merge first.key)

/-- No resource is lost, doubled or moved. -/
theorem Contents.placed_merge (first second : Contents) :
    (first.merge second).placed.Perm (first.placed ++ second.placed) :=
  mergeOn_flatMap_perm Package.placed_merge

/-! ### Strings -/

namespace OrderedMap

variable {κ υ : Type} [DecidableEq κ]

/-- Of two maps, the second one has the say on the keys that it has. -/
theorem get?_putAll {pairs : OrderedMap κ υ} (hpairs : pairs.keys.Nodup) (m : OrderedMap κ υ)
    (k : κ) : (m.putAll pairs).get? k = (pairs.get? k).or (m.get? k) := by
  induction pairs generalizing m with
  | nil => rfl
  | cons pair rest ih =>
    obtain ⟨hpair, hrest⟩ := List.nodup_cons.mp hpairs
    have hstep : (m.putAll (pair :: rest)).get? k =
        (get? rest k).or ((m.put pair.1 pair.2).get? k) := ih hrest (m.put pair.1 pair.2)
    rw [hstep]
    by_cases hk : pair.1 = k
    · subst hk
      have hnone : get? rest pair.1 = none := by
        rw [get?, find?_eq_none_iff.mpr hpair, Option.map_none]
      rw [hnone, get?_put_self, get?, find?_cons_self]
      rfl
    · rw [get?_put_of_ne m (Ne.symm hk), get?, get?, get?, find?_cons_of_ne hk]

/-- Setting a key to the value that it has changes nothing. -/
theorem put_of_mem {m : OrderedMap κ υ} (hm : m.keys.Nodup) {pair : κ × υ} (hpair : pair ∈ m) :
    m.put pair.1 pair.2 = m := by
  have hfind : find? Prod.fst pair.1 m = some pair := find?_of_mem hm hpair
  have hsame : m.put pair.1 pair.2 = upsert Prod.fst pair.1 (fun row => row) pair m :=
    upsert_congr hfind rfl
  have hmem : pair.1 ∈ m.map Prod.fst := List.mem_map_of_mem hpair
  rw [hsame, upsert_of_mem hm hmem]
  simp

theorem putAll_of_subset {m : OrderedMap κ υ} (hm : m.keys.Nodup) {pairs : List (κ × υ)}
    (hpairs : ∀ pair ∈ pairs, pair ∈ m) : m.putAll pairs = m := by
  induction pairs with
  | nil => rfl
  | cons pair rest ih =>
    rw [List.forall_mem_cons] at hpairs
    have hput : m.putAll (pair :: rest) = (m.put pair.1 pair.2).putAll rest := rfl
    rw [hput, put_of_mem hm hpairs.1, ih hpairs.2]

theorem putAll_self {m : OrderedMap κ υ} (hm : m.keys.Nodup) : m.putAll m = m :=
  putAll_of_subset hm fun _ hpair => hpair

end OrderedMap

/-! ### A table merged with itself -/

/-- The variant with its list of resources twice. -/
def Variant.doubled (variant : Variant) : Variant :=
  { variant with resources := variant.resources ++ variant.resources }

/-- The type with every list of resources twice. -/
def TypeGroup.doubled (group : TypeGroup) : TypeGroup :=
  { group with variants := group.variants.map Variant.doubled }

/-- The package with every list of resources twice. -/
def Package.doubled (package : Package) : Package :=
  { package with types := package.types.map TypeGroup.doubled }

/-- The contents with every list of resources twice. -/
def Contents.doubled (contents : Contents) : Contents :=
  { contents with packages := contents.packages.map Package.doubled }

theorem TypeGroup.merge_self {group : TypeGroup} (h : group.DistinctKeys) :
    group.merge group = group.doubled := by
  have hvariants : mergeOn Variant.qualifiers Variant.merge group.variants group.variants =
      group.variants.map fun variant => variant.merge variant := by
    apply mergeOn_self _ h
    intro row other
    rfl
  rw [TypeGroup.merge, hvariants]
  rfl

theorem Package.merge_self {package : Package} (h : package.DistinctKeys) :
    package.merge package = package.doubled := by
  have htypes : mergeOn TypeGroup.key TypeGroup.merge package.types package.types =
      package.types.map fun group => group.merge group := by
    apply mergeOn_self _ h.types
    intro row other
    rfl
  have hgroups : package.types.map (fun group => group.merge group) =
      package.types.map TypeGroup.doubled :=
    List.map_congr_left fun group hgroup => TypeGroup.merge_self (h.groups group hgroup)
  rw [Package.merge, htypes, hgroups]
  rfl

/-- Merging a table with itself doubles every list of resources and changes nothing else. -/
theorem Contents.merge_self {contents : Contents} (h : contents.DistinctKeys) :
    contents.merge contents = contents.doubled := by
  have hall : mergeOn Package.key Package.merge contents.packages contents.packages =
      contents.packages.map fun package => package.merge package := by
    apply mergeOn_self _ h.packages
    intro row other
    rfl
  have hpackages : contents.packages.map (fun package => package.merge package) =
      contents.packages.map Package.doubled :=
    List.map_congr_left fun package hpackage => Package.merge_self (h.parts package hpackage)
  rw [Contents.merge, Package.mergeAll, hall, hpackages, OrderedMap.putAll_self h.strings]
  rfl

/-! ### Tables of a session -/

/-- A table that is created from the bytes of a plan has the contents of the plan. -/
theorem Session.perform_createFrom {plan : Layout.TablePlan} (hplan : plan.Storable)
    (session : Session) (name : Text) (policy : Policy) :
    (session.perform name (.createFrom policy (.bytes ⟨plan.bytes.toArray⟩))).2 =
      session.put name ⟨policy, some plan.kept.contents⟩ := by
  obtain ⟨after, hrun⟩ := Contents.exists_run_decode hplan policy
  have hnext : (session.next name (.createFrom policy (.bytes ⟨plan.bytes.toArray⟩))).result =
      .ok ⟨policy, some plan.kept.contents⟩ := by
    change (Table.parse { policy } ⟨plan.bytes.toArray⟩).result = _
    simp only [Table.parse, Table.isReady, Option.isSome_none, Bool.false_eq_true, if_false, hrun]
  rw [perform, hnext]

/-- Merging one ready table of a session into another. However the session came about, the packages
are joined level by level and the strings of the merged table win. Every stored resource of both
stays in its package, type and variant; a table merged with itself has its resources twice and is
else as it was; and no other table changes. -/
theorem Session.perform_merge (actions : List (Text × Action)) (name other : Text)
    {first second : Contents}
    (hfirst : ((performAll [] actions).table name).contents? = some first)
    (hsecond : ((performAll [] actions).table other).contents? = some second) :
    let session := performAll [] actions
    let after := session.perform name (.merge other)
    ∃ merged : Contents,
      after.1.result = .ok () ∧
      after.2.table name = { session.table name with contents? := some merged } ∧
      merged.packages =
        Keyed.joined Package.key Package.joined first.packages second.packages ∧
      (∀ ordinal, merged.strings.get? ordinal =
        (second.strings.get? ordinal).or (first.strings.get? ordinal)) ∧
      merged.placed.Perm (first.placed ++ second.placed) ∧
      (other = name → merged = first.doubled) ∧
      ∀ third, third ≠ name → after.2.table third = session.table third := by
  intro session after
  have hkeys : session.DistinctKeys := distinctKeys_performAll distinctKeys_nil actions
  have hfirstKeys : first.DistinctKeys := hkeys name first hfirst
  have hsecondKeys : second.DistinctKeys := hkeys other second hsecond
  have hnext : (session.next name (.merge other)).result =
      .ok { session.table name with contents? := some (first.merge second) } := by
    change (session.table name).merge (session.table other) = _
    rw [Table.merge, hfirst, hsecond]
  have hafter : after = ({ result := .ok () }, session.put name
      { session.table name with contents? := some (first.merge second) }) := by
    change session.perform name (.merge other) = _
    rw [perform, hnext]
    rfl
  refine ⟨first.merge second, ?_, ?_, ?_, ?_, ?_, ?_, ?_⟩
  · rw [hafter]
  · rw [hafter, table_put_self]
  · exact Package.mergeAll_eq_joined hfirstKeys hsecondKeys
  · exact OrderedMap.get?_putAll hsecondKeys.strings first.strings
  · exact Contents.placed_merge first second
  · rintro rfl
    obtain rfl : first = second := Option.some.inj (hfirst.symm.trans hsecond)
    exact Contents.merge_self hfirstKeys
  · intro third hthird
    rw [hafter, table_put_of_ne session hthird]

/-- A table of one package with one string, by default and in a language. -/
def Layout.TablePlan.greeting (language text : Text) : Layout.TablePlan :=
  let entries : List Layout.EntryPlan := [{ number := 0, key := 0, body := .simple ⟨3, 0⟩ }]
  let package : Layout.PackagePlan := {
    id := 127, name := "app", typeNames := ["string"], keyNames := ["hello"]
    nested := [
      .typeSpec 1 1, .entries { id := 1, slots := 1, entries },
      .entries { id := 1, qualifiers := { size := 36, language }, slots := 1, entries }] }
  { strings := [text], chunks := [.package package] }

/-- The languages of the variants of a table, each with its strings. -/
def Contents.greetings (contents : Contents) : List (Text × List Text) :=
  let string? (resource : Resource) : Option Text :=
    match resource.value with
    | .string text => text
    | _ => none
  contents.packages.flatMap fun package => package.types.flatMap fun group =>
    group.variants.map fun variant =>
      (variant.qualifiers.language, variant.resources.filterMap string?)

theorem Session.perform_merge_greetings :
    let parsed (plan : Layout.TablePlan) : Action :=
      .createFrom .strict (.bytes ⟨plan.bytes.toArray⟩)
    let session := performAll []
      [("en", parsed (.greeting "en" "hello")), ("fr", parsed (.greeting "fr" "salut"))]
    let greetings : List (Text × List Text) :=
      [("", ["hello", "salut"]), ("en", ["hello"]), ("fr", ["salut"])]
    ∃ first second merged,
      (session.table "en").contents? = some first ∧
      (session.table "fr").contents? = some second ∧
      ((session.perform "en" (.merge "fr")).2.table "en").contents? = some merged ∧
      merged.packages =
        Keyed.joined Package.key Package.joined first.packages second.packages ∧
      merged.placed.Perm (first.placed ++ second.placed) ∧
      merged.greetings = greetings := by
  intro parsed session greetings
  let hello : Layout.TablePlan := .greeting "en" "hello"
  let salut : Layout.TablePlan := .greeting "fr" "salut"
  have hhello : hello.Storable := by decide +kernel
  have hsalut : salut.Storable := by decide +kernel
  let both : Session := [("en", ⟨.strict, some hello.kept.contents⟩),
    ("fr", ⟨.strict, some salut.kept.contents⟩)]
  have hsession : session = both := by
    change performAll [] _ = both
    rw [performAll, List.foldl_cons, perform_createFrom hhello, List.foldl_cons,
      perform_createFrom hsalut]
    rfl
  have hfirst : (session.table "en").contents? = some hello.kept.contents := by
    rw [hsession]
    rfl
  have hsecond : (session.table "fr").contents? = some salut.kept.contents := by
    rw [hsession]
    rfl
  obtain ⟨merged, _, htable, hpackages, _, hplaced, _, _⟩ :=
    Session.perform_merge _ "en" "fr" hfirst hsecond
  have hgreetings : merged.greetings = greetings := by
    rw [Contents.greetings, hpackages]
    decide +kernel
  exact ⟨_, _, merged, hfirst, hsecond, by rw [htable], hpackages, hplaced, hgreetings⟩

end CompiledResources
