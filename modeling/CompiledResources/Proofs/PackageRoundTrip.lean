import CompiledResources.Proofs.PackageMerge
import CompiledResources.Proofs.PoolRoundTrip
import CompiledResources.Proofs.TypeRoundTrip

/-!
Package chunks from their bytes: a package chunk adds to the package of its id and name what its
nested chunks amount to, and passes over those of other kinds.
-/

namespace CompiledResources

open Decoder

namespace Layout

/-- A chunk has a kind of sixteen bits, other than the ones that are taken in where it stands. -/
def ForeignChunk.PassedOver (kinds : List Nat) (foreign : ForeignChunk) : Prop :=
  foreign.kind < 65536 ∧ foreign.kind ∉ kinds

instance (kinds : List Nat) (foreign : ForeignChunk) : Decidable (foreign.PassedOver kinds) :=
  inferInstanceAs (Decidable (foreign.kind < 65536 ∧ foreign.kind ∉ kinds))

/-- The kinds of the chunks that are taken in inside a package chunk. -/
def nestedKinds : List Nat := [Chunk.typeSpec, Chunk.typeEntries]

/-- The nested chunk has room for what it holds, or is passed over. The id of a type has eight bits
and is not zero. -/
def NestedPlan.Storable : NestedPlan → Prop
  | .typeSpec id _ => 0 < id ∧ id < 256
  | .entries plan => plan.Storable
  | .foreign chunk => chunk.PassedOver nestedKinds

/-- Each type chunk comes behind a type spec of its id, or its type is declared before. -/
def DeclaredFirst : List Nat → List NestedPlan → Prop
  | _, [] => True
  | declared, .typeSpec id _ :: rest => DeclaredFirst (id :: declared) rest
  | declared, .entries plan :: rest => plan.id ∈ declared ∧ DeclaredFirst declared rest
  | declared, .foreign _ :: rest => DeclaredFirst declared rest

/-- The parts of a package chunk have room for what they hold. -/
structure PackagePlan.Storable (plan : PackagePlan) : Prop where
  id : plan.id < 4294967296
  typeNames : ∀ t ∈ plan.typeNames, Poolable false t
  keyNames : ∀ t ∈ plan.keyNames, Poolable false t
  nested : ∀ nested ∈ plan.nested, nested.Storable
  declared : DeclaredFirst [] plan.nested

instance (nested : NestedPlan) : Decidable nested.Storable :=
  match nested with
  | .typeSpec id _ => inferInstanceAs (Decidable (0 < id ∧ id < 256))
  | .entries plan => inferInstanceAs (Decidable plan.Storable)
  | .foreign chunk => inferInstanceAs (Decidable (chunk.PassedOver nestedKinds))

instance decidableDeclaredFirst :
    (declared : List Nat) → (nested : List NestedPlan) → Decidable (DeclaredFirst declared nested)
  | _, [] => .isTrue trivial
  | declared, .typeSpec id _ :: rest => decidableDeclaredFirst (id :: declared) rest
  | declared, .entries plan :: rest =>
    have := decidableDeclaredFirst declared rest
    inferInstanceAs (Decidable (plan.id ∈ declared ∧ DeclaredFirst declared rest))
  | declared, .foreign _ :: rest => decidableDeclaredFirst declared rest

instance (plan : PackagePlan) : Decidable plan.Storable :=
  decidable_of_iff
    (plan.id < 4294967296 ∧ (∀ t ∈ plan.typeNames, Poolable false t) ∧
      (∀ t ∈ plan.keyNames, Poolable false t) ∧ (∀ nested ∈ plan.nested, nested.Storable) ∧
      DeclaredFirst [] plan.nested)
    ⟨fun ⟨id, typeNames, keyNames, nested, declared⟩ =>
        ⟨id, typeNames, keyNames, nested, declared⟩,
      fun h => ⟨h.id, h.typeNames, h.keyNames, h.nested, h.declared⟩⟩

/-! ### The name field -/

/-- The units of a name field. -/
def nameUnits (name : Text) : List UInt16 :=
  name.units.take PackageHeader.nameLength ++
    List.replicate (PackageHeader.nameLength - name.length) 0

theorem length_nameUnits (name : Text) : (nameUnits name).length = PackageHeader.nameLength := by
  rw [nameUnits, List.length_append, List.length_take, List.length_replicate]
  unfold Text.length
  omega

theorem nameField_eq (name : Text) :
    nameField name = (nameUnits name).flatMap fun u => number 2 u.toNat := by
  have hzeros (count : Nat) : (List.replicate count (number 2 0)).flatten =
      (List.replicate count (0 : UInt16)).flatMap fun u => number 2 u.toNat := by
    rw [List.flatMap, List.map_replicate]
    rfl
  rw [nameField, hzeros, nameUnits, List.flatMap_append]

/-- Zeros at the end do not change what stands before the first zero. -/
theorem takeWhile_append_zeros (units : List UInt16) (count : Nat) :
    (units ++ List.replicate count 0).takeWhile (· ≠ 0) = units.takeWhile (· ≠ 0) := by
  induction units with
  | nil => cases count <;> rfl
  | cons u rest ih => rw [List.cons_append, List.takeWhile_cons, List.takeWhile_cons, ih]

theorem nameOf_nameUnits (name : Text) :
    PackageHeader.nameOf ((nameUnits name).map UInt16.toNat) = keptName name := by
  have hzero : ((fun n : Nat => decide (n ≠ 0)) ∘ UInt16.toNat) = fun u => decide (u ≠ 0) := by
    funext u
    have hiff : u.toNat ≠ 0 ↔ u ≠ 0 := not_congr (UInt16.toNat_inj (b := 0))
    simp only [Function.comp_apply, hiff]
  have hback (units : List UInt16) : (units.map UInt16.toNat).map UInt16.ofNat = units := by
    rw [List.map_map]
    exact (List.map_congr_left fun u _ => UInt16.ofNat_toNat).trans (List.map_id _)
  rw [PackageHeader.nameOf, List.takeWhile_map, hzero, hback, nameUnits, takeWhile_append_zeros,
    keptName]

theorem length_nameField (name : Text) : (nameField name).length = 256 := by
  rw [nameField_eq, length_flatMap fun _ => length_number 2 _, length_nameUnits]
  rfl

end Layout

/-- The units of a name field that stands in a buffer are all read. -/
theorem PackageHeader.collect_of_holds {data : ByteArray} {offset : Int} {name : Text}
    (h : Holds data offset (Layout.nameField name)) :
    (collect nameLength fun i => Bytes.u16At data (offset + 2 * i)) =
      .ok ((Layout.nameUnits name).map UInt16.toNat) := by
  rw [Layout.nameField_eq] at h
  refine collect_eq_ok ?_ fun i hi => ?_
  · rw [List.length_map, Layout.length_nameUnits]
  · rw [List.length_map] at hi
    have hunit := Holds.item (fun _ => Layout.length_number 2 _) h hi
    rw [List.getElem_map]
    exact hunit.u16At (UInt16.toNat_lt _)

/-! ### The parts of a package chunk -/

namespace Layout.PackagePlan

variable {data : ByteArray} {chunk : Chunk} {plan : Layout.PackagePlan}

/-- The header of a package chunk that was laid out where a chunk was found. -/
def header (plan : Layout.PackagePlan) (chunk : Chunk) : PackageHeader where
  chunk := chunk
  id := plan.id
  name := keptName plan.name
  typeStrings := 288
  lastPublicType := plan.typeNames.length
  keyStrings := 288 + (stringPool false plan.typeNames).length
  lastPublicKey := plan.keyNames.length

theorem length_packageChunk (plan : Layout.PackagePlan) :
    (packageChunk plan).length = 288 + (stringPool false plan.typeNames).length +
      (stringPool false plan.keyNames).length + (plan.nested.flatMap NestedPlan.bytes).length := by
  simp only [packageChunk, Chunk.length_chunk, List.length_append, length_number,
    length_nameField]
  omega

/-- The parts of a package chunk stand one behind another. -/
theorem parts_of_holds (h : Holds data chunk.start (packageChunk plan)) (hplan : plan.Storable)
    (hsize : (packageChunk plan).length < 4294967296) :
    PackageHeader.read data chunk = .ok (plan.header chunk) ∧
      Holds data (chunk.start + 288) (stringPool false plan.typeNames) ∧
      Holds data (chunk.start + (plan.header chunk).keyStrings)
        (stringPool false plan.keyNames) ∧
      Holds data (chunk.start + (plan.header chunk).keyStrings +
        (stringPool false plan.keyNames).length) (plan.nested.flatMap NestedPlan.bytes) := by
  have htypeCount := StringPool.length_stringPool false plan.typeNames
  have hkeyCount := StringPool.length_stringPool false plan.keyNames
  rw [length_packageChunk] at hsize
  simp only [packageChunk, Layout.chunk, Holds.append_iff, List.length_append,
    length_number, length_nameField, and_assoc] at h
  obtain ⟨-, -, -, hid, hname, htypes, hlastType, hkeys, hlastKey, -, htypePool, hkeyPool,
    hnested⟩ := h
  refine ⟨?_, htypePool.at_eq (by omega), hkeyPool.at_eq (by simp only [header]; omega),
    hnested.at_eq (by simp only [header]; omega)⟩
  have hidRead : Bytes.u32At data (chunk.start + 8) = .ok plan.id := hid.u32At hplan.id
  have hunitsRead := PackageHeader.collect_of_holds hname
  have htypesRead : Bytes.u32At data (chunk.start + 268) = .ok 288 :=
    (htypes.at_eq (by omega)).u32At (by decide)
  have hlastTypeRead : Bytes.u32At data (chunk.start + 272) = .ok plan.typeNames.length :=
    (hlastType.at_eq (by omega)).u32At (by omega)
  have hkeysRead : Bytes.u32At data (chunk.start + 276) =
      .ok (288 + (stringPool false plan.typeNames).length) :=
    (hkeys.at_eq (by omega)).u32At (by omega)
  have hlastKeyRead : Bytes.u32At data (chunk.start + 280) = .ok plan.keyNames.length :=
    (hlastKey.at_eq (by omega)).u32At (by omega)
  have hplace : chunk.start + (2 + 2 + 4 : Nat) + (4 : Nat) = chunk.start + 12 := by omega
  rw [hplace] at hunitsRead
  simp only [PackageHeader.read, hidRead, hunitsRead, htypesRead, hlastTypeRead, hkeysRead,
    hlastKeyRead, bind, Except.bind, nameOf_nameUnits]
  rfl

end Layout.PackagePlan

/-! ### Nested chunks -/

/-- What a package becomes with a nested chunk of a package chunk. -/
def Layout.NestedPlan.addTo (strings : List Text) (plan : Layout.PackagePlan) (package : Package) :
    Layout.NestedPlan → Package
  | .typeSpec id _ => package.declare id (plan.typeName id)
  | .entries group =>
    package.add group.id (plan.typeName group.id) group.qualifiers
      (plan.variant strings group).resources
  | .foreign _ => package

/-- The package that a package chunk makes on its own. -/
def Layout.PackagePlan.package (strings : List Text) (plan : Layout.PackagePlan) : Package :=
  plan.nested.foldl (Layout.NestedPlan.addTo strings plan) { id := plan.id, name := plan.name }

/-- A type spec that stands where a chunk was found declares its type. -/
theorem OpenPackage.yields_declare {data : ByteArray} {strings : OrderedMap Int Text}
    {chunk : Chunk} (package : Layout.PackagePlan) {id entryCount : Nat}
    (h : Holds data chunk.start (Layout.typeSpec id entryCount)) (hid : 0 < id ∧ id < 256)
    (state : OpenPackage) :
    Yields (OpenPackage.declare (package.scope data strings) state chunk) {
      package := state.package.declare id (package.typeName id)
      declared := id :: state.declared } := by
  simp only [Layout.typeSpec, Layout.chunk, Holds.append_iff, List.length_append,
    Layout.length_number, and_assoc] at h
  rcases h with ⟨-, -, -, hidPlace, hreserved, htypes, hcount, -⟩
  have hidRead : Bytes.u8At data (chunk.start + 8) = .ok id := hidPlace.u8At hid.2
  have hreservedRead : Bytes.u8At data (chunk.start + 9) = .ok 0 :=
    (hreserved.at_eq (by omega)).u8At (by decide)
  have htypesRead : Bytes.u16At data (chunk.start + 10) = .ok 0 :=
    (htypes.at_eq (by omega)).u16At (by decide)
  have hcountRead : Bytes.u32At data (chunk.start + 12) = .ok (entryCount % Bytes.capacity 4) :=
    (hcount.at_eq (by omega)).numberAt
  have hids : decide (id = 0) = false := decide_eq_false (by omega)
  let spec : TypeSpec := {
    chunk, id, reserved := 0, typesCount := 0, entryCount := entryCount % Bytes.capacity 4 }
  have hread : TypeSpec.read (package.scope data strings).data chunk = pure spec := by
    simp only [TypeSpec.read, Layout.PackagePlan.scope, hidRead, hreservedRead, htypesRead,
      hcountRead, liftM_eq_ofExcept, ofExcept_ok, pure_bind, check, hids, Bool.false_eq_true,
      if_false]
    rfl
  simp only [OpenPackage.declare, hread, pure_bind, PackageScope.typeName_scope]
  split
  · exact .bind (.note _) (.pure _)
  · exact .pure _

section

variable {data : ByteArray} {strings : OrderedMap Int Text} {texts : List Text}

/-- A nested chunk is found where it stands, and does to the package what its plan amounts to. -/
theorem OpenPackage.yields_enter (hstrings : Numbered strings texts)
    (package : Layout.PackagePlan) {offset : Int} {nested : Layout.NestedPlan}
    {rest : List Layout.NestedPlan} (h : Holds data offset nested.bytes)
    (hsize : nested.bytes.length < 4294967296) (state : OpenPackage)
    (hids : ∀ id ∈ state.declared, 0 < id ∧ id < 256) (hnested : nested.Storable)
    (hfirst : Layout.DeclaredFirst state.declared (nested :: rest)) :
    ∃ chunk next, Chunk.readAt data offset = .ok chunk ∧ chunk.size = nested.bytes.length ∧
      Yields (OpenPackage.enter (package.scope data strings) state chunk) next ∧
      next.package = nested.kept.addTo texts package state.package ∧
      (∀ id ∈ next.declared, 0 < id ∧ id < 256) ∧ Layout.DeclaredFirst next.declared rest := by
  cases nested with
  | typeSpec id entryCount =>
    obtain ⟨chunk, hread, rfl, hkind, -, hlength⟩ := Chunk.readAt_of_holds h (by decide) hsize
    let next : OpenPackage := {
      package := state.package.declare id (package.typeName id), declared := id :: state.declared }
    have hdeclare : Yields (OpenPackage.declare (package.scope data strings) state chunk) next :=
      OpenPackage.yields_declare package h hnested state
    refine ⟨chunk, next, hread, hlength, ?_, rfl, List.forall_mem_cons.mpr ⟨hnested, hids⟩,
      hfirst⟩
    rw [OpenPackage.enter, if_pos hkind]
    exact hdeclare
  | entries plan =>
    rcases hfirst with ⟨hdeclared, hrest⟩
    obtain ⟨chunk, hread, rfl, hkind, -, hlength⟩ := Chunk.readAt_of_holds h (by decide) hsize
    have hfill := OpenPackage.yields_fill hstrings package h hnested (hids plan.id hdeclared) hsize
      state hdeclared
    have hspec : chunk.kind ≠ Chunk.typeSpec := by
      rw [hkind]
      decide
    refine ⟨chunk, { state with package := _ }, hread, hlength, ?_, rfl, hids, hrest⟩
    rw [OpenPackage.enter, if_neg hspec, if_pos hkind]
    exact hfill
  | foreign foreign =>
    rcases hnested with ⟨hbound, hkinds⟩
    obtain ⟨chunk, hread, rfl, hkind, -, hlength⟩ := Chunk.readAt_of_holds h hbound hsize
    rw [← hkind] at hkinds
    have hspec : chunk.kind ≠ Chunk.typeSpec := List.ne_of_not_mem_cons hkinds
    have hentries : chunk.kind ≠ Chunk.typeEntries :=
      List.ne_of_not_mem_cons (List.not_mem_of_not_mem_cons hkinds)
    refine ⟨chunk, state, hread, hlength, ?_, rfl, hids, hfirst⟩
    rw [OpenPackage.enter, if_neg hspec, if_neg hentries]
    exact .pure state

theorem Layout.NestedPlan.length_bytes (nested : Layout.NestedPlan) : 8 ≤ nested.bytes.length := by
  cases nested <;>
    simp only [bytes, Layout.typeSpec, typeChunk, ForeignChunk.bytes, Chunk.length_chunk] <;> omega

/-- A walk over nested chunks does to the package what their plans amount to one after another. -/
theorem OpenPackage.yields_visit (hstrings : Numbered strings texts)
    (package : Layout.PackagePlan) {nested : List Layout.NestedPlan} {offset limit : Int}
    (h : Holds data offset (nested.flatMap Layout.NestedPlan.bytes))
    (hlimit : offset + (nested.flatMap Layout.NestedPlan.bytes).length = limit)
    (hsize : (nested.flatMap Layout.NestedPlan.bytes).length < 4294967296) (state : OpenPackage)
    (hids : ∀ id ∈ state.declared, 0 < id ∧ id < 256)
    (hnested : ∀ inner ∈ nested, inner.Storable)
    (hfirst : Layout.DeclaredFirst state.declared nested) :
    ∃ final, Yields ((Chunk.walk data 1 limit offset).visit
        (OpenPackage.enter (package.scope data strings)) state) final ∧
      final.package =
        (nested.map Layout.NestedPlan.kept).foldl (Layout.NestedPlan.addTo texts package)
          state.package := by
  induction nested generalizing offset state with
  | nil =>
    refine ⟨state, ?_, rfl⟩
    rw [Chunk.visit_walk_of_lt (by simp only [List.flatMap_nil, List.length_nil] at hlimit; omega)]
    exact .pure state
  | cons nested rest ih =>
    have hlength := nested.length_bytes
    rw [List.forall_mem_cons] at hnested
    rw [List.flatMap_cons, List.length_append] at hlimit hsize
    rw [List.flatMap_cons, Holds.append_iff] at h
    obtain ⟨chunk, next, hread, hchunk, henter, hpackage, hnextIds, hrest⟩ :=
      OpenPackage.yields_enter hstrings package h.1 (by omega) state hids hnested.1 hfirst
    obtain ⟨final, hvisit, hfinal⟩ := ih h.2 (by omega) (by omega) next hnextIds hnested.2 hrest
    refine ⟨final, ?_, ?_⟩
    · rw [Chunk.visit_walk_of_readAt (by omega) hread, hchunk]
      exact .bind henter hvisit
    · rw [hfinal, hpackage, List.map_cons, List.foldl_cons]

/-- A package chunk makes on its own the package that is kept of its plan. -/
theorem Chunk.packagesAlone_of_holds (hstrings : Numbered strings texts)
    {package : Layout.PackagePlan} {chunk : Chunk}
    (h : Holds data chunk.start (Layout.packageChunk package)) (hpackage : package.Storable)
    (hchunk : chunk.size = (Layout.packageChunk package).length)
    (hsize : (Layout.packageChunk package).length < 4294967296) (policy : Policy) :
    chunk.packagesAlone data policy strings = .ok [package.kept.package texts] := by
  obtain ⟨hheader, htypePool, hkeyPool, hnested⟩ :=
    Layout.PackagePlan.parts_of_holds h hpackage hsize
  rw [Layout.PackagePlan.length_packageChunk] at hchunk hsize
  obtain ⟨typePool, htypes, htypeStrings, -⟩ := StringPool.readAt_of_holds htypePool (by omega)
    hpackage.typeNames "package type strings"
  obtain ⟨keyPool, hkeys, hkeyStrings, hkeyStop⟩ := StringPool.readAt_of_holds hkeyPool (by omega)
    hpackage.keyNames "package key strings"
  have hstop : chunk.start + (package.header chunk).keyStrings +
      (Layout.stringPool false package.keyNames).length +
      (package.nested.flatMap Layout.NestedPlan.bytes).length = chunk.stop := by
    simp only [Layout.PackagePlan.header, Chunk.stop]
    omega
  let start : OpenPackage := { package := { id := package.kept.id, name := package.kept.name } }
  obtain ⟨final, hvisit, hfinal⟩ := OpenPackage.yields_visit hstrings package.kept hnested hstop
    (by omega) start (by simp [start]) hpackage.nested hpackage.declared
  have hadd : Yields (OpenTable.addPackage data { contents := { strings } } chunk) {
      contents := { packages := [final.package], strings }, packageChunks := 1 } := by
    have htypesRead : StringPool.readAt data (chunk.start + (package.header chunk).typeStrings)
        "package type strings" = .ok typePool := htypes
    simp only [OpenTable.addPackage, hheader, htypesRead, hkeys, hkeyStop, htypeStrings,
      hkeyStrings, liftM_eq_ofExcept, ofExcept_ok, pure_bind]
    refine .bind (.note _) (.bind hvisit (.bind (.forM (fun _ => .note _) _) ?_))
    exact .pure _
  rw [Chunk.packagesAlone, hadd policy, hfinal]
  rfl

/-- A package chunk merges the package that is kept of its plan into the packages of a table. -/
theorem OpenTable.yields_addPackage {package : Layout.PackagePlan} {chunk : Chunk}
    (h : Holds data chunk.start (Layout.packageChunk package)) (hpackage : package.Storable)
    (hchunk : chunk.size = (Layout.packageChunk package).length)
    (hsize : (Layout.packageChunk package).length < 4294967296) (state : OpenTable)
    (hstrings : Numbered state.contents.strings texts) :
    Yields (OpenTable.addPackage data state chunk) {
      contents := { state.contents with
        packages := Package.mergeAll state.contents.packages [package.kept.package texts] }
      packageChunks := state.packageChunks + 1 } := by
  intro policy journal
  rw [OpenTable.outcome_addPackage,
    Chunk.packagesAlone_of_holds hstrings h hpackage hchunk hsize policy]
  rfl

end

end CompiledResources
