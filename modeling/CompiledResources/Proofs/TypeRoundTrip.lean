import CompiledResources.Proofs.EntryRoundTrip
import CompiledResources.Proofs.QualifiersRoundTrip

/-!
Type chunks from their bytes: the index table of a type chunk leads to the entries of its plan,
dense or sparse, and the type chunk adds their resources to its type.
-/

namespace CompiledResources

open Decoder

namespace Layout

/-! ### Where the entries are -/

/-- What all pieces have a multiple of, all starts of pieces have too. -/
theorem dvd_starts {d : Nat} {pieces : List (List UInt8)}
    (hpieces : ∀ piece ∈ pieces, d ∣ piece.length) {start : Nat} (hstart : d ∣ start) :
    ∀ place ∈ starts start pieces, d ∣ place := by
  induction pieces generalizing start with
  | nil => simp [starts]
  | cons piece rest ih =>
    rw [List.forall_mem_cons] at hpieces
    rw [starts, List.forall_mem_cons]
    exact ⟨hstart, ih hpieces.2 (Nat.dvd_add hstart hpieces.1)⟩

theorem dvd_length_entry (plan : EntryPlan) : 4 ∣ (entry plan).length := by
  unfold entry
  split
  · simp only [List.length_append, length_number, length_value]
    omega
  · simp only [List.length_append, length_number, length_flatMap length_record]
    omega

namespace TypePlan

variable {plan : TypePlan}

theorem map_fst_located (plan : TypePlan) : plan.located.map Prod.fst = plan.entries := by
  have hlength : (starts 0 plan.stored).length = plan.entries.length := by
    rw [length_starts, stored, List.length_map]
  exact List.map_fst_zip (Nat.le_of_eq hlength.symm)

theorem dvd_of_mem_located {found : EntryPlan × Nat} (hfound : found ∈ plan.located) :
    4 ∣ found.2 := by
  have hplace : found.2 ∈ starts 0 plan.stored := (List.of_mem_zip hfound).2
  refine dvd_starts (fun piece hpiece => ?_) (Nat.dvd_zero 4) found.2 hplace
  obtain ⟨entry, _, rfl⟩ := List.mem_map.mp hpiece
  exact dvd_length_entry entry

/-- Where the stored entries stand, each of them stands where it starts. -/
theorem holds_of_mem_located {data : ByteArray} {base : Int}
    (h : Holds data base plan.stored.flatten) {found : EntryPlan × Nat}
    (hfound : found ∈ plan.located) :
    found.2 + (entry found.1).length ≤ plan.stored.flatten.length ∧
      Holds data (base + found.2) (entry found.1) := by
  obtain ⟨i, hi, rfl⟩ := List.mem_iff_getElem.mp hfound
  have hentries : i < plan.entries.length := by
    rw [located, List.length_zip] at hi
    omega
  have hstored : i < plan.stored.length := by rwa [stored, List.length_map]
  obtain ⟨place, hplace, -, hend, hpiece⟩ := h.piece 0 hstored
  obtain ⟨hstart, hget⟩ := List.getElem?_eq_some_iff.mp hplace
  have hlocated : plan.located[i] = (plan.entries[i], place) := by
    simp only [located, List.getElem_zip, hget]
  have hentry : plan.stored[i] = entry plan.entries[i] := List.getElem_map _
  rw [hlocated, ← hentry]
  exact ⟨by omega, hpiece⟩

theorem locate?_eq_some {number : Nat} {found : EntryPlan × Nat}
    (h : plan.locate? number = some found) :
    found ∈ plan.located ∧ found.1.number = number := by
  refine ⟨List.mem_reverse.mp (List.mem_of_find?_eq_some h), ?_⟩
  simpa using List.find?_some h

theorem exists_locate?_of_mem {entry : EntryPlan} (hentry : entry ∈ plan.entries) :
    ∃ found, plan.locate? entry.number = some found := by
  rw [← map_fst_located plan] at hentry
  obtain ⟨found, hfound, rfl⟩ := List.mem_map.mp hentry
  rw [← Option.isSome_iff_exists, locate?, List.find?_isSome]
  exact ⟨found, List.mem_reverse.mpr hfound, by simp⟩

/-- A number is looked up in the index table as the last entry of that number. -/
theorem lookup_places (plan : TypePlan) (number : Nat) :
    plan.places.lookup number = (plan.locate? number).map Prod.snd := by
  have hlookup (f : Nat → Nat) (entries : List EntryPlan) :
      (entries.map fun entry => (entry.number, f entry.number)).lookup number =
        if number ∈ entries.map EntryPlan.number then some (f number) else none := by
    induction entries with
    | nil => rfl
    | cons entry rest ih =>
      by_cases hentry : number = entry.number
      · simp [hentry]
      · have hne : (number == entry.number) = false := by simpa using hentry
        simp only [List.map_cons, List.lookup_cons, hne, ih, List.mem_cons, hentry, false_or]
  rw [places, hlookup fun number => ((plan.locate? number).map Prod.snd).getD 0]
  cases hfound : plan.locate? number with
  | some found =>
    obtain ⟨hmem, rfl⟩ := locate?_eq_some hfound
    have hentry : found.1 ∈ plan.entries := (List.of_mem_zip hmem).1
    rw [if_pos (List.mem_map_of_mem hentry)]
    rfl
  | none =>
    rw [if_neg]
    · rfl
    · intro hnumber
      obtain ⟨entry, hentry, rfl⟩ := List.mem_map.mp hnumber
      obtain ⟨found, hsome⟩ := exists_locate?_of_mem hentry
      rw [hfound] at hsome
      cases hsome

/-- The entries that the index table refers to, with where they start. -/
def referenced (plan : TypePlan) : List (EntryPlan × Nat) := plan.numbers.filterMap plan.locate?

theorem map_fst_referenced (plan : TypePlan) : plan.referenced.map Prod.fst = plan.ordered := by
  rw [referenced, List.map_filterMap, ordered]

theorem mem_located_of_mem_referenced {found : EntryPlan × Nat}
    (hfound : found ∈ plan.referenced) : found ∈ plan.located := by
  obtain ⟨number, -, hlocate⟩ := List.mem_filterMap.mp hfound
  exact (locate?_eq_some hlocate).1

/-- The place that the index table gives for an entry. A pair of a sparse table has sixteen bits
for the number. -/
def place (plan : TypePlan) (base : Int) (found : EntryPlan × Nat) : EntryPlace where
  entry := if plan.sparse then found.1.number % 65536 else found.1.number
  offset := base + found.2

theorem place_entry_emod (plan : TypePlan) (base : Int) (found : EntryPlan × Nat) :
    ((plan.place base found).entry : Int) % 0x10000 = (found.1.number : Int) % 0x10000 := by
  simp only [place]
  split <;> omega

end TypePlan

/-- The parts of a type chunk have room for what they hold: its qualifiers and entries do, and in a
sparse index table the entries start within reach of sixteen bits. -/
structure TypePlan.Storable (plan : TypePlan) : Prop where
  qualifiers : Recordable plan.qualifiers
  entries : ∀ entry ∈ plan.entries, entry.Storable
  sparse : plan.sparse = true → ∀ found ∈ plan.located, found.2 < 4 * 65536

instance (plan : TypePlan) : Decidable plan.Storable :=
  decidable_of_iff
    (Recordable plan.qualifiers ∧ (∀ entry ∈ plan.entries, entry.Storable) ∧
      (plan.sparse = true → ∀ found ∈ plan.located, found.2 < 4 * 65536))
    ⟨fun h => ⟨h.1, h.2.1, h.2.2⟩, fun h => ⟨h.qualifiers, h.entries, h.sparse⟩⟩

end Layout

/-! ### The index table -/

namespace EntryPlace

variable {data : ByteArray} {base index : Int} {plan : Layout.TypePlan}

theorem denseSlot_of_holds
    (h : Holds data index (Layout.denseIndex plan.slots plan.places))
    (hreach : ∀ found ∈ plan.located, found.2 < noEntry) {slot : Nat} (hslot : slot < plan.slots)
    (hsparse : plan.sparse = false) :
    denseSlot data base index slot = .ok ((plan.locate? slot).map (plan.place base)) := by
  have hnumber := Holds.item (fun _ => Layout.length_number 4 _) h
    (by rwa [List.length_range] : slot < (List.range plan.slots).length)
  rw [List.getElem_range, Layout.TypePlan.lookup_places] at hnumber
  cases hlocate : plan.locate? slot with
  | none =>
    rw [hlocate] at hnumber
    have hread : Bytes.u32At data (index + 4 * slot) = .ok noEntry := hnumber.u32At (by decide)
    simp only [denseSlot, hread, bind, Except.bind, if_true]
    rfl
  | some found =>
    obtain ⟨hmem, rfl⟩ := Layout.TypePlan.locate?_eq_some hlocate
    have hlt := hreach found hmem
    have hbound : found.2 < 4294967296 := Nat.lt_trans hlt (by decide)
    rw [hlocate] at hnumber
    have hread : Bytes.u32At data (index + 4 * found.1.number) = .ok found.2 :=
      Holds.u32At hnumber hbound
    simp only [denseSlot, hread, bind, Except.bind, if_neg (Nat.ne_of_lt hlt), Option.map_some,
      Layout.TypePlan.place, hsparse, Bool.false_eq_true, if_false]
    rfl

theorem sparseSlot_of_holds
    (h : Holds data index (Layout.sparseIndex plan.places))
    (hreach : ∀ found ∈ plan.located, found.2 < 4 * 65536) {slot : Nat}
    (hslot : slot < plan.entries.length) (hsparse : plan.sparse = true) :
    sparseSlot data base index slot =
      .ok ((plan.locate? plan.entries[slot].number).map (plan.place base)) := by
  have hplaces : slot < plan.places.length := by rwa [Layout.TypePlan.places, List.length_map]
  have hpair := Holds.item (fun _ => by rw [List.length_append, Layout.length_number,
    Layout.length_number]) h hplaces
  obtain ⟨found, hlocate⟩ :=
    Layout.TypePlan.exists_locate?_of_mem (List.getElem_mem hslot)
  obtain ⟨hmem, hfound⟩ := Layout.TypePlan.locate?_eq_some hlocate
  have hplace : plan.places[slot] = (found.1.number, found.2) := by
    simp only [Layout.TypePlan.places, List.getElem_map, hlocate, hfound]
    rfl
  rw [hplace, Holds.append_iff, Layout.length_number] at hpair
  rcases hpair with ⟨hnumber, hquarter⟩
  have hlt := hreach found hmem
  have hdvd := Layout.TypePlan.dvd_of_mem_located hmem
  have hnumberRead : Bytes.u16At data (index + 4 * slot) = .ok (found.1.number % 65536) :=
    hnumber.numberAt
  have hquarterRead : Bytes.u16At data (index + 4 * slot + 2) = .ok (found.2 / 4) :=
    Holds.u16At hquarter (by omega)
  have hoffset : base + 4 * ((found.2 / 4 : Nat) : Int) = base + found.2 := by omega
  rw [hlocate]
  simp only [sparseSlot, hnumberRead, hquarterRead, bind, Except.bind, hoffset, Option.map_some,
    Layout.TypePlan.place, hsparse, if_true]
  rfl

/-- The index table of a plan leads to the entries that it refers to. -/
theorem readAll_of_holds {header : TypeHeader} (hplan : plan.Storable)
    (h : Holds data header.indexStart plan.index)
    (hbase : header.chunk.start + header.entriesStart = base)
    (hcount : header.entryCount = plan.indexCount)
    (hsparse : TypeHeader.isSparse header.flags = plan.sparse)
    (hreach : ∀ found ∈ plan.located, found.2 < noEntry) :
    readAll data header = .ok (plan.referenced.map (plan.place base)) := by
  let slots := plan.numbers.map fun number => (plan.locate? number).map (plan.place base)
  have hslots : collect plan.indexCount
      ((if TypeHeader.isSparse header.flags then sparseSlot else denseSlot) data
        base header.indexStart) = .ok slots := by
    rw [hsparse]
    cases hkind : plan.sparse with
    | true =>
      simp only [Layout.TypePlan.index, hkind, if_true] at h
      refine collect_eq_ok ?_ fun slot hslot => ?_
      · simp [Layout.TypePlan.indexCount, slots, Layout.TypePlan.numbers, hkind]
      · have hentry : slot < plan.entries.length := by
          simpa [slots, Layout.TypePlan.numbers, hkind] using hslot
        simp only [if_true, sparseSlot_of_holds h (hplan.sparse hkind) hentry hkind]
        simp [slots, Layout.TypePlan.numbers, hkind]
    | false =>
      simp only [Layout.TypePlan.index, hkind, Bool.false_eq_true, if_false] at h
      refine collect_eq_ok ?_ fun slot hslot => ?_
      · simp [Layout.TypePlan.indexCount, slots, Layout.TypePlan.numbers, hkind]
      · have hrange : slot < plan.slots := by
          simpa [slots, Layout.TypePlan.numbers, hkind] using hslot
        simp only [Bool.false_eq_true, if_false, denseSlot_of_holds h hreach hrange hkind]
        simp [slots, Layout.TypePlan.numbers, hkind]
  have hflat : slots.filterMap id = plan.referenced.map (plan.place base) := by
    rw [Layout.TypePlan.referenced, List.map_filterMap, List.filterMap_map]
    rfl
  simp only [readAll, hbase, hcount, hslots, bind, Except.bind, hflat]
  rfl

end EntryPlace
/-! ### Type chunks -/

/-- The header of a type chunk that was laid out where a chunk was found. -/
def Layout.TypePlan.header (plan : Layout.TypePlan) (chunk : Chunk) : TypeHeader where
  chunk := chunk
  id := plan.id
  flags := if plan.sparse then 1 else 0
  reserved := 0
  entryCount := plan.indexCount
  entriesStart := 20 + plan.qualifiers.size.toNat + plan.index.length
  qualifiers := keptQualifiers plan.qualifiers
  indexStart := chunk.start + 20 + plan.qualifiers.size

theorem Layout.length_typeChunk (plan : Layout.TypePlan) :
    (Layout.typeChunk plan).length =
      20 + plan.qualifiers.size.toNat + plan.index.length + plan.stored.flatten.length := by
  simp only [typeChunk, Chunk.length_chunk, List.length_append, length_number, length_qualifiers]
  omega

theorem Layout.TypePlan.length_index (plan : Layout.TypePlan) :
    plan.index.length = 4 * plan.indexCount := by
  unfold index indexCount
  split
  · have hpair (pair : Nat × Nat) : (number 2 pair.1 ++ number 2 (pair.2 / 4)).length = 4 := by
      rw [List.length_append, length_number, length_number]
    rw [sparseIndex, length_flatMap hpair, places, List.length_map]
  · rw [denseIndex, length_flatMap fun _ => length_number 4 _, List.length_range]

variable {data : ByteArray} {chunk : Chunk} {plan : Layout.TypePlan}

/-- The parts of a type chunk stand one behind another. -/
theorem Layout.TypePlan.parts_of_holds (h : Holds data chunk.start (Layout.typeChunk plan))
    (hplan : plan.Storable) (hid : plan.id < 256)
    (hsize : (Layout.typeChunk plan).length < 4294967296) :
    Bytes.u8At data (chunk.start + 8) = .ok plan.id ∧
      Bytes.u8At data (chunk.start + 9) = .ok (if plan.sparse then 1 else 0) ∧
      Bytes.u16At data (chunk.start + 10) = .ok 0 ∧
      Bytes.u32At data (chunk.start + 12) = .ok plan.indexCount ∧
      Bytes.u32At data (chunk.start + 16) = .ok (plan.header chunk).entriesStart ∧
      Qualifiers.readAt data (chunk.start + 20) =
        pure (keptQualifiers plan.qualifiers, (plan.header chunk).indexStart) ∧
      Holds data (plan.header chunk).indexStart plan.index ∧
      Holds data (chunk.start + (plan.header chunk).entriesStart) plan.stored.flatten := by
  have hstages := hplan.qualifiers.stages
  rw [Layout.length_typeChunk] at hsize
  simp only [Layout.typeChunk, Layout.chunk, Holds.append_iff, List.length_append,
    Layout.length_number, Layout.length_qualifiers, and_assoc] at h
  rcases h with ⟨-, -, -, hidPlace, hflags, hreserved, hcount, hstart, hrecord, hindex, hstored⟩
  have hindexLength := length_index plan
  refine ⟨?_, ?_, ?_, ?_, ?_, ?_, ?_, ?_⟩
  · exact hidPlace.u8At hid
  · exact (hflags.at_eq (by omega)).u8At (by split <;> decide)
  · exact (hreserved.at_eq (by omega)).u16At (by decide)
  · exact (hcount.at_eq (by omega)).u32At (by omega)
  · exact (hstart.at_eq (by omega)).u32At (by omega)
  · exact Qualifiers.readAt_of_holds (hrecord.at_eq (by omega)) hplan.qualifiers
  · exact hindex.at_eq (by simp only [header]; omega)
  · exact hstored.at_eq (by simp only [header]; omega)

theorem TypeHeader.read_of_holds (h : Holds data chunk.start (Layout.typeChunk plan))
    (hplan : plan.Storable) (hid : 0 < plan.id ∧ plan.id < 256)
    (hsize : (Layout.typeChunk plan).length < 4294967296) :
    TypeHeader.read data chunk = pure (plan.header chunk) := by
  obtain ⟨hidRead, hflagsRead, hreservedRead, hcountRead, hstartRead, hrecord, -, -⟩ :=
    Layout.TypePlan.parts_of_holds h hplan hid.2 hsize
  have hids : (decide (plan.id = 0)) = false := decide_eq_false (by omega)
  have hshort : hasShortOffsets (if plan.sparse then 1 else 0) = false := by
    split <;> decide
  have hknown : decide (1 < if plan.sparse then 1 else 0) = false := by
    split <;> decide
  simp only [TypeHeader.read, hidRead, hflagsRead, hreservedRead, hcountRead, hstartRead, hrecord,
    liftM_eq_ofExcept, ofExcept_ok, pure_bind, check, hids, hshort, hknown, Bool.false_eq_true,
    if_false]
  rfl

/-- Reading the entries at the places of an index table gives the resources of the entries that the
table refers to. -/
theorem PackageScope.yields_readEntries {strings : OrderedMap Int Text} {texts : List Text}
    (hstrings : Numbered strings texts) (package : Layout.PackagePlan) {base : Int}
    (h : Holds data base plan.stored.flatten) (hplan : plan.Storable)
    (hsize : plan.stored.flatten.length < 4294967296) :
    Yields ((package.scope data strings).readEntries plan.id
      (plan.referenced.map (plan.place base)))
      (plan.ordered.filterMap (Layout.EntryPlan.resource? texts package plan.id)) := by
  have hentries : Yields ((plan.referenced.map (plan.place base)).mapM
      ((package.scope data strings).readEntry plan.id))
      (plan.referenced.map fun found => found.1.resource? texts package plan.id) := by
    rw [List.mapM_map]
    refine .mapM fun found hfound => ?_
    have hmem := Layout.TypePlan.mem_located_of_mem_referenced hfound
    obtain ⟨hend, hplace⟩ := Layout.TypePlan.holds_of_mem_located h hmem
    have hentry := hplan.entries found.1 (List.of_mem_zip hmem).1
    exact yields_readEntry hstrings package plan.id hentry hplace (by omega)
      (plan.place_entry_emod base found)
  have hresources : (plan.referenced.map fun found =>
      found.1.resource? texts package plan.id).filterMap id =
      plan.ordered.filterMap (Layout.EntryPlan.resource? texts package plan.id) := by
    rw [← Layout.TypePlan.map_fst_referenced, List.filterMap_map, List.filterMap_map]
    rfl
  rw [← hresources]
  exact .bind hentries (.pure _)

/-- A type chunk of a declared type adds the resources of its plan. -/
theorem OpenPackage.yields_fill {strings : OrderedMap Int Text} {texts : List Text}
    (hstrings : Numbered strings texts) (package : Layout.PackagePlan)
    (h : Holds data chunk.start (Layout.typeChunk plan)) (hplan : plan.Storable)
    (hid : 0 < plan.id ∧ plan.id < 256) (hsize : (Layout.typeChunk plan).length < 4294967296)
    (state : OpenPackage) (hdeclared : plan.id ∈ state.declared) :
    Yields (OpenPackage.fill (package.scope data strings) state chunk) { state with
      package := state.package.add plan.id (package.typeName plan.id)
        (Layout.keptQualifiers plan.qualifiers)
        (plan.ordered.filterMap (Layout.EntryPlan.resource? texts package plan.id)) } := by
  obtain ⟨-, -, -, -, -, -, hindex, hstored⟩ :=
    Layout.TypePlan.parts_of_holds h hplan hid.2 hsize
  have hheader := TypeHeader.read_of_holds h hplan hid hsize
  rw [Layout.length_typeChunk] at hsize
  have hreach (found : Layout.EntryPlan × Nat) (hfound : found ∈ plan.located) :
      found.2 < EntryPlace.noEntry := by
    have hend := (Layout.TypePlan.holds_of_mem_located hstored hfound).1
    have hlength := Layout.length_entry found.1
    unfold EntryPlace.noEntry
    omega
  have hsparse : TypeHeader.isSparse (plan.header chunk).flags = plan.sparse := by
    cases hkind : plan.sparse <;> simp [Layout.TypePlan.header, TypeHeader.isSparse, hkind]
  have hplaces := EntryPlace.readAll_of_holds hplan hindex rfl rfl hsparse hreach
  have hresources := PackageScope.yields_readEntries hstrings package hstored hplan (by omega)
  have hknown : ¬ (plan.header chunk).id ∉ state.declared := not_not_intro hdeclared
  have hname : (package.scope data strings).typeName plan.id = package.typeName plan.id :=
    PackageScope.typeName_scope package plan.id
  rw [← hname]
  unfold OpenPackage.fill
  have hread : TypeHeader.read (package.scope data strings).data chunk = _ := hheader
  have hindexRead : EntryPlace.readAll (package.scope data strings).data (plan.header chunk) = _ :=
    hplaces
  simp only [hread, pure_bind, hknown, if_false, hindexRead, liftM_eq_ofExcept, ofExcept_ok]
  exact .bind hresources (.pure _)

end CompiledResources
