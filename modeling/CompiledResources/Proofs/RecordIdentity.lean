import CompiledResources.Proofs.Declarations
import CompiledResources.Proofs.StagedRecords

/-!
Qualifiers as the identity of a variant. Every byte of a record up to the 48th that reading takes
belongs to a field that keeps it, so two records give the same qualifiers exactly when they agree
there. Type chunks of one type of one package share a variant exactly when their records do so.
-/

namespace CompiledResources

open Keyed Decoder

/-! ### Bytes from what they stand for -/

/-- So many bytes are told by the number that they encode. -/
theorem littleEndian_injective {first second : List UInt8} (hlength : first.length = second.length)
    (h : littleEndian first = littleEndian second) : first = second := by
  induction first generalizing second with
  | nil => exact (List.length_eq_zero_iff.mp hlength.symm).symm
  | cons byte rest ih =>
    cases second with
    | nil => cases hlength
    | cons byte' rest' =>
      have hlow := byte.toNat_lt
      have hlow' := byte'.toNat_lt
      simp only [littleEndian] at h
      have hbyte : byte = byte' := UInt8.toNat_inj.mp (by omega)
      rw [hbyte, ih (Nat.succ.inj hlength) (by omega)]

/-- What is cut off at the end of a text is told by the length of the text. -/
theorem Text.units_of_stripEnd (text : Text) :
    text.units = (text.stripEnd (· == 0)).units ++
      List.replicate (text.length - (text.stripEnd (· == 0)).length) 0 := by
  let zeros := text.units.reverse.takeWhile (· == 0)
  let kept := text.units.reverse.dropWhile (· == 0)
  have hsplit : text.units = kept.reverse ++ zeros.reverse := by
    rw [← List.reverse_append, List.takeWhile_append_dropWhile, List.reverse_reverse]
  have hzeros : zeros.reverse = List.replicate zeros.length 0 := by
    refine List.eq_replicate_iff.mpr ⟨List.length_reverse, fun unit hunit => ?_⟩
    have hall := List.all_takeWhile (p := (· == (0 : UInt16))) (l := text.units.reverse)
    exact eq_of_beq (List.all_eq_true.mp hall unit (List.mem_reverse.mp hunit))
  have hlength : text.length - (text.stripEnd (· == 0)).length = zeros.length := by
    have hboth := congrArg List.length hsplit
    rw [List.length_append, @List.length_reverse _ zeros] at hboth
    change text.units.length - kept.reverse.length = zeros.length
    omega
  rw [hlength, ← hzeros]
  exact hsplit

namespace Qualifiers

/-- So many bytes are told by the characters that they stand for. -/
theorem charsOfField_injective {first second : List UInt8}
    (hlength : first.length = second.length) (h : charsOfField first = charsOfField second) :
    first = second := by
  have hunits : first.map UInt8.toUInt16 = second.map UInt8.toUInt16 := by
    have hfirst := Text.units_of_stripEnd ⟨first.map UInt8.toUInt16⟩
    have hsecond := Text.units_of_stripEnd ⟨second.map UInt8.toUInt16⟩
    unfold charsOfField at h
    have hsame : (Text.mk (first.map UInt8.toUInt16)).length =
        (Text.mk (second.map UInt8.toUInt16)).length := by
      simp only [Text.length, List.length_map, hlength]
    rw [h, hsame] at hfirst
    exact hfirst.trans hsecond.symm
  refine List.map_injective_iff.mpr (fun a b hab => ?_) hunits
  rw [← UInt8.toNat_inj]
  simpa using congrArg UInt16.toNat hab

/-- A field of given bytes is told by what it holds. -/
def Field.Keeps (field : Field) : Prop :=
  ∀ first second : List UInt8, first.length = second.length →
    field.decode first = field.decode second → first = second

theorem Field.keeps_number (position width : Nat) (get : Qualifiers → Int) :
    (number position width get).Keeps := by
  intro first second hlength h
  exact littleEndian_injective hlength (Int.ofNat_inj.mp (FieldValue.number.inj h))

theorem Field.keeps_chars (position width : Nat) (get : Qualifiers → Text) :
    (chars position width get).Keeps := by
  intro first second hlength h
  exact charsOfField_injective hlength (FieldValue.chars.inj h)

theorem keeps_of_mem : ∀ field ∈ fields, field.Keeps := by
  simp [fields, Field.keeps_number, Field.keeps_chars]

/-- Every byte up to the end of a stage belongs to a field of that stage. -/
theorem exists_field_at : ∀ stop ∈ [28, 32, 36, 40, 48], ∀ i < stop,
    ∃ field ∈ fields, field.position ≤ i ∧ i < field.stop ∧ field.stop ≤ stop := by
  decide +kernel

/-! ### Known bytes -/

/-- The bytes of a record that its known fields take, when reading it goes from `offset` to
`next`. -/
def knownBytes (data : ByteArray) (offset next : Int) : Except Fault (List UInt8) :=
  Bytes.bytesAt data offset (min (next - offset).toNat 48)

/-- The qualifiers are read from a record of these known bytes. -/
structure Known (q : Qualifiers) (known : List UInt8) : Prop where
  ofRecord : q.OfRecord known
  length : known.length = min (extent q.size.toNat) 48

theorem min_extent_mem (size : Nat) : min (extent size) 48 ∈ [28, 32, 36, 40, 48] := by
  unfold extent
  repeat' split
  all_goals simp
  omega

/-- Qualifiers are the same exactly when they are read from the same known bytes. -/
theorem Known.eq_iff {q q' : Qualifiers} {known known' : List UInt8} (h : Known q known)
    (h' : Known q' known') : q = q' ↔ known = known' := by
  constructor
  · rintro rfl
    have hlength : known.length = known'.length := h.length.trans h'.length.symm
    refine List.ext_getElem hlength fun i hi hi' => ?_
    rw [h.length] at hi
    obtain ⟨field, hfield, hstart, hstop, hend⟩ :=
      exists_field_at _ (min_extent_mem q.size.toNat) i hi
    have hvalue := h.ofRecord field hfield
    have hvalue' := h'.ofRecord field hfield
    rw [if_pos (by rw [h.length]; exact hend)] at hvalue
    rw [if_pos (by rw [h'.length]; exact hend)] at hvalue'
    have hslice : field.slice known = field.slice known' :=
      keeps_of_mem field hfield _ _ (by simp [Field.slice, hlength])
        (hvalue.symm.trans hvalue')
    have hbyte := congrArg (·[i - field.position]?) hslice
    have hinside : i - field.position < field.width := by
      unfold Field.stop at hstop
      omega
    simp only [Field.slice, List.getElem?_take, hinside, if_true, List.getElem?_drop,
      Nat.add_sub_of_le hstart] at hbyte
    rwa [List.getElem?_eq_getElem, List.getElem?_eq_getElem, Option.some.injEq] at hbyte
  · rintro rfl
    refine eq_of_fields fun field hfield => ?_
    rw [h.ofRecord field hfield, h'.ofRecord field hfield]

/-- A record that is read has known bytes, and the qualifiers are read from them. -/
theorem ensures_known (data : ByteArray) (offset : Int) :
    Ensures (readAt data offset) fun result =>
      ∃ known, knownBytes data offset result.2 = .ok known ∧ Known result.1 known := by
  intro policy journal result after hrun
  obtain ⟨size, hsize⟩ : ∃ size, Bytes.u32At data offset = .ok size := by
    cases hread : Bytes.u32At data offset with
    | ok size => exact ⟨size, rfl⟩
    | error fault =>
      rw [readAt, hread] at hrun
      cases hrun
  have hstart : 0 ≤ offset := (Bytes.fits_of_numberAt hsize).1.1
  by_cases hend : offset + extent size ≤ data.size
  · obtain ⟨record, hrecord⟩ : ∃ record, Bytes.bytesAt data offset (extent size) = .ok record :=
      ⟨_, Bytes.bytesAt_eq_ok ⟨hstart, hend⟩⟩
    obtain ⟨q, hq, hof, hread⟩ := run_readAt_of_record hsize hrecord
    rw [hread policy journal] at hrun
    cases hrun
    have hlength : record.length = extent size := (Bytes.fits_of_bytesAt hrecord).2
    have hconsumed : (offset + (extent size : Int) - offset).toNat = extent size := by omega
    have hback : (offset - offset).toNat = 0 := by omega
    have hknown : knownBytes data offset (offset + extent size) = .ok (record.take 48) := by
      rw [knownBytes, hconsumed, Bytes.bytesAt_slice hrecord (by omega) (by omega), hback,
        List.drop_zero, ← hlength, Nat.min_comm, ← List.take_eq_take_min]
    refine ⟨_, hknown, ofRecord_take_known.mpr hof, ?_⟩
    rw [List.length_take, hlength, hq, Int.toNat_natCast, Nat.min_comm]
  · obtain ⟨error, place, hread⟩ := run_readAt_of_end hsize hend policy journal
    rw [hread] at hrun
    cases hrun

end Qualifiers

/-! ### Type chunks -/

/-- The known bytes of the record in a type chunk whose header is read. -/
def TypeHeader.knownBytes (data : ByteArray) (header : TypeHeader) : Except Fault (List UInt8) :=
  Qualifiers.knownBytes data (header.chunk.start + 20) header.indexStart

theorem TypeHeader.ensures_known (data : ByteArray) (chunk : Chunk) :
    Ensures (read data chunk) fun header =>
      ∃ known, header.knownBytes data = .ok known ∧ Qualifiers.Known header.qualifiers known := by
  have hthrow (fault : Fault) : Ensures (throw fault : Decoder PUnit) fun _ => False :=
    .throw fault
  refine .after fun _ => .after fun _ => .after fun _ =>
    .ite (.bind (hthrow _) fun _ => False.elim) ?_
  refine .after fun _ => .after fun _ => .after fun _ => .after fun _ => .after fun _ =>
    .bind (Qualifiers.ensures_known data (chunk.start + 20)) fun result hresult => ?_
  exact .pure hresult

theorem NestedVisit.Of.known {scope : PackageScope} {policy : Policy} {chunk : Chunk}
    {visit : NestedVisit} (h : Of scope policy chunk visit) {filling : Filling}
    (hfilling : visit.filling? = some filling) :
    ∃ known, filling.header.knownBytes scope.data = .ok known ∧
      Qualifiers.Known filling.header.qualifiers known := by
  cases h with
  | declared hkind hspec => cases hfilling
  | passed hspec htype => cases hfilling
  | filled hkind hheader hplaces hfound =>
    cases hfilling
    exact (TypeHeader.ensures_known scope.data chunk).of_outcome hheader

/-- The record of every visited type chunk has known bytes, and its qualifiers are read from
them. -/
theorem Visits.known {data : ByteArray} {policy : Policy} {chunks : List Chunk}
    {strings : OrderedMap Int Text} {visits : List PackageVisit}
    (h : Visits data policy chunks strings visits) :
    ∀ visit ∈ visits, ∀ filling ∈ visit.fillings,
      ∃ known, filling.header.knownBytes data = .ok known ∧
        Qualifiers.Known filling.header.qualifiers known := by
  induction h with
  | nil => exact fun _ hmem => nomatch hmem
  | strings _ _ _ ih => exact ih
  | passed _ _ _ ih => exact ih
  | @package _ _ _ visit _ _ hvisit _ ih =>
    refine List.forall_mem_cons.mpr ⟨fun filling hfilling => ?_, ih⟩
    obtain ⟨nested, hnested, hsome⟩ := List.mem_filterMap.mp hfilling
    have hall : ∀ nested ∈ visit.nested, ∀ filling, nested.filling? = some filling →
        ∃ known, filling.header.knownBytes data = .ok known ∧
          Qualifiers.Known filling.header.qualifiers known :=
      forall_mem_of_forall₂ (fun _ _ hof _ => hof.known) hvisit.nested
    exact hall nested hnested filling hsome

/-! ### Variants that type chunks share -/

section

variable (data : ByteArray) (visit : PackageVisit)

/-- The type that a type chunk of the package chunk adds to. -/
def PackageVisit.typeKey (filling : Filling) : Int × Text :=
  (filling.header.id, (visit.scope data).typeName filling.header.id)

variable {data visit} {filling : Filling} (h : filling ∈ visit.fillings)
include h

/-- A package chunk leaves the resources of each of its type chunks where this chunk puts them. -/
theorem PackageVisit.stores_perform (package : Package) :
    (visit.perform data package).Stores (visit.typeKey data filling) filling.header.qualifiers
      filling.resources := by
  obtain ⟨nested, hnested, hsome⟩ := List.mem_filterMap.mp h
  obtain rfl : nested = .filled filling := by
    cases nested <;> cases hsome
    rfl
  obtain ⟨before, behind, hsplit⟩ := List.append_of_mem hnested
  rw [perform, hsplit, List.foldl_append, List.foldl_cons]
  exact (Package.stores_add _ _ _ _ _).perform _ behind

theorem PackageVisit.storedIn_enter (packages : List Package) :
    Package.StoredIn (visit.enter data packages) visit.frame.key (visit.typeKey data filling)
      filling.header.qualifiers filling.resources :=
  exists_find?_upsert_self (fun row hrow => (NestedVisit.key_foldl _ _ row).trans hrow)
    (NestedVisit.key_foldl _ _ visit.frame.fresh) (fun row => stores_perform h row)
    (stores_perform h visit.frame.fresh)

/-- A table leaves the resources of each of its type chunks where this chunk puts them. -/
theorem PackageVisit.storedIn_foldl {visits : List PackageVisit} (hvisit : visit ∈ visits)
    (packages : List Package) :
    Package.StoredIn (visits.foldl (enter data) packages) visit.frame.key
      (visit.typeKey data filling) filling.header.qualifiers filling.resources := by
  obtain ⟨before, behind, rfl⟩ := List.append_of_mem hvisit
  rw [List.foldl_append, List.foldl_cons]
  exact (storedIn_enter h _).enter data behind

end

/-- Variant number `index` of the type is the one that the type chunk adds its resources to. -/
def TypeGroup.Takes (group : TypeGroup) (filling : Filling) (index : Nat) : Prop :=
  position? Variant.qualifiers filling.header.qualifiers group.variants = some index ∧
    ∃ variant, group.variants[index]? = some variant ∧ filling.resources <:+: variant.resources

theorem TypeGroup.Stores.exists_takes {group : TypeGroup} {filling : Filling}
    (h : group.Stores filling.header.qualifiers filling.resources) :
    ∃ index, group.Takes filling index := by
  obtain ⟨variant, hfind, hinfix⟩ := h
  rw [variant?, find?_eq_bind_position?] at hfind
  obtain ⟨index, hindex, hvariant⟩ := Option.bind_eq_some_iff.mp hfind
  exact ⟨index, hindex, variant, hvariant, hinfix⟩

/-- Type chunks share a variant exactly when they have the same qualifiers. -/
theorem TypeGroup.Takes.index_eq_iff {group : TypeGroup} {filling filling' : Filling}
    {index index' : Nat} (h : group.Takes filling index) (h' : group.Takes filling' index') :
    index = index' ↔ filling.header.qualifiers = filling'.header.qualifiers := by
  constructor
  · rintro rfl
    obtain ⟨variant, hvariant, hkey⟩ := exists_of_position? h.1
    obtain ⟨variant', hvariant', hkey'⟩ := exists_of_position? h'.1
    obtain rfl := Option.some.inj (hvariant.symm.trans hvariant')
    exact hkey.symm.trans hkey'
  · intro heq
    exact Option.some.inj (h.1.symm.trans (heq ▸ h'.1))

/-- Qualifiers are merged exactly when their records agree on the known bytes. Records that are
read, wherever they stand, give the same qualifiers if and only if their bytes up to the 48th that
reading takes are the same; and in a table that is decoded, any two type chunks of one type of one
package put their resources into variants of this type, which are one variant if and only if the
records of the two chunks agree on these bytes. -/
theorem Qualifiers.told_by_records :
    (∀ {data data' : ByteArray} {offset offset' next next' : Int} {q q' : Qualifiers}
      {policy policy' : Policy} {journal journal' after after' : Journal},
      run (readAt data offset) policy journal = (.ok (q, next), after) →
      run (readAt data' offset') policy' journal' = (.ok (q', next'), after') →
      ∃ known known', knownBytes data offset next = .ok known ∧
        knownBytes data' offset' next' = .ok known' ∧ (q = q' ↔ known = known')) ∧
    ∀ {data : ByteArray} {policy : Policy} {journal after : Journal} {contents : Contents},
      run (Contents.decode data) policy journal = (.ok contents, after) →
      ∃ header visits, TableHeader.read data = .ok header ∧
        Visits data policy (Chunk.walk data 8 header.chunk.stop header.chunk.headerSize).chunks []
          visits ∧
        ∀ visit ∈ visits, ∀ visit' ∈ visits, ∀ filling ∈ visit.fillings,
          ∀ filling' ∈ visit'.fillings, visit.frame.key = visit'.frame.key →
          visit.typeKey data filling = visit'.typeKey data filling' →
          ∃ package group index index' known known',
            find? Package.key visit.frame.key contents.packages = some package ∧
            find? TypeGroup.key (visit.typeKey data filling) package.types = some group ∧
            group.Takes filling index ∧ group.Takes filling' index' ∧
            filling.header.knownBytes data = .ok known ∧
            filling'.header.knownBytes data = .ok known' ∧ (index = index' ↔ known = known') := by
  constructor
  · intro _ _ _ _ _ _ _ _ _ _ _ _ _ _ hrun hrun'
    obtain ⟨known, hknown, hq⟩ := ensures_known _ _ _ _ _ _ hrun
    obtain ⟨known', hknown', hq'⟩ := ensures_known _ _ _ _ _ _ hrun'
    exact ⟨known, known', hknown, hknown', hq.eq_iff hq'⟩
  · intro data policy journal after contents hdecode
    obtain ⟨header, visits, hheader, hvisits, hpackages⟩ := Contents.exists_visits hdecode
    refine ⟨header, visits, hheader, hvisits, ?_⟩
    intro visit hvisit visit' hvisit' filling hfilling filling' hfilling' hpackage htype
    obtain ⟨package, hfind, group, hgroup, hstores⟩ :
        Package.StoredIn contents.packages visit.frame.key (visit.typeKey data filling)
          filling.header.qualifiers filling.resources :=
      hpackages ▸ PackageVisit.storedIn_foldl hfilling hvisit []
    obtain ⟨package', hfind', group', hgroup', hstores'⟩ :
        Package.StoredIn contents.packages visit'.frame.key (visit'.typeKey data filling')
          filling'.header.qualifiers filling'.resources :=
      hpackages ▸ PackageVisit.storedIn_foldl hfilling' hvisit' []
    -- both chunks name the same package and the same type, so both are found in one place
    obtain rfl := Option.some.inj (hfind.symm.trans (hpackage ▸ hfind'))
    obtain rfl := Option.some.inj (hgroup.symm.trans (htype ▸ hgroup'))
    obtain ⟨index, htakes⟩ := hstores.exists_takes
    obtain ⟨index', htakes'⟩ := hstores'.exists_takes
    obtain ⟨known, hknown, hq⟩ := hvisits.known visit hvisit filling hfilling
    obtain ⟨known', hknown', hq'⟩ := hvisits.known visit' hvisit' filling' hfilling'
    exact ⟨package, group, index, index', known, known', hfind, hgroup, htakes, htakes', hknown,
      hknown', (htakes.index_eq_iff htakes').trans (hq.eq_iff hq')⟩

/-- Qualifiers of the networks of a country. -/
def Qualifiers.american : Qualifiers := { mcc := 310 }

/-- A table with a type of three type chunks, two of them with the same record. -/
def Layout.TablePlan.localized : Layout.TablePlan :=
  let group (qualifiers : Qualifiers) : Layout.NestedPlan := .entries {
    id := 1, qualifiers, slots := 1
    entries := [{ number := 0, key := 0, body := .simple ⟨0x10, 5⟩ }] }
  { chunks := [.package {
      id := 127, name := "app", typeNames := ["id"], keyNames := ["a"]
      nested := [.typeSpec 1 1, group .american, group {}, group .american] }] }

open Qualifiers in
theorem Qualifiers.told_by_records_localized :
    let alone : ByteArray := ⟨(Layout.qualifiers french).toArray⟩
    let data : ByteArray := ⟨Layout.TablePlan.localized.bytes.toArray⟩
    (∃ after after', run (readAt frenchData 50) .strict = (.ok (french, 98), after) ∧
      run (readAt alone 0) .lenient = (.ok (french, 48), after') ∧
      ∃ known known', knownBytes frenchData 50 98 = .ok known ∧
        knownBytes alone 0 48 = .ok known' ∧ (french = french ↔ known = known')) ∧
    ∃ contents after, run (Contents.decode data) .strict = (.ok contents, after) ∧
      (contents.packages.flatMap Package.types).map (fun group =>
        group.variants.map fun variant => (variant.qualifiers, variant.resources.length)) =
          [[(american, 2), ({}, 1)]] ∧
      ∃ header visits, TableHeader.read data = .ok header ∧
        Visits data .strict (Chunk.walk data 8 header.chunk.stop header.chunk.headerSize).chunks []
          visits ∧
        ∀ visit ∈ visits, ∀ visit' ∈ visits, ∀ filling ∈ visit.fillings,
          ∀ filling' ∈ visit'.fillings, visit.frame.key = visit'.frame.key →
          visit.typeKey data filling = visit'.typeKey data filling' →
          ∃ package group index index' known known',
            find? Package.key visit.frame.key contents.packages = some package ∧
            find? TypeGroup.key (visit.typeKey data filling) package.types = some group ∧
            group.Takes filling index ∧ group.Takes filling' index' ∧
            filling.header.knownBytes data = .ok known ∧
            filling'.header.knownBytes data = .ok known' ∧ (index = index' ↔ known = known') := by
  intro alone data
  constructor
  · have hrun : run (readAt frenchData 50) .strict = (.ok (french, 98), {}) := by decide +kernel
    have hrun' : run (readAt alone 0) .lenient = (.ok (french, 48), {}) := by decide +kernel
    exact ⟨{}, {}, hrun, hrun', told_by_records.1 hrun hrun'⟩
  · have hplan : Layout.TablePlan.localized.Storable := by decide +kernel
    obtain ⟨after, hrun⟩ := Contents.exists_run_decode hplan .strict
    exact ⟨_, after, hrun, by decide +kernel, told_by_records.2 hrun⟩

end CompiledResources
