import CompiledResources.Layout.Table
import CompiledResources.Proofs.IdLookup
import CompiledResources.Proofs.Skips

/-!
What decoding visits. A table that is decoded has been visited chunk by chunk, each package chunk
with the chunks nested in it and each type chunk entry by entry; the contents are what the visits
bring, in their order. Every entry that an index table locates is visited once, on its own: either
its resource is stored or a notice says that it is left out.
-/

namespace CompiledResources

open Keyed Decoder

/-! ### What index tables locate -/

/-- Items that are all collected are the results of their reads, in order. -/
theorem forall₂_of_collect {ε α : Type} {item : Nat → Except ε α} {count : Nat} {items : List α}
    (h : collect count item = .ok items) :
    List.Forall₂ (fun i a => item i = .ok a) (List.range count) items := by
  have hfrom (count index : Nat) (found all : Array α)
      (h : collectFrom item count index found = .ok all) :
      ∃ items, all.toList = found.toList ++ items ∧
        List.Forall₂ (fun i a => item i = .ok a) (List.range' index count) items := by
    induction count generalizing index found with
    | zero =>
      cases h
      exact ⟨[], by simp, .nil⟩
    | succ count ih =>
      rw [collectFrom] at h
      cases hitem : item index with
      | error e =>
        rw [hitem] at h
        cases h
      | ok a =>
        rw [hitem] at h
        obtain ⟨items, hall, hitems⟩ := ih (index + 1) (found.push a) h
        exact ⟨a :: items, by simp [hall], by rw [List.range'_succ]; exact .cons hitem hitems⟩
  rw [collect] at h
  cases hrun : collectFrom item count 0 #[] with
  | error e =>
    rw [hrun] at h
    cases h
  | ok all =>
    rw [hrun] at h
    cases h
    obtain ⟨items, hall, hitems⟩ := hfrom count 0 #[] all hrun
    rw [hall, List.range_eq_range']
    exact hitems

theorem countP_eq_of_forall₂ {α β : Type} {one : α → β → Prop} {p : α → Bool} {q : β → Bool}
    (hone : ∀ a b, one a b → p a = q b) {items : List α} {found : List β}
    (h : List.Forall₂ one items found) : items.countP p = found.countP q := by
  induction h with
  | nil => rfl
  | cons hhead _ ih => rw [List.countP_cons, List.countP_cons, ih, hone _ _ hhead]

theorem forall_mem_of_forall₂ {α β : Type} {one : α → β → Prop} {p : β → Prop}
    (hone : ∀ a b, one a b → p b) {items : List α} {found : List β}
    (h : List.Forall₂ one items found) : ∀ b ∈ found, p b := by
  induction h with
  | nil => exact fun _ hmem => nomatch hmem
  | cons hhead _ ih => exact List.forall_mem_cons.mpr ⟨hone _ _ hhead, ih⟩

/-- Slot number `slot` of the index table has an entry: every slot of a sparse table has one, and
one of a dense table does unless it holds the mark for none. -/
def TypeHeader.locates (data : ByteArray) (header : TypeHeader) (slot : Nat) : Bool :=
  isSparse header.flags ||
    (Bytes.u32At data (header.indexStart + 4 * slot)).toOption != some EntryPlace.noEntry

/-- Number of entries that the index table locates. -/
def TypeHeader.located (data : ByteArray) (header : TypeHeader) : Nat :=
  (List.range header.entryCount).countP (header.locates data)

namespace EntryPlace

variable {data : ByteArray} {slot : Nat} {place : Option EntryPlace}

/-- Reads a slot of the index table of a type chunk. -/
def slotOf (data : ByteArray) (header : TypeHeader) : Nat → Except Fault (Option EntryPlace) :=
  (if TypeHeader.isSparse header.flags then sparseSlot else denseSlot) data
    (header.chunk.start + header.entriesStart) header.indexStart

theorem readAll_eq (data : ByteArray) (header : TypeHeader) :
    readAll data header =
      (do return (← collect header.entryCount (slotOf data header)).filterMap id) := rfl

/-- What a slot of the index table of a type chunk says. In a sparse table it is a pair of an entry
number and a quarter of an offset; in a dense one it is the offset of the entry of its own number,
or the mark for none. Offsets count from the start of the entries. -/
inductive InSlot (data : ByteArray) (header : TypeHeader) (slot : Nat) : Option EntryPlace → Prop
  | pair {entry quarter : Nat} (hsparse : TypeHeader.isSparse header.flags = true)
      (hentry : Bytes.u16At data (header.indexStart + 4 * slot) = .ok entry)
      (hquarter : Bytes.u16At data (header.indexStart + 4 * slot + 2) = .ok quarter) :
      InSlot data header slot
        (some ⟨entry, header.chunk.start + header.entriesStart + 4 * quarter⟩)
  | offset {offset : Nat} (hdense : TypeHeader.isSparse header.flags = false)
      (hoffset : Bytes.u32At data (header.indexStart + 4 * slot) = .ok offset)
      (hne : offset ≠ 0xffffffff) :
      InSlot data header slot (some ⟨slot, header.chunk.start + header.entriesStart + offset⟩)
  | mark (hdense : TypeHeader.isSparse header.flags = false)
      (hmark : Bytes.u32At data (header.indexStart + 4 * slot) = .ok 0xffffffff) :
      InSlot data header slot none

theorem inSlot_of_slotOf {header : TypeHeader} (h : slotOf data header slot = .ok place) :
    InSlot data header slot place := by
  unfold slotOf at h
  cases hsparse : TypeHeader.isSparse header.flags with
  | true =>
    rw [hsparse, if_pos rfl] at h
    obtain ⟨entry, hentry, h⟩ := exists_of_bind_eq_ok h
    obtain ⟨quarter, hquarter, h⟩ := exists_of_bind_eq_ok h
    cases h
    exact .pair hsparse hentry hquarter
  | false =>
    rw [hsparse, if_neg Bool.false_ne_true] at h
    obtain ⟨offset, hoffset, h⟩ := exists_of_bind_eq_ok h
    by_cases hnone : offset = noEntry
    · rw [if_pos hnone] at h
      cases h
      exact .mark hsparse (hoffset.trans (congrArg Except.ok hnone))
    · rw [if_neg hnone] at h
      cases h
      exact .offset hsparse hoffset hnone

/-- A slot has a place exactly when it locates an entry. -/
theorem InSlot.isSome_eq {header : TypeHeader} (h : InSlot data header slot place) :
    place.isSome = header.locates data slot := by
  cases h with
  | pair hsparse hentry hquarter => simp [TypeHeader.locates, hsparse]
  | offset hdense hoffset hne =>
    simp [TypeHeader.locates, hdense, hoffset, Except.toOption, noEntry, hne]
  | mark hdense hmark => simp [TypeHeader.locates, hdense, hmark, Except.toOption, noEntry]

/-- The places that are read are those that the slots of the index table say, in their order. -/
theorem exists_slots_of_readAll {header : TypeHeader} {places : List EntryPlace}
    (h : readAll data header = .ok places) :
    ∃ slots, List.Forall₂ (InSlot data header) (List.range header.entryCount) slots ∧
      places = slots.filterMap id := by
  rw [readAll_eq] at h
  obtain ⟨slots, hslots, h⟩ := exists_of_bind_eq_ok h
  cases h
  exact ⟨slots, (forall₂_of_collect hslots).imp fun _ _ => inSlot_of_slotOf, rfl⟩

/-- As many places are read as the index table locates entries. -/
theorem length_of_readAll {header : TypeHeader} {places : List EntryPlace}
    (h : readAll data header = .ok places) : places.length = header.located data := by
  obtain ⟨slots, hslots, rfl⟩ := exists_slots_of_readAll h
  have hone (slot : Nat) (place : Option EntryPlace) (hslot : InSlot data header slot place) :
      header.locates data slot = place.isSome := hslot.isSome_eq.symm
  rw [List.length_filterMap_eq_countP, TypeHeader.located]
  exact (countP_eq_of_forall₂ hone hslots).symm

end EntryPlace

/-! ### Entries on their own -/

/-- The size of the entry header at an offset is that of its kind. -/
def EntryHeader.Fits (data : ByteArray) (offset : Int) : Prop :=
  ∃ size flags, Bytes.u16At data offset = .ok size ∧ Bytes.u16At data (offset + 2) = .ok flags ∧
    size = expectedSize flags

/-- What the value of an entry of a type depends on besides its bytes. -/
def PackageScope.context (scope : PackageScope) (typeId : Nat) : Entry.Context where
  typeName := scope.typeName typeId
  strings ordinal := scope.strings.get? ordinal

/-- What the entry at a place comes to when nothing else is decoded in the same run: no resource
where its header does not fit or its value is refused, and else the resource of its value. -/
inductive EntryAlone (scope : PackageScope) (policy : Policy) (typeId : Nat) (place : EntryPlace) :
    Option Resource → Prop
  | unfit (hfits : ¬ EntryHeader.Fits scope.data place.offset)
      (hheader : (run (EntryHeader.readAt scope.data place.offset) policy).1 = .ok none) :
      EntryAlone scope policy typeId place none
  | refused {header : EntryHeader} {refusal : Refusal}
      (hfits : EntryHeader.Fits scope.data place.offset)
      (hheader : (run (EntryHeader.readAt scope.data place.offset) policy).1 = .ok (some header))
      (hvalue : (run (Entry.readValue (scope.context typeId) scope.data header
        (place.offset + header.size)) policy).1 = .ok (.error refusal)) :
      EntryAlone scope policy typeId place none
  | stored {header : EntryHeader} {value : Value}
      (hfits : EntryHeader.Fits scope.data place.offset)
      (hheader : (run (EntryHeader.readAt scope.data place.offset) policy).1 = .ok (some header))
      (hvalue : (run (Entry.readValue (scope.context typeId) scope.data header
        (place.offset + header.size)) policy).1 = .ok (.ok value)) :
      EntryAlone scope policy typeId place (some {
        id := ResourceId.join ⟨scope.packageId, typeId, place.entry⟩
        name := scope.keyName header.key
        value })

theorem EntryHeader.ensures_readAt (data : ByteArray) (offset : Int) :
    Ensures (readAt data offset) fun found => found.isSome = true ↔ Fits data offset := by
  refine .read fun size hsize => .read fun flags hflags => .after fun key => .after fun _ => ?_
  have hfits : Fits data offset ↔ size = expectedSize flags := by
    constructor
    · rintro ⟨size', flags', hsize', hflags', heq⟩
      obtain rfl := Except.ok.inj (hsize.symm.trans hsize')
      obtain rfl := Except.ok.inj (hflags.symm.trans hflags')
      exact heq
    · exact fun heq => ⟨size, flags, hsize, hflags, heq⟩
  rw [hfits]
  split
  next hne => exact .after fun _ => .pure (by simpa using hne)
  next heq =>
    have hsome (header : EntryHeader) :
        (some header).isSome = true ↔ size = expectedSize flags := by
      simpa using heq
    exact .ite (.after fun _ => .after fun _ => .pure (hsome _)) (.pure (hsome _))

/-- A header that does not fit is noted, and nothing else is. -/
theorem EntryHeader.logs_readAt (policy : Policy) (data : ByteArray) (offset : Int) :
    Logs policy (readAt data offset) fun found count => count = found.isNone.toNat := by
  refine .read fun size _ => .read fun flags _ => .read fun key _ => ?_
  have hflags : Composed (Fault.ShownBy data) (noteFlags flags) := composed_noteFlags flags
  refine .after hflags (skipsNone_noteFlags flags) fun _ _ => .ite (fun _ => ?_) fun _ => ?_
  · refine .bind (.note _) fun _ count hcount => .pure ?_
    rw [hcount, if_pos (Notice.skipsEntry_unknownEntrySize size offset)]
    rfl
  · exact .ite (fun _ => .read fun _ _ => .read fun _ _ => .pure rfl) fun _ => .pure rfl

theorem PackageScope.logs_readEntry (scope : PackageScope) (policy : Policy) (typeId : Nat)
    (place : EntryPlace) :
    Logs policy (scope.readEntry typeId place) fun found count =>
      EntryAlone scope policy typeId place found ∧ count = found.isNone.toNat := by
  have hread : Composed (Fault.ShownBy scope.data) (EntryHeader.readAt scope.data place.offset) :=
    EntryHeader.composed_readAt scope.data place.offset
  refine .bind (.ensuring (EntryHeader.ensures_readAt _ _)
    (.outcome hread (EntryHeader.logs_readAt policy _ _))) fun found count hfound => ?_
  obtain ⟨hfits, hheader, rfl⟩ := hfound
  cases found with
  | none => exact .pure ⟨.unfit (by simpa using hfits) hheader, rfl⟩
  | some header =>
    refine .after (Entry.composed_readValue _ _ _ _) (Entry.plain_readValue _ _ _ _).skipsNone
      fun result hvalue => ?_
    have hfits := hfits.mp rfl
    cases result with
    | ok value => exact .pure ⟨.stored hfits hheader hvalue, rfl⟩
    | error refusal =>
      refine .bind (.note _) fun _ count hcount => .pure ⟨.refused hfits hheader hvalue, ?_⟩
      rw [hcount, if_pos (Notice.skipsEntry_entryLeftOut _ refusal)]
      rfl

/-- Entries do not disturb each other, and those that come to no resource are noted. -/
theorem PackageScope.logs_readEntries (scope : PackageScope) (policy : Policy) (typeId : Nat)
    (places : List EntryPlace) :
    Logs policy (scope.readEntries typeId places) fun resources count =>
      ∃ found, List.Forall₂ (EntryAlone scope policy typeId) places found ∧
        resources = found.filterMap id ∧
        count = (found.map fun resource => resource.isNone.toNat).sum := by
  refine .bind (.mapM (scope.logs_readEntry policy typeId) places) fun found count hfound =>
    .pure ⟨found, hfound.1, rfl, ?_⟩
  rw [Nat.add_zero, hfound.2]

/-! ### Chunks nested in a package chunk -/

/-- A visited type chunk: its header, the places of its entries and what each of them came to. -/
structure Filling where
  header : TypeHeader
  places : List EntryPlace
  found : List (Option Resource)

namespace Filling

/-- The places are those that the slots of the index table say, in their order. -/
def Indexed (data : ByteArray) (filling : Filling) : Prop :=
  ∃ slots, List.Forall₂ (EntryPlace.InSlot data filling.header)
      (List.range filling.header.entryCount) slots ∧
    filling.places = slots.filterMap id

/-- The resources of the entries that are not left out, in the order of the index table. -/
def resources (filling : Filling) : List Resource := filling.found.filterMap id

/-- Number of entries that are left out. -/
def leftOut (filling : Filling) : Nat :=
  (filling.found.map fun resource => resource.isNone.toNat).sum

theorem length_found (filling : Filling) :
    filling.found.length = filling.resources.length + filling.leftOut := by
  rw [resources, leftOut]
  induction filling.found with
  | nil => rfl
  | cons found rest ih =>
    cases found with
    | none => simp [ih]; omega
    | some resource => simp [ih]; omega

end Filling

/-- A visited chunk in a package chunk. -/
inductive NestedVisit where
  /-- A type spec that declares the type of an id. -/
  | declared (id : Nat)
  | filled (filling : Filling)
  /-- A chunk of another kind. -/
  | passed

namespace NestedVisit

/-- What the chunk does to the package that it adds to. -/
def perform (scope : PackageScope) (package : Package) : NestedVisit → Package
  | declared id => package.declare id (scope.typeName id)
  | filled filling =>
    package.add filling.header.id (scope.typeName filling.header.id) filling.header.qualifiers
      filling.resources
  | passed => package

/-- The visited type chunk, if it is one. -/
def filling? : NestedVisit → Option Filling
  | filled filling => some filling
  | declared _ | passed => none

/-- Number of entries that are left out. -/
def leftOut (visit : NestedVisit) : Nat := (visit.filling?.map Filling.leftOut).getD 0

/-- What a chunk in a package chunk comes to: each part of it is what its reader gives alone. -/
inductive Of (scope : PackageScope) (policy : Policy) (chunk : Chunk) : NestedVisit → Prop
  | declared {spec : TypeSpec} (hkind : chunk.kind = Chunk.typeSpec)
      (hspec : (run (TypeSpec.read scope.data chunk) policy).1 = .ok spec) :
      Of scope policy chunk (declared spec.id)
  | filled {filling : Filling} (hkind : chunk.kind = Chunk.typeEntries)
      (hheader : (run (TypeHeader.read scope.data chunk) policy).1 = .ok filling.header)
      (hplaces : EntryPlace.readAll scope.data filling.header = .ok filling.places)
      (hfound : List.Forall₂ (EntryAlone scope policy filling.header.id) filling.places
        filling.found) :
      Of scope policy chunk (filled filling)
  | passed (hspec : chunk.kind ≠ Chunk.typeSpec) (htype : chunk.kind ≠ Chunk.typeEntries) :
      Of scope policy chunk passed

end NestedVisit

namespace OpenPackage

variable (scope : PackageScope) (policy : Policy) (state : OpenPackage) (chunk : Chunk)

theorem logs_declare (hkind : chunk.kind = Chunk.typeSpec) :
    Logs policy (declare scope state chunk) fun next count =>
      ∃ visit, NestedVisit.Of scope policy chunk visit ∧
        next.package = visit.perform scope state.package ∧ count = visit.leftOut := by
  refine .after (TypeSpec.composed_read _ _) (TypeSpec.plain_read _ _).skipsNone
    fun spec hspec => ?_
  have hvisit := NestedVisit.Of.declared hkind hspec
  refine .ite (fun _ => .bind (.note _) fun _ count hcount => .pure ⟨_, hvisit, rfl, ?_⟩)
    fun _ => .pure ⟨_, hvisit, rfl, rfl⟩
  rw [hcount, if_neg (Notice.not_skipsEntry_unnamedType spec.id)]
  rfl

theorem logs_fill (hkind : chunk.kind = Chunk.typeEntries) :
    Logs policy (fill scope state chunk) fun next count =>
      ∃ visit, NestedVisit.Of scope policy chunk visit ∧
        next.package = visit.perform scope state.package ∧ count = visit.leftOut := by
  refine .after (TypeHeader.composed_read _ _) (TypeHeader.plain_read _ _).skipsNone
    fun header hheader => ?_
  refine .ite (fun _ => .bind (.throw _ : Logs policy _ fun _ _ => False) fun _ _ => False.elim)
    fun _ => .read fun places hplaces => ?_
  refine .bind (scope.logs_readEntries policy header.id places) fun resources count hread => ?_
  obtain ⟨found, hfound, rfl, rfl⟩ := hread
  exact .pure ⟨.filled ⟨header, places, found⟩, .filled hkind hheader hplaces hfound, rfl, rfl⟩

/-- A nested chunk does to its package what its visit does. -/
theorem logs_enter :
    Logs policy (enter scope state chunk) fun next count =>
      ∃ visit, NestedVisit.Of scope policy chunk visit ∧
        next.package = visit.perform scope state.package ∧ count = visit.leftOut :=
  .ite (logs_declare scope policy state chunk) fun hspec =>
    .ite (logs_fill scope policy state chunk) fun htype =>
      .pure ⟨.passed, .passed hspec htype, rfl, rfl⟩

end OpenPackage

/-! ### Package chunks -/

/-- What is read of a package chunk before its nested chunks. -/
structure PackageFrame where
  header : PackageHeader
  typePool : StringPool
  keyPool : StringPool

namespace PackageFrame

/-- Reads the header of a package chunk and its two string pools. -/
def read (data : ByteArray) (chunk : Chunk) : Except Fault PackageFrame := do
  let header ← PackageHeader.read data chunk
  let typePool ← StringPool.readAt data (chunk.start + header.typeStrings) "package type strings"
  let keyPool ← StringPool.readAt data (chunk.start + header.keyStrings) "package key strings"
  return { header, typePool, keyPool }

/-- What the package of the chunk is known by. -/
def key (frame : PackageFrame) : Int × Text := (frame.header.id, frame.header.name)

/-- What the nested chunks refer to, with the global strings collected before. -/
def scope (frame : PackageFrame) (data : ByteArray) (strings : OrderedMap Int Text) :
    PackageScope where
  data := data
  packageId := frame.header.id
  typeNames := frame.typePool.strings
  keyNames := frame.keyPool.strings
  strings := strings

/-- The nested chunks, from behind the key name pool to the end of the package chunk. -/
def nested (frame : PackageFrame) (data : ByteArray) (chunk : Chunk) : Chunk.Walk :=
  Chunk.walk data 1 chunk.stop frame.keyPool.header.chunk.stop

/-- The package that a package chunk of this header makes when there is none. -/
def fresh (frame : PackageFrame) : Package := { id := frame.header.id, name := frame.header.name }

/-- The package that the nested chunks add to: the one of the same id and name, if there is one. -/
def start (frame : PackageFrame) (packages : List Package) : OpenPackage :=
  { package := (find? Package.key frame.key packages).getD frame.fresh }

theorem read_eq_ok {data : ByteArray} {chunk : Chunk} {header : PackageHeader}
    {typePool keyPool : StringPool} (hheader : PackageHeader.read data chunk = .ok header)
    (htypes : StringPool.readAt data (chunk.start + header.typeStrings) "package type strings" =
      .ok typePool)
    (hkeys : StringPool.readAt data (chunk.start + header.keyStrings) "package key strings" =
      .ok keyPool) :
    read data chunk = .ok { header, typePool, keyPool } := by
  simp only [read, hheader, htypes, hkeys, bind, Except.bind]
  rfl

end PackageFrame

/-- Once its frame is read, a package chunk is its nested chunks one after another. -/
theorem OpenTable.addPackage_eq {data : ByteArray} {chunk : Chunk} {frame : PackageFrame}
    (h : PackageFrame.read data chunk = .ok frame) (state : OpenTable) :
    addPackage data state chunk = do
      Decoder.note (.packageStart state.packageChunks frame.header.id frame.header.name)
      let final ← (frame.nested data chunk).visit
        (OpenPackage.enter (frame.scope data state.contents.strings))
        (frame.start state.contents.packages)
      final.package.noteSummary
      return {
        contents := { state.contents with
          packages := upsert Package.key frame.key (fun _ => final.package) final.package
            state.contents.packages }
        packageChunks := state.packageChunks + 1 } := by
  obtain ⟨header, hheader, h⟩ := exists_of_bind_eq_ok h
  obtain ⟨typePool, htypes, h⟩ := exists_of_bind_eq_ok h
  obtain ⟨keyPool, hkeys, h⟩ := exists_of_bind_eq_ok h
  cases h
  simp only [addPackage, liftM_eq_ofExcept, hheader, htypes, hkeys, ofExcept_ok, pure_bind]
  rfl

/-- A package chunk that is decoded has a frame. -/
theorem OpenTable.ensures_frame (data : ByteArray) (state : OpenTable) (chunk : Chunk) :
    Ensures (addPackage data state chunk) fun _ =>
      ∃ frame, PackageFrame.read data chunk = .ok frame :=
  .read fun _ hheader => .after fun _ => .read fun _ htypes => .read fun _ hkeys =>
    .after fun _ => .after fun _ => .pure ⟨_, PackageFrame.read_eq_ok hheader htypes hkeys⟩

/-- A visited package chunk, with the global strings collected before it. -/
structure PackageVisit where
  frame : PackageFrame
  strings : OrderedMap Int Text
  nested : List NestedVisit

namespace PackageVisit

/-- What the nested chunks refer to. -/
def scope (visit : PackageVisit) (data : ByteArray) : PackageScope :=
  visit.frame.scope data visit.strings

/-- What the nested chunks do to the package that they add to. -/
def perform (data : ByteArray) (visit : PackageVisit) (package : Package) : Package :=
  visit.nested.foldl (NestedVisit.perform (visit.scope data)) package

/-- What the chunk does to the packages that there are: it adds to the one of its id and name,
which is made if it is not there. -/
def enter (data : ByteArray) (packages : List Package) (visit : PackageVisit) : List Package :=
  upsert Package.key visit.frame.key (visit.perform data) (visit.perform data visit.frame.fresh)
    packages

/-- The type chunks among the nested chunks. -/
def fillings (visit : PackageVisit) : List Filling :=
  visit.nested.filterMap NestedVisit.filling?

/-- Number of entries that are left out. -/
def leftOut (visit : PackageVisit) : Nat := (visit.nested.map NestedVisit.leftOut).sum

/-- What a package chunk comes to: its frame, and every nested chunk in order. -/
structure Of (data : ByteArray) (policy : Policy) (strings : OrderedMap Int Text) (chunk : Chunk)
    (visit : PackageVisit) : Prop where
  frame : PackageFrame.read data chunk = .ok visit.frame
  strings : visit.strings = strings
  nested : List.Forall₂ (NestedVisit.Of (visit.scope data) policy)
    (visit.frame.nested data chunk).chunks visit.nested

end PackageVisit

/-- The nested chunks do to their package what their visits do, one after another. -/
theorem OpenPackage.logs_visit (scope : PackageScope) (policy : Policy) (walk : Chunk.Walk)
    (state : OpenPackage) :
    Logs policy (walk.visit (enter scope) state) fun final count =>
      ∃ visits, List.Forall₂ (NestedVisit.Of scope policy) walk.chunks visits ∧
        final.package = visits.foldl (NestedVisit.perform scope) state.package ∧
        count = (visits.map NestedVisit.leftOut).sum :=
  .visit (.foldlM (logs_enter scope policy) walk.chunks state)

namespace OpenTable

variable (policy : Policy) (data : ByteArray) (state : OpenTable) (chunk : Chunk)

/-- A package chunk does to the packages that there are what its visit does. -/
theorem logs_addPackage :
    Logs policy (addPackage data state chunk) fun next count =>
      ∃ visit, PackageVisit.Of data policy state.contents.strings chunk visit ∧
        next.contents = { state.contents with
          packages := visit.enter data state.contents.packages } ∧ count = visit.leftOut := by
  refine .assuming (ensures_frame data state chunk) fun ⟨frame, hframe⟩ => ?_
  rw [addPackage_eq hframe]
  have hsummary (package : Package) : Composed (Fault.ShownBy data) package.noteSummary :=
    package.composed_noteSummary
  refine .bind (.note _) fun _ count hcount => .bind (OpenPackage.logs_visit _ policy _ _)
    fun final left hfinal => .after (hsummary _) (Package.plain_noteSummary _).skipsNone
      fun _ _ => .pure ?_
  obtain ⟨nested, hnested, hpackage, rfl⟩ := hfinal
  have hstart : ¬ (Notice.packageStart state.packageChunks frame.header.id
      frame.header.name).SkipsEntry := Notice.not_skipsEntry_of_level (by simp [Notice.level])
  rw [if_neg hstart] at hcount
  let visit : PackageVisit := { frame, strings := state.contents.strings, nested }
  refine ⟨visit, ⟨hframe, rfl, hnested⟩, ?_, by rw [hcount, Nat.zero_add, Nat.add_zero]; rfl⟩
  have hperform : final.package = visit.perform data
      ((find? Package.key frame.key state.contents.packages).getD frame.fresh) := hpackage
  refine congrArg (fun packages => { state.contents with packages }) ?_
  rw [PackageVisit.enter]
  cases hfind : find? Package.key frame.key state.contents.packages with
  | none =>
    rw [hfind] at hperform
    have hnew : frame.key ∉ state.contents.packages.map Package.key := find?_eq_none_iff.mp hfind
    rw [upsert_of_not_mem hnew, upsert_of_not_mem hnew, hperform]
    rfl
  | some known =>
    rw [hfind] at hperform
    exact upsert_congr hfind hperform

end OpenTable

/-! ### Tables -/

/-- What the chunks of a table come to, from given global strings on: the visits of the package
chunks, each with the global strings of the pools before it. -/
inductive Visits (data : ByteArray) (policy : Policy) :
    List Chunk → OrderedMap Int Text → List PackageVisit → Prop
  | nil {strings : OrderedMap Int Text} : Visits data policy [] strings []
  | strings {chunk : Chunk} {rest : List Chunk} {strings : OrderedMap Int Text} {pool : StringPool}
      {visits : List PackageVisit} (hkind : chunk.kind = Chunk.stringPool)
      (hpool : StringPool.read data chunk = .ok pool)
      (hrest : Visits data policy rest
        (strings.putAll (pool.strings.zipIdx.map fun pair => ((pair.2 : Int), pair.1))) visits) :
      Visits data policy (chunk :: rest) strings visits
  | package {chunk : Chunk} {rest : List Chunk} {strings : OrderedMap Int Text}
      {visit : PackageVisit} {visits : List PackageVisit} (hkind : chunk.kind = Chunk.package)
      (hvisit : PackageVisit.Of data policy strings chunk visit)
      (hrest : Visits data policy rest strings visits) :
      Visits data policy (chunk :: rest) strings (visit :: visits)
  | passed {chunk : Chunk} {rest : List Chunk} {strings : OrderedMap Int Text}
      {visits : List PackageVisit} (hpool : chunk.kind ≠ Chunk.stringPool)
      (hpackage : chunk.kind ≠ Chunk.package) (hrest : Visits data policy rest strings visits) :
      Visits data policy (chunk :: rest) strings visits

/-- The chunks of a table do to the packages what their visits do, one after another. -/
theorem OpenTable.logs_foldlM (policy : Policy) (data : ByteArray) (chunks : List Chunk)
    (state : OpenTable) :
    Logs policy (chunks.foldlM (enter data) state) fun final count =>
      ∃ visits, Visits data policy chunks state.contents.strings visits ∧
        final.contents.packages =
          visits.foldl (PackageVisit.enter data) state.contents.packages ∧
        count = (visits.map PackageVisit.leftOut).sum := by
  induction chunks generalizing state with
  | nil => exact .pure ⟨[], .nil, rfl, rfl⟩
  | cons chunk rest ih =>
    rw [List.foldlM_cons, enter]
    by_cases hpool : chunk.kind = Chunk.stringPool
    · rw [if_pos hpool, addStrings, liftM_eq_ofExcept]
      cases hread : StringPool.read data chunk with
      | error fault => exact .throw fault
      | ok pool =>
        refine (ih _).mono fun final count hrest => ?_
        obtain ⟨visits, hvisits, hfinal⟩ := hrest
        exact ⟨visits, .strings hpool hread hvisits, hfinal⟩
    · rw [if_neg hpool]
      by_cases hpackage : chunk.kind = Chunk.package
      · rw [if_pos hpackage]
        refine .bind (logs_addPackage policy data state chunk) fun next left hnext => ?_
        obtain ⟨visit, hvisit, hcontents, rfl⟩ := hnext
        refine (ih next).mono fun final more hrest => ?_
        obtain ⟨visits, hvisits, hfinal, rfl⟩ := hrest
        rw [hcontents] at hvisits hfinal
        exact ⟨visit :: visits, .package hpackage hvisit hvisits, hfinal, by simp⟩
      · rw [if_neg hpackage, pure_bind]
        refine (ih state).mono fun final count hrest => ?_
        obtain ⟨visits, hvisits, hfinal⟩ := hrest
        exact ⟨visits, .passed hpool hpackage hvisits, hfinal⟩

/-- A table that is decoded has been visited, and its packages are what the visits bring. -/
theorem Contents.exists_visits {data : ByteArray} {policy : Policy} {journal after : Journal}
    {contents : Contents} (h : run (decode data) policy journal = (.ok contents, after)) :
    ∃ header visits, TableHeader.read data = .ok header ∧
      Visits data policy (Chunk.walk data 8 header.chunk.stop header.chunk.headerSize).chunks []
        visits ∧
      contents.packages = visits.foldl (PackageVisit.enter data) [] := by
  cases hread : TableHeader.read data with
  | error fault =>
    rw [decode, hread] at h
    cases h
  | ok header =>
    rw [decode, liftM_eq_ofExcept, hread, ofExcept_ok, pure_bind, run_note_bind] at h
    split at h
    · obtain ⟨_, _, hthrow, _⟩ := exists_of_run_bind h
      cases hthrow
    · obtain ⟨final, finished, hvisit, hcontents⟩ := exists_of_run_bind h
      cases hcontents
      have hchunks := Chunk.run_foldlM_of_visit hvisit
      obtain ⟨_, ⟨visits, hvisits, hpackages, _⟩, _⟩ :=
        OpenTable.logs_foldlM policy data _ {} _ final _ hchunks
      exact ⟨header, visits, rfl, hvisits, hpackages⟩

/-! ### Where the resources of the visits are stored -/

/-- The resources that a nested chunk brings to a package, where they are stored. -/
def NestedVisit.placed (scope : PackageScope) (package : Int × Text) : NestedVisit → List Placed
  | filled filling =>
    filling.resources.map fun resource =>
      ⟨package, (filling.header.id, scope.typeName filling.header.id), filling.header.qualifiers,
        resource⟩
  | declared _ | passed => []

/-- The resources that a package chunk brings, where they are stored. -/
def PackageVisit.placed (data : ByteArray) (visit : PackageVisit) : List Placed :=
  visit.nested.flatMap (NestedVisit.placed (visit.scope data) visit.frame.key)

theorem NestedVisit.placed_perform (scope : PackageScope) (package : Package)
    (visit : NestedVisit) :
    (visit.perform scope package).key = package.key ∧
      (visit.perform scope package).placed.Perm
        (package.placed ++ visit.placed scope package.key) := by
  cases visit with
  | declared id =>
    refine ⟨rfl, ?_⟩
    rw [placed, List.append_nil]
    exact package.placed_declare id _
  | filled filling => exact ⟨rfl, package.placed_add _ _ _ _⟩
  | passed => exact ⟨rfl, by rw [placed, List.append_nil, perform]⟩

/-- A package chunk adds its resources to the package of its id and name. -/
theorem PackageVisit.placed_perform (data : ByteArray) (visit : PackageVisit) {package : Package}
    (hkey : package.key = visit.frame.key) :
    (visit.perform data package).placed.Perm (package.placed ++ visit.placed data) := by
  rw [perform, placed]
  induction visit.nested generalizing package with
  | nil => simp
  | cons nested rest ih =>
    obtain ⟨hnext, hplaced⟩ := nested.placed_perform (visit.scope data) package
    rw [hkey] at hnext hplaced
    rw [List.foldl_cons, List.flatMap_cons, ← List.append_assoc]
    exact (ih hnext).trans (hplaced.append_right _)

/-- Visits bring their resources to where they belong: none is lost, doubled or moved. -/
theorem PackageVisit.placed_foldl (data : ByteArray) (visits : List PackageVisit)
    (packages : List Package) :
    ((visits.foldl (enter data) packages).flatMap Package.placed).Perm
      (packages.flatMap Package.placed ++ visits.flatMap (placed data)) := by
  induction visits generalizing packages with
  | nil => simp
  | cons visit rest ih =>
    have hfresh : visit.frame.fresh.placed = [] := rfl
    have henter : ((visit.enter data packages).flatMap Package.placed).Perm
        (packages.flatMap Package.placed ++ visit.placed data) := by
      refine upsert_flatMap_perm (fun package => visit.placed_perform data) ?_ packages
      have hkey : visit.frame.fresh.key = visit.frame.key := rfl
      simpa [hfresh] using visit.placed_perform data hkey
    rw [List.foldl_cons, List.flatMap_cons, ← List.append_assoc]
    exact (ih _).trans (henter.append_right _)

/-! ### Every stored resource from an entry -/

theorem NestedVisit.Of.exists_entry {scope : PackageScope} {policy : Policy} {chunk : Chunk}
    {visit : NestedVisit} (h : Of scope policy chunk visit) (package : Int × Text) :
    ∀ placed ∈ visit.placed scope package,
      ∃ typeId place, EntryAlone scope policy typeId place (some placed.resource) := by
  cases h with
  | declared hkind hspec => exact fun _ hmem => nomatch hmem
  | passed hspec htype => exact fun _ hmem => nomatch hmem
  | @filled filling hkind hheader hplaces hfound =>
    intro placed hplaced
    obtain ⟨resource, hresource, rfl⟩ := List.mem_map.mp hplaced
    obtain ⟨_, hmem, rfl⟩ := List.mem_filterMap.mp hresource
    obtain ⟨place, halone⟩ := forall_mem_of_forall₂ (fun place found halone =>
      (⟨place, halone⟩ : ∃ place, EntryAlone scope policy filling.header.id place found)) hfound _
      hmem
    exact ⟨filling.header.id, place, halone⟩

theorem Visits.exists_entry {data : ByteArray} {policy : Policy} {chunks : List Chunk}
    {strings : OrderedMap Int Text} {visits : List PackageVisit}
    (h : Visits data policy chunks strings visits) :
    ∀ visit ∈ visits, ∀ placed ∈ visit.placed data,
      ∃ scope typeId place, EntryAlone scope policy typeId place (some placed.resource) := by
  induction h with
  | nil => exact fun _ hmem => nomatch hmem
  | strings _ _ _ ih => exact ih
  | passed _ _ _ ih => exact ih
  | @package _ _ _ visit _ _ hvisit _ ih =>
    refine List.forall_mem_cons.mpr ⟨fun placed hplaced => ?_, ih⟩
    obtain ⟨nested, hnested, hplaced⟩ := List.mem_flatMap.mp hplaced
    have hall : ∀ nested ∈ visit.nested,
        ∀ placed ∈ nested.placed (visit.scope data) visit.frame.key,
          ∃ typeId place,
            EntryAlone (visit.scope data) policy typeId place (some placed.resource) :=
      forall_mem_of_forall₂ (fun _ _ hof => hof.exists_entry visit.frame.key) hvisit.nested
    exact ⟨_, hall nested hnested placed hplaced⟩

/-! ### Every located entry once -/

/-- The resources of a table without the places where they are stored. -/
theorem Contents.map_resource_placed (contents : Contents) :
    contents.placed.map Placed.resource = contents.resources := by
  have hgroup (key : Int × Text) (group : TypeGroup) :
      (group.placed key).map Placed.resource = group.resources := by
    simp [TypeGroup.placed, Variant.placed, TypeGroup.resources, List.map_flatMap,
      Function.comp_def]
  simp [placed, Package.placed, resources, List.map_flatMap, hgroup]

theorem Contents.length_resources (contents : Contents) :
    contents.resources.length = contents.placed.length := by
  rw [← contents.map_resource_placed, List.length_map]

/-- Every resource that decoding stores is what an entry comes to on its own. -/
theorem Contents.exists_entry_of_decode {data : ByteArray} {policy : Policy}
    {journal after : Journal} {contents : Contents}
    (h : run (decode data) policy journal = (.ok contents, after)) :
    ∀ resource ∈ contents.resources,
      ∃ scope typeId place, EntryAlone scope policy typeId place (some resource) := by
  obtain ⟨header, visits, -, hvisits, hpackages⟩ := Contents.exists_visits h
  have hplaced := PackageVisit.placed_foldl data visits []
  rw [← hpackages] at hplaced
  intro resource hresource
  rw [← contents.map_resource_placed] at hresource
  obtain ⟨placed, hmem, rfl⟩ := List.mem_map.mp hresource
  obtain ⟨visit, hvisit, hmem⟩ := List.mem_flatMap.mp (hplaced.mem_iff.mp hmem)
  exact hvisits.exists_entry visit hvisit placed hmem

/-- An index table locates as many entries as come to a resource or are left out. -/
theorem NestedVisit.located_eq {scope : PackageScope} {policy : Policy} {chunk : Chunk}
    {visit : NestedVisit} (h : Of scope policy chunk visit) (package : Int × Text) :
    (visit.filling?.toList.map fun filling => filling.header.located scope.data).sum =
      (visit.placed scope package).length + visit.leftOut := by
  cases h with
  | declared hkind hspec => rfl
  | passed hspec htype => rfl
  | @filled filling hkind hheader hplaces hfound =>
    have hlocated := EntryPlace.length_of_readAll hplaces
    have hlength := hfound.length_eq
    have hsplit := filling.length_found
    simp only [filling?, Option.toList_some, List.map_singleton, List.sum_singleton, placed,
      List.length_map, leftOut, Option.map_some, Option.getD_some]
    omega

theorem PackageVisit.located_eq {data : ByteArray} {policy : Policy}
    {strings : OrderedMap Int Text} {chunk : Chunk} {visit : PackageVisit}
    (h : Of data policy strings chunk visit) :
    (visit.fillings.map fun filling => filling.header.located data).sum =
      (visit.placed data).length + visit.leftOut := by
  have hall (chunks : List Chunk) (nested : List NestedVisit)
      (hnested : List.Forall₂ (NestedVisit.Of (visit.scope data) policy) chunks nested) :
      ((nested.filterMap NestedVisit.filling?).map fun filling => filling.header.located data).sum =
        (nested.flatMap (NestedVisit.placed (visit.scope data) visit.frame.key)).length +
          (nested.map NestedVisit.leftOut).sum := by
    induction hnested with
    | nil => rfl
    | @cons _ nested _ rest hnested _ ih =>
      have hone := NestedVisit.located_eq hnested visit.frame.key
      have hsplit : (nested :: rest).filterMap NestedVisit.filling? =
          nested.filling?.toList ++ rest.filterMap NestedVisit.filling? := by
        rw [List.filterMap_cons]
        cases nested.filling? <;> rfl
      rw [hsplit, List.map_append, List.sum_append, ih, List.flatMap_cons, List.length_append,
        List.map_cons, List.sum_cons]
      have hdata : (visit.scope data).data = data := rfl
      rw [hdata] at hone
      omega
  exact hall _ _ h.nested

theorem Visits.located_eq {data : ByteArray} {policy : Policy} {chunks : List Chunk}
    {strings : OrderedMap Int Text} {visits : List PackageVisit}
    (h : Visits data policy chunks strings visits) :
    ((visits.flatMap PackageVisit.fillings).map fun filling => filling.header.located data).sum =
      (visits.flatMap (PackageVisit.placed data)).length +
        (visits.map PackageVisit.leftOut).sum := by
  induction h with
  | nil => rfl
  | strings _ _ _ ih => exact ih
  | passed _ _ _ ih => exact ih
  | package hkind hvisit _ ih =>
    have hone := PackageVisit.located_eq hvisit
    rw [List.flatMap_cons, List.map_append, List.sum_append, hone, ih, List.flatMap_cons,
      List.length_append, List.map_cons, List.sum_cons]
    omega

/-- The entries of a visited type chunk are where its index table says. -/
theorem NestedVisit.Of.indexed {scope : PackageScope} {policy : Policy} {chunk : Chunk}
    {visit : NestedVisit} (h : Of scope policy chunk visit) :
    ∀ filling ∈ visit.filling?, filling.Indexed scope.data := by
  cases h with
  | declared hkind hspec => exact fun _ hmem => nomatch hmem
  | passed hspec htype => exact fun _ hmem => nomatch hmem
  | filled hkind hheader hplaces hfound =>
    intro filling hfilling
    obtain rfl := Option.some.inj hfilling
    exact EntryPlace.exists_slots_of_readAll hplaces

theorem Visits.indexed {data : ByteArray} {policy : Policy} {chunks : List Chunk}
    {strings : OrderedMap Int Text} {visits : List PackageVisit}
    (h : Visits data policy chunks strings visits) :
    ∀ filling ∈ visits.flatMap PackageVisit.fillings, filling.Indexed data := by
  induction h with
  | nil => exact fun _ hmem => nomatch hmem
  | strings _ _ _ ih => exact ih
  | passed _ _ _ ih => exact ih
  | @package _ _ _ visit _ _ hvisit _ ih =>
    rw [List.flatMap_cons]
    refine List.forall_mem_append.mpr ⟨fun filling hfilling => ?_, ih⟩
    obtain ⟨nested, hnested, hfilling⟩ := List.mem_filterMap.mp hfilling
    have hall : ∀ nested ∈ visit.nested, ∀ filling ∈ nested.filling?, filling.Indexed data :=
      forall_mem_of_forall₂ (fun _ _ hof => hof.indexed) hvisit.nested
    exact hall nested hnested filling hfilling

/-- Every located entry is accounted for once and on its own. A table that is decoded has been
visited chunk by chunk: its packages are what the visits bring one after another, each type chunk
bringing the resources of its entries, which are where the slots of its index table say and in their
order, and each entry comes to what it comes to when it is decoded alone. The index tables locate as
many entries as there are resources stored and notices given that an entry is left out. -/
theorem Contents.accounts_of_decode {data : ByteArray} {policy : Policy} {contents : Contents}
    {after : Journal} (h : (Contents.decode data).run policy = (.ok contents, after)) :
    ∃ header visits, TableHeader.read data = .ok header ∧
      Visits data policy (Chunk.walk data 8 header.chunk.stop header.chunk.headerSize).chunks []
        visits ∧
      contents.packages = visits.foldl (PackageVisit.enter data) [] ∧
      (∀ filling ∈ visits.flatMap PackageVisit.fillings, filling.Indexed data) ∧
      ((visits.flatMap PackageVisit.fillings).map fun filling =>
          filling.header.located data).sum = contents.resources.length + after.skips := by
  have hlogs : Logs policy (Contents.decode data) fun contents count =>
      ∃ header visits, TableHeader.read data = .ok header ∧
        Visits data policy (Chunk.walk data 8 header.chunk.stop header.chunk.headerSize).chunks []
          visits ∧
        contents.packages = visits.foldl (PackageVisit.enter data) [] ∧
        count = (visits.map PackageVisit.leftOut).sum := by
    refine .read fun header hheader => .bind (.note _) fun _ count hcount => ?_
    have hstart : ¬ (Notice.tableStart header.packageCount).SkipsEntry :=
      Notice.not_skipsEntry_of_level (by simp [Notice.level])
    rw [if_neg hstart] at hcount
    refine .ite (fun _ => .bind (.throw _ : Logs policy _ fun _ _ => False) fun _ _ => False.elim)
      fun _ => .bind (.visit (OpenTable.logs_foldlM policy data _ _)) fun final left hfinal => ?_
    obtain ⟨visits, hvisits, hpackages, rfl⟩ := hfinal
    exact .pure ⟨header, visits, hheader, hvisits, hpackages, by omega⟩
  obtain ⟨count, ⟨header, visits, hheader, hvisits, hpackages, rfl⟩, hcount⟩ :=
    hlogs {} contents after h
  refine ⟨header, visits, hheader, hvisits, hpackages, hvisits.indexed, ?_⟩
  have hplaced := PackageVisit.placed_foldl data visits []
  rw [← hpackages] at hplaced
  have hstored : contents.placed.length = (visits.flatMap (PackageVisit.placed data)).length :=
    hplaced.length_eq
  have hskips : after.skips = (visits.map PackageVisit.leftOut).sum := by
    rw [hcount]
    exact Nat.zero_add _
  rw [hvisits.located_eq, Contents.length_resources, hstored, hskips]

/-- A table with a type of five slots: an entry whose header does not fit, an entry of an unknown
data type, an empty slot, and two entries that are stored. -/
def Layout.TablePlan.flawed : Layout.TablePlan :=
  let group : Layout.TypePlan := {
    id := 1, slots := 5
    entries := [
      { number := 0, key := 0, body := .simple ⟨0x10, 5⟩ },
      { number := 1, key := 1, flags := 1, body := .simple ⟨0x10, 6⟩ },
      { number := 2, key := 1, body := .simple ⟨0x7F, 7⟩ },
      { number := 4, key := 0, body := .map 0 [(3, ⟨0x10, 8⟩)] }] }
  { chunks := [.package {
      id := 127, name := "app", typeNames := ["id"], keyNames := ["a", "b"]
      nested := [.typeSpec 1 5, .entries group] }] }

theorem Contents.accounts_of_decode_flawed :
    let data : ByteArray := ⟨Layout.TablePlan.flawed.bytes.toArray⟩
    ∃ contents after, (Contents.decode data).run .strict = (.ok contents, after) ∧
      contents.resources.length = 2 ∧ after.skips = 2 ∧
      ∃ header visits, TableHeader.read data = .ok header ∧
        Visits data .strict (Chunk.walk data 8 header.chunk.stop header.chunk.headerSize).chunks []
          visits ∧
        contents.packages = visits.foldl (PackageVisit.enter data) [] ∧
        (∀ filling ∈ visits.flatMap PackageVisit.fillings, filling.Indexed data) ∧
        ((visits.flatMap PackageVisit.fillings).map fun filling =>
            filling.header.located data).sum = contents.resources.length + after.skips := by
  intro data
  have hcounts : ((run (Contents.decode data) .strict).1.toOption.map fun contents =>
      contents.resources.length, (run (Contents.decode data) .strict).2.skips) = (some 2, 2) := by
    decide +kernel
  obtain ⟨hresources, hskips⟩ := Prod.ext_iff.mp hcounts
  cases hrun : (Contents.decode data).run .strict with
  | mk result after =>
    rw [hrun] at hresources hskips
    cases result with
    | error fault => cases hresources
    | ok contents =>
      exact ⟨contents, after, rfl, Option.some.inj hresources, hskips,
        Contents.accounts_of_decode hrun⟩

end CompiledResources
