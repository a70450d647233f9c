import CompiledResources.Layout.Contents
import CompiledResources.Proofs.Placement

/-!
Entries from their bytes: reading an entry that stands somewhere in a buffer gives the resource of
its plan, whether it holds one value or the records of a map; an entry whose value has an unknown
code is left out, and so is such a record.
-/

namespace CompiledResources

open Decoder

namespace Layout

/-- The fields of a value record have room for what they hold. -/
structure ValuePlan.Storable (plan : ValuePlan) : Prop where
  code : plan.code < 256
  word : plan.word < 4294967296

/-- What an entry of the given flags holds has room, and the flags do not make a map of one
value. -/
def EntryBody.Storable (flags : Nat) : EntryBody → Prop
  | .simple stored => flags.testBit 0 = false ∧ stored.Storable
  | .map _ records => ∀ record ∈ records, record.1 < 4294967296 ∧ record.2.Storable

/-- The fields of an entry have room for what they hold. -/
structure EntryPlan.Storable (plan : EntryPlan) : Prop where
  key : plan.key < 4294967296
  flags : plan.flags < 65536
  body : plan.body.Storable plan.flags

instance (plan : ValuePlan) : Decidable plan.Storable :=
  decidable_of_iff (plan.code < 256 ∧ plan.word < 4294967296)
    ⟨fun h => ⟨h.1, h.2⟩, fun h => ⟨h.code, h.word⟩⟩

instance (flags : Nat) (body : EntryBody) : Decidable (body.Storable flags) :=
  match body with
  | .simple stored => inferInstanceAs (Decidable (flags.testBit 0 = false ∧ stored.Storable))
  | .map _ records =>
    inferInstanceAs (Decidable (∀ record ∈ records, record.1 < 4294967296 ∧ record.2.Storable))

instance (plan : EntryPlan) : Decidable plan.Storable :=
  decidable_of_iff (plan.key < 4294967296 ∧ plan.flags < 65536 ∧ plan.body.Storable plan.flags)
    ⟨fun h => ⟨h.1, h.2.1, h.2.2⟩, fun h => ⟨h.key, h.flags, h.body⟩⟩

theorem length_value (plan : ValuePlan) : (value plan).length = 8 := by
  simp only [value, List.length_append, length_number]

theorem length_record (record : Nat × ValuePlan) :
    (number 4 record.1 ++ value record.2).length = 12 := by
  rw [List.length_append, length_number, length_value]

/-- An entry is longer than the mark of an absent one is short of the greatest offset. -/
theorem length_entry (plan : EntryPlan) : 16 ≤ (entry plan).length := by
  unfold entry
  split <;> simp only [List.length_append, length_number, length_value] <;> omega

end Layout

/-! ### Values -/

theorem ValueRecord.readAt_of_holds {data : ByteArray} {offset : Int} {plan : Layout.ValuePlan}
    (h : Holds data offset (Layout.value plan)) (hplan : plan.Storable) :
    ValueRecord.readAt data offset =
      pure (some { offset, size := 8, reserved := 0, code := plan.code, word := plan.word }) := by
  simp only [Layout.value, Holds.append_iff, Layout.length_number, List.length_append,
    and_assoc] at h
  rcases h with ⟨hsize, hreserved, hcode, hword⟩
  have hsizeRead : Bytes.u16At data offset = .ok 8 := hsize.u16At (by decide)
  have hreservedRead : Bytes.u8At data (offset + 2) = .ok 0 := hreserved.u8At (by decide)
  have hcodeRead : Bytes.u8At data (offset + 3) = .ok plan.code :=
    (hcode.at_eq (by omega)).u8At hplan.code
  have hwordRead : Bytes.u32At data (offset + 4) = .ok plan.word :=
    (hword.at_eq (by omega)).u32At hplan.word
  simp only [ValueRecord.readAt, hsizeRead, hreservedRead, hcodeRead, hwordRead,
    liftM_eq_ofExcept, ofExcept_ok, pure_bind, check, ValueRecord.width]
  rfl

/-- Of the global strings, a value depends on the one that its word names. -/
theorem Value.decode_congr (first second : Int → Option Text) {word : Int}
    (h : first word = second word) (code : Int) :
    Value.decode first code word = Value.decode second code word := by
  unfold Value.decode
  rw [h]

/-- The global strings have the texts of a list under the ordinals of the list. -/
def Numbered (strings : OrderedMap Int Text) (texts : List Text) : Prop :=
  ∀ ordinal : Nat, strings.get? (ordinal : Int) = texts[ordinal]?

theorem Layout.ValuePlan.decode_eq {strings : OrderedMap Int Text} {texts : List Text}
    (h : Numbered strings texts) (plan : Layout.ValuePlan) :
    (Value.decode (fun ordinal => strings.get? ordinal) plan.code plan.word).toOption =
      plan.value? texts := by
  have hsame := Value.decode_congr (fun ordinal => strings.get? ordinal)
    (fun ordinal => texts[ordinal.toNat]?) (h plan.word) plan.code
  rw [hsame]
  rfl

/-! ### Entries -/

namespace Entry

variable {data : ByteArray} {offset : Int} {strings : OrderedMap Int Text} {texts : List Text}

/-- What a record adds to a bag. -/
def addRecord (texts : List Text) (typeName : Text) (bag : Bag) (record : Nat × Layout.ValuePlan) :
    Bag :=
  match record.2.value? texts with
  | some value => bag.add typeName (Numeral.decimal record.1) value
  | none => bag

theorem yields_readRecords (hstrings : Numbered strings texts) (typeName : Text)
    {records : List (Nat × Layout.ValuePlan)} (index : Nat) (bag : Bag)
    (h : Holds data (offset + 12 * index)
      (records.flatMap fun record => Layout.number 4 record.1 ++ Layout.value record.2))
    (hrecords : ∀ record ∈ records, record.1 < 4294967296 ∧ record.2.Storable) :
    Yields (readRecords { typeName, strings := fun ordinal => strings.get? ordinal } data offset
      records.length index bag) (.ok (records.foldl (addRecord texts typeName) bag)) := by
  induction records generalizing index bag with
  | nil => exact .pure _
  | cons record rest ih =>
    rw [List.forall_mem_cons] at hrecords
    rw [List.flatMap_cons, Holds.append_iff, Holds.append_iff, Layout.length_number,
      Layout.length_record] at h
    rcases h with ⟨⟨hname, hvalue⟩, hrest⟩
    have hnameRead : Bytes.u32At data (offset + recordWidth * index) = .ok record.1 :=
      hname.u32At hrecords.1.1
    have hvalueRead : ValueRecord.readAt data (offset + recordWidth * index + 4) = _ :=
      ValueRecord.readAt_of_holds hvalue hrecords.1.2
    have hnext (bag : Bag) := ih (index + 1) bag (hrest.at_eq (by omega)) hrecords.2
    have hdecoded := Layout.ValuePlan.decode_eq hstrings record.2
    simp only [List.length_cons, readRecords, hnameRead, liftM_eq_ofExcept, ofExcept_ok, pure_bind,
      hvalueRead, List.foldl_cons, addRecord, ← hdecoded]
    cases Value.decode (fun ordinal => strings.get? ordinal) record.2.code record.2.word with
    | ok value => exact hnext _
    | error refusal => exact .bind (.note _) (hnext bag)

end Entry

namespace EntryHeader

theorem yields_noteFlags (flags : Nat) : Yields (noteFlags flags) () := by
  have hcompact : Yields (if isCompact flags then noteOnce "compact" .compactEntry else pure ())
      () := .ite_unit (.noteOnce _ _)
  simp only [noteFlags]
  split
  · exact .bind (.noteOnce _ _) hcompact
  · exact hcompact

variable {data : ByteArray} {offset : Int} {size flags key : Nat}

/-- The header of an entry that is no map takes three reads. -/
theorem yields_readAt_simple (hsize : Bytes.u16At data offset = .ok 8)
    (hflags : Bytes.u16At data (offset + 2) = .ok flags)
    (hkey : Bytes.u32At data (offset + 4) = .ok key) (hsimple : isMap flags = false) :
    Yields (readAt data offset) (some { size := 8, flags, key, parent := 0, count := 0 }) := by
  simp only [readAt, hsize, hflags, hkey, liftM_eq_ofExcept, ofExcept_ok, pure_bind, expectedSize,
    hsimple, Bool.false_eq_true, if_false, ne_eq, not_true_eq_false]
  exact .bind (yields_noteFlags flags) (.pure _)

/-- The header of a map entry has its parent and the number of its records besides. -/
theorem yields_readAt_map {parent count : Nat} (hsize : Bytes.u16At data offset = .ok 16)
    (hflags : Bytes.u16At data (offset + 2) = .ok flags)
    (hkey : Bytes.u32At data (offset + 4) = .ok key)
    (hparent : Bytes.u32At data (offset + 8) = .ok parent)
    (hcount : Bytes.u32At data (offset + 12) = .ok count) (hmap : isMap flags = true) :
    Yields (readAt data offset) (some { size := 16, flags, key, parent, count }) := by
  simp only [readAt, hsize, hflags, hkey, hparent, hcount, liftM_eq_ofExcept, ofExcept_ok,
    pure_bind, expectedSize, hmap, if_true, ne_eq, not_true_eq_false, if_false]
  exact .bind (yields_noteFlags flags) (.pure _)

end EntryHeader

namespace Entry

variable {data : ByteArray} {offset : Int} {strings : OrderedMap Int Text} {texts : List Text}

/-- What reading an entry comes to: its key, and its value if it has one. -/
def ReadsAs (data : ByteArray) (offset : Int) (strings : OrderedMap Int Text) (typeName : Text)
    (key : Nat) (value : Option Value) : Prop :=
  ∃ header result,
    Yields (EntryHeader.readAt data offset) (some header) ∧ header.key = key ∧
    Yields (readValue { typeName, strings := fun ordinal => strings.get? ordinal } data header
      (offset + header.size)) result ∧ result.toOption = value

theorem readsAs_simple (hstrings : Numbered strings texts) (typeName : Text)
    {flags key : Nat} {stored : Layout.ValuePlan}
    (h : Holds data offset
      (Layout.number 2 8 ++ Layout.number 2 flags ++ Layout.number 4 key ++ Layout.value stored))
    (hflags : flags < 65536) (hkey : key < 4294967296) (hsimple : flags.testBit 0 = false)
    (hstored : stored.Storable) :
    ReadsAs data offset strings typeName key (stored.value? texts) := by
  simp only [Holds.append_iff, Layout.length_number, List.length_append, and_assoc] at h
  rcases h with ⟨hsizePlace, hflagsPlace, hkeyPlace, hvaluePlace⟩
  have hheader := EntryHeader.yields_readAt_simple (hsizePlace.u16At (by decide))
    (hflagsPlace.u16At hflags) ((hkeyPlace.at_eq (by omega)).u32At hkey) hsimple
  have hvalueRead : ValueRecord.readAt data (offset + (8 : Nat)) = _ :=
    ValueRecord.readAt_of_holds hvaluePlace hstored
  refine ⟨_, Value.decode (fun ordinal => strings.get? ordinal) stored.code stored.word, hheader,
    rfl, ?_, Layout.ValuePlan.decode_eq hstrings stored⟩
  have hmap : EntryHeader.isMap flags = false := hsimple
  simp only [readValue, hmap, Bool.false_eq_true, if_false, hvalueRead, pure_bind]
  exact .pure _

theorem readsAs_map (hstrings : Numbered strings texts) (typeName : Text)
    {flags key parent : Nat} {records : List (Nat × Layout.ValuePlan)}
    (h : Holds data offset
      (Layout.number 2 16 ++ Layout.number 2 (flags ||| 1) ++ Layout.number 4 key ++
        Layout.number 4 parent ++ Layout.number 4 records.length ++
        records.flatMap fun record => Layout.number 4 record.1 ++ Layout.value record.2))
    (hflags : flags < 65536) (hkey : key < 4294967296) (hcount : records.length < 4294967296)
    (hrecords : ∀ record ∈ records, record.1 < 4294967296 ∧ record.2.Storable) :
    ReadsAs data offset strings typeName key
      (some ((records.foldl (addRecord texts typeName) []).toValue typeName)) := by
  simp only [Holds.append_iff, Layout.length_number, List.length_append, and_assoc] at h
  rcases h with ⟨hsizePlace, hflagsPlace, hkeyPlace, hparentPlace, hcountPlace, hrecordsPlace⟩
  have hmap : EntryHeader.isMap (flags ||| 1) = true := by
    rw [EntryHeader.isMap, Nat.testBit_or]
    simp
  have hflagsBound : flags ||| 1 < 2 ^ 16 := Nat.or_lt_two_pow hflags (by decide)
  have hheader := EntryHeader.yields_readAt_map (hsizePlace.u16At (by decide))
    (hflagsPlace.u16At hflagsBound) ((hkeyPlace.at_eq (by omega)).u32At hkey)
    ((hparentPlace.at_eq (by omega)).numberAt) ((hcountPlace.at_eq (by omega)).u32At hcount) hmap
  have hfirstPlace : Holds data (offset + (16 : Nat) + 12 * (0 : Nat)) _ :=
    hrecordsPlace.at_eq (by omega)
  have hbag := yields_readRecords hstrings typeName 0 [] hfirstPlace hrecords
  refine ⟨_, .ok ((records.foldl (addRecord texts typeName) []).toValue typeName), hheader, rfl,
    ?_, rfl⟩
  simp only [readValue, hmap, if_true]
  exact .bind hbag (.pure _)

/-- Reading an entry that stands at an offset comes to what its plan says. -/
theorem readsAs_of_holds (hstrings : Numbered strings texts) (typeName : Text)
    {entry : Layout.EntryPlan} (h : Holds data offset (Layout.entry entry))
    (hsize : (Layout.entry entry).length < 4294967296) (hentry : entry.Storable) :
    ReadsAs data offset strings typeName entry.key (entry.body.value? texts typeName) := by
  have hstorable := hentry.body
  unfold Layout.entry at h hsize
  cases hbody : entry.body with
  | simple stored =>
    rw [hbody] at h hstorable
    rcases hstorable with ⟨hsimple, hstored⟩
    exact readsAs_simple hstrings typeName h hentry.flags hentry.key hsimple hstored
  | map parent records =>
    rw [hbody] at h hsize hstorable
    simp only [List.length_append, Layout.length_number,
      Layout.length_flatMap Layout.length_record] at hsize
    exact readsAs_map hstrings typeName h hentry.flags hentry.key (by omega) hstorable

end Entry

/-! ### Resources -/

/-- What the chunks nested in a package chunk of a plan refer to, with the given global strings. -/
def Layout.PackagePlan.scope (plan : Layout.PackagePlan) (data : ByteArray)
    (strings : OrderedMap Int Text) : PackageScope where
  data := data
  packageId := plan.id
  typeNames := plan.typeNames
  keyNames := plan.keyNames
  strings := strings

namespace PackageScope

variable {data : ByteArray} {strings : OrderedMap Int Text} {texts : List Text}

theorem typeName_scope (plan : Layout.PackagePlan) (id : Nat) :
    (plan.scope data strings).typeName id = plan.typeName id := by
  unfold typeName typeName? Layout.PackagePlan.typeName
  split <;> rfl

theorem yields_readEntry (hstrings : Numbered strings texts) (plan : Layout.PackagePlan)
    (typeId : Nat) {entry : Layout.EntryPlan} (hentry : entry.Storable) {place : EntryPlace}
    (h : Holds data place.offset (Layout.entry entry))
    (hsize : (Layout.entry entry).length < 4294967296)
    (hnumber : (place.entry : Int) % 0x10000 = (entry.number : Int) % 0x10000) :
    Yields ((plan.scope data strings).readEntry typeId place)
      (entry.resource? texts plan typeId) := by
  obtain ⟨header, result, hheader, hkey, hresult, hvalue⟩ :=
    Entry.readsAs_of_holds hstrings ((plan.scope data strings).typeName typeId) h hsize hentry
  rw [typeName_scope] at hvalue
  unfold readEntry Layout.EntryPlan.resource?
  refine .bind hheader (.bind hresult ?_)
  rw [← hvalue, ← hkey]
  cases result with
  | error refusal => exact .bind (.note _) (.pure none)
  | ok value =>
    have hid : ResourceId.join ⟨plan.id, typeId, place.entry⟩ =
        ResourceId.join ⟨plan.id, typeId, entry.number⟩ := by
      simp only [ResourceId.join, hnumber]
    simp only [Except.toOption, Option.map_some, ← hid]
    exact .pure _

end PackageScope
end CompiledResources
