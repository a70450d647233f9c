import CompiledResources.Layout.Qualifiers
import CompiledResources.Proofs.Placement

/-!
Configuration records from their bytes: reading a record that stands somewhere in a buffer gives
what the record keeps of the qualifiers that were laid out, at every size at which reading stops
with the record.
-/

namespace CompiledResources

namespace Layout

/-- The fields of a record that hold numbers, with their widths. -/
def numberFields (q : Qualifiers) : List (Nat × Int) :=
  [(2, q.mcc), (2, q.mnc), (1, q.orientation), (1, q.touchscreen), (2, q.density),
    (1, q.keyboard), (1, q.navigation), (1, q.inputFlags), (1, q.inputPad), (2, q.screenWidth),
    (2, q.screenHeight), (2, q.sdkVersion), (2, q.minorVersion), (1, q.screenLayout),
    (1, q.uiMode), (2, q.smallestWidth), (2, q.availableWidth), (2, q.availableHeight)]

/-- The fields of a record that hold characters, with their widths. -/
def charsFields (q : Qualifiers) : List (Nat × Text) :=
  [(2, q.language), (2, q.country), (4, q.script), (8, q.variant)]

/-- The qualifiers have room in their record: reading stops where the record ends, and every field
has room for what it holds. -/
structure Recordable (q : Qualifiers) : Prop where
  staged : (Qualifiers.extent q.size.toNat : Int) = q.size
  size : q.size < 4294967296
  numbers : ∀ field ∈ numberFields q, 0 ≤ field.2 ∧ field.2 < Bytes.capacity field.1
  lengths : ∀ field ∈ charsFields q, field.2.length ≤ field.1
  bytes : ∀ field ∈ charsFields q, ∀ u ∈ field.2.units, u.toNat < 256

instance (q : Qualifiers) : Decidable (Recordable q) :=
  have (units : List UInt16) : Decidable (∀ u ∈ units, u.toNat < 256) := List.decidableBAll _ _
  decidable_of_iff
    ((Qualifiers.extent q.size.toNat : Int) = q.size ∧ q.size < 4294967296 ∧
      (∀ field ∈ numberFields q, 0 ≤ field.2 ∧ field.2 < Bytes.capacity field.1) ∧
      (∀ field ∈ charsFields q, field.2.length ≤ field.1) ∧
      ∀ field ∈ charsFields q, ∀ u ∈ field.2.units, u.toNat < 256)
    ⟨fun ⟨staged, size, numbers, lengths, bytes⟩ => ⟨staged, size, numbers, lengths, bytes⟩,
      fun h => ⟨h.staged, h.size, h.numbers, h.lengths, h.bytes⟩⟩

theorem Recordable.stages {q : Qualifiers} (hq : Recordable q) :
    q.size = 28 ∨ q.size = 32 ∨ q.size = 36 ∨ q.size = 40 ∨ 48 ≤ q.size := by
  have hstaged := hq.staged
  unfold Qualifiers.extent at hstaged
  repeat' split at hstaged
  all_goals omega

end Layout

/-! ### Single fields -/

theorem Holds.numberField {data : ByteArray} {offset : Int} {width : Nat} {n : Int}
    (h : Holds data offset (Layout.numberField width n)) (hn : 0 ≤ n ∧ n < Bytes.capacity width) :
    Bytes.numberAt width data offset = .ok n.toNat := by
  have hmod : n % Bytes.capacity width = n := Int.emod_eq_of_lt hn.1 hn.2
  have hlt : n.toNat < Bytes.capacity width := (Int.toNat_lt hn.1).mpr hn.2
  rw [Layout.numberField, hmod] at h
  rw [h.numberAt, Nat.mod_eq_of_lt hlt]

theorem Qualifiers.charsOfField_charsField {width : Nat} {t : Text} (hlength : t.length ≤ width)
    (hbytes : ∀ u ∈ t.units, u.toNat < 256) :
    Qualifiers.charsOfField (Layout.charsField width t) = Layout.keptChars t := by
  have htake : (t.units.map fun u => UInt8.ofNat u.toNat).take width =
      t.units.map fun u => UInt8.ofNat u.toNat :=
    List.take_of_length_le (by rw [List.length_map]; exact hlength)
  have hunits : (t.units.map fun u => UInt8.ofNat u.toNat).map UInt8.toUInt16 = t.units := by
    rw [List.map_map]
    refine (List.map_congr_left fun u hu => ?_).trans (List.map_id _)
    rw [← UInt16.toNat_inj]
    have hbyte := hbytes u hu
    simp
    omega
  have hzeros : (List.replicate (width - t.length) (0 : UInt8)).map UInt8.toUInt16 =
      List.replicate (width - t.length) 0 := List.map_replicate
  have hstrip : ((t.units ++ List.replicate (width - t.length) 0).reverse.dropWhile (· == 0)) =
      t.units.reverse.dropWhile (· == 0) := by
    rw [List.reverse_append, List.reverse_replicate]
    exact List.dropWhile_append_of_pos fun u hu => by simpa using List.eq_of_mem_replicate hu
  rw [Qualifiers.charsOfField, Layout.charsField, htake, List.map_append, hunits, hzeros,
    Text.stripEnd, hstrip]
  rfl

theorem Holds.charsField {data : ByteArray} {offset : Int} {width : Nat} {t : Text}
    (h : Holds data offset (Layout.charsField width t)) (hlength : t.length ≤ width)
    (hbytes : ∀ u ∈ t.units, u.toNat < 256) :
    Qualifiers.charsAt data offset width = .ok (Layout.keptChars t) := by
  have hwidth : (Layout.charsField width t).length = width := by
    rw [Layout.charsField, List.length_append, List.length_take, List.length_map,
      List.length_replicate]
    unfold Text.length at *
    omega
  have hread := h.bytesAt
  rw [hwidth] at hread
  rw [Qualifiers.charsAt, hread]
  exact congrArg Except.ok (Qualifiers.charsOfField_charsField hlength hbytes)

/-! ### Groups of fields -/

namespace Layout

@[simp] theorem length_numberField (width : Nat) (n : Int) :
    (numberField width n).length = width :=
  length_number ..

@[simp] theorem length_charsField (width : Nat) (t : Text) :
    (charsField width t).length = width := by
  rw [charsField, List.length_append, List.length_take, List.length_map, List.length_replicate]
  unfold Text.length
  omega

/-- The fields that every record has. -/
def baseFields (q : Qualifiers) : List UInt8 :=
  numberField 4 q.size ++ numberField 2 q.mcc ++ numberField 2 q.mnc ++
    charsField 2 q.language ++ charsField 2 q.country ++
    numberField 1 q.orientation ++ numberField 1 q.touchscreen ++ numberField 2 q.density ++
    numberField 1 q.keyboard ++ numberField 1 q.navigation ++
    numberField 1 q.inputFlags ++ numberField 1 q.inputPad ++
    numberField 2 q.screenWidth ++ numberField 2 q.screenHeight ++
    numberField 2 q.sdkVersion ++ numberField 2 q.minorVersion

/-- The fields of bytes 28 to 32. -/
def screenFields (q : Qualifiers) : List UInt8 :=
  numberField 1 q.screenLayout ++ numberField 1 q.uiMode ++ numberField 2 q.smallestWidth

/-- The fields of bytes 32 to 36. -/
def availableFields (q : Qualifiers) : List UInt8 :=
  numberField 2 q.availableWidth ++ numberField 2 q.availableHeight

theorem length_baseFields (q : Qualifiers) : (baseFields q).length = 28 := by
  simp only [baseFields, List.length_append, length_numberField, length_charsField]

theorem length_screenFields (q : Qualifiers) : (screenFields q).length = 4 := by
  simp only [screenFields, List.length_append, length_numberField]

theorem length_availableFields (q : Qualifiers) : (availableFields q).length = 4 := by
  simp only [availableFields, List.length_append, length_numberField]

/-- A record is the beginning of its groups, one behind another, and of zeros. -/
theorem qualifiers_eq (q : Qualifiers) :
    qualifiers q =
      (baseFields q ++ (screenFields q ++ (availableFields q ++ (charsField 4 q.script ++
        (charsField 8 q.variant ++ List.replicate (q.size.toNat - 48) 0))))).take
          q.size.toNat := by
  have hfields : allFields q = baseFields q ++ (screenFields q ++ (availableFields q ++
      (charsField 4 q.script ++ charsField 8 q.variant))) := by
    unfold allFields baseFields screenFields availableFields
    simp only [List.append_assoc]
  have hlength : (allFields q).length = 48 := by
    simp only [hfields, List.length_append, length_baseFields, length_screenFields,
      length_availableFields, length_charsField]
  change (allFields q ++ List.replicate (q.size.toNat - (allFields q).length) 0).take _ = _
  rw [hlength, hfields]
  simp only [List.append_assoc]

theorem length_qualifiers (q : Qualifiers) : (qualifiers q).length = q.size.toNat := by
  rw [qualifiers_eq, List.length_take]
  simp only [List.length_append, length_baseFields, length_screenFields, length_availableFields,
    length_charsField, List.length_replicate]
  omega

end Layout

/-- Of bytes that are cut, those before the cut stand whole. -/
theorem Holds.take_append {data : ByteArray} {offset : Int} {first second : List UInt8} {n : Nat}
    (h : Holds data offset ((first ++ second).take n)) (hn : first.length ≤ n) :
    Holds data offset first ∧
      Holds data (offset + first.length) (second.take (n - first.length)) := by
  rw [List.take_append, List.take_of_length_le hn, Holds.append_iff] at h
  exact h

namespace Qualifiers

variable {data : ByteArray} {offset : Int} {q : Qualifiers}

theorem numberAt_of_holds (hq : Layout.Recordable q) {width : Nat} {n : Int}
    (hn : (width, n) ∈ Layout.numberFields q) (h : Holds data offset (Layout.numberField width n)) :
    Bytes.numberAt width data offset = .ok n.toNat :=
  h.numberField (hq.numbers _ hn)

theorem charsAt_of_holds (hq : Layout.Recordable q) {width : Nat} {t : Text}
    (ht : (width, t) ∈ Layout.charsFields q) (h : Holds data offset (Layout.charsField width t)) :
    charsAt data offset width = .ok (Layout.keptChars t) :=
  h.charsField (hq.lengths _ ht) (hq.bytes _ ht)

/-- Numbers that are read are natural, and so are those of a record. -/
theorem natCast_toNat (hq : Layout.Recordable q) :
    ∀ field ∈ Layout.numberFields q, (field.2.toNat : Int) = field.2 :=
  fun field hfield => Int.toNat_of_nonneg (hq.numbers field hfield).1

theorem readBase_of_holds (h : Holds data offset (Layout.baseFields q))
    (hq : Layout.Recordable q) :
    Bytes.u32At data offset = .ok q.size.toNat ∧
      readBase data offset q.size.toNat = .ok { q with
        language := Layout.keptChars q.language, country := Layout.keptChars q.country
        screenLayout := 0, uiMode := 0, smallestWidth := 0, availableWidth := 0
        availableHeight := 0, script := .empty, variant := .empty } := by
  unfold Layout.baseFields at h
  simp only [Holds.append_iff, Layout.length_numberField, Layout.length_charsField,
    List.length_append, and_assoc] at h
  obtain ⟨hsize, hmcc, hmnc, hlanguage, hcountry, horientation, htouchscreen, hdensity, hkeyboard,
    hnavigation, hinputFlags, hinputPad, hscreenWidth, hscreenHeight, hsdkVersion,
    hminorVersion⟩ := h
  have hnonneg : 0 ≤ q.size := by
    have hstages := hq.stages
    omega
  refine ⟨hsize.numberField ⟨hnonneg, hq.size⟩, ?_⟩
  have hmccRead : Bytes.u16At data (offset + 4) = .ok q.mcc.toNat :=
    numberAt_of_holds hq (by simp [Layout.numberFields]) (hmcc.at_eq (by omega))
  have hmncRead : Bytes.u16At data (offset + 6) = .ok q.mnc.toNat :=
    numberAt_of_holds hq (by simp [Layout.numberFields]) (hmnc.at_eq (by omega))
  have hlanguageRead : charsAt data (offset + 8) 2 = .ok (Layout.keptChars q.language) :=
    charsAt_of_holds hq (by simp [Layout.charsFields]) (hlanguage.at_eq (by omega))
  have hcountryRead : charsAt data (offset + 10) 2 = .ok (Layout.keptChars q.country) :=
    charsAt_of_holds hq (by simp [Layout.charsFields]) (hcountry.at_eq (by omega))
  have horientationRead : Bytes.u8At data (offset + 12) = .ok q.orientation.toNat :=
    numberAt_of_holds hq (by simp [Layout.numberFields]) (horientation.at_eq (by omega))
  have htouchscreenRead : Bytes.u8At data (offset + 13) = .ok q.touchscreen.toNat :=
    numberAt_of_holds hq (by simp [Layout.numberFields]) (htouchscreen.at_eq (by omega))
  have hdensityRead : Bytes.u16At data (offset + 14) = .ok q.density.toNat :=
    numberAt_of_holds hq (by simp [Layout.numberFields]) (hdensity.at_eq (by omega))
  have hkeyboardRead : Bytes.u8At data (offset + 16) = .ok q.keyboard.toNat :=
    numberAt_of_holds hq (by simp [Layout.numberFields]) (hkeyboard.at_eq (by omega))
  have hnavigationRead : Bytes.u8At data (offset + 17) = .ok q.navigation.toNat :=
    numberAt_of_holds hq (by simp [Layout.numberFields]) (hnavigation.at_eq (by omega))
  have hinputFlagsRead : Bytes.u8At data (offset + 18) = .ok q.inputFlags.toNat :=
    numberAt_of_holds hq (by simp [Layout.numberFields]) (hinputFlags.at_eq (by omega))
  have hinputPadRead : Bytes.u8At data (offset + 19) = .ok q.inputPad.toNat :=
    numberAt_of_holds hq (by simp [Layout.numberFields]) (hinputPad.at_eq (by omega))
  have hscreenWidthRead : Bytes.u16At data (offset + 20) = .ok q.screenWidth.toNat :=
    numberAt_of_holds hq (by simp [Layout.numberFields]) (hscreenWidth.at_eq (by omega))
  have hscreenHeightRead : Bytes.u16At data (offset + 22) = .ok q.screenHeight.toNat :=
    numberAt_of_holds hq (by simp [Layout.numberFields]) (hscreenHeight.at_eq (by omega))
  have hsdkVersionRead : Bytes.u16At data (offset + 24) = .ok q.sdkVersion.toNat :=
    numberAt_of_holds hq (by simp [Layout.numberFields]) (hsdkVersion.at_eq (by omega))
  have hminorVersionRead : Bytes.u16At data (offset + 26) = .ok q.minorVersion.toNat :=
    numberAt_of_holds hq (by simp [Layout.numberFields]) (hminorVersion.at_eq (by omega))
  simp only [readBase, hmccRead, hmncRead, hlanguageRead, hcountryRead, horientationRead,
    htouchscreenRead, hdensityRead, hkeyboardRead, hnavigationRead, hinputFlagsRead,
    hinputPadRead, hscreenWidthRead, hscreenHeightRead, hsdkVersionRead, hminorVersionRead,
    bind, Except.bind, pure, Except.pure]
  have hkept := natCast_toNat hq
  simp only [Layout.numberFields, List.forall_mem_cons] at hkept
  simp only [hkept, Int.toNat_of_nonneg hnonneg]

theorem readScreen_of_holds (h : Holds data (offset + 28) (Layout.screenFields q))
    (hq : Layout.Recordable q) (found : Qualifiers) :
    readScreen data offset found = .ok { found with
      screenLayout := q.screenLayout, uiMode := q.uiMode, smallestWidth := q.smallestWidth } := by
  simp only [Layout.screenFields, Holds.append_iff, Layout.length_numberField,
    List.length_append, and_assoc] at h
  rcases h with ⟨hlayout, hmode, hwidth⟩
  have hlayoutRead : Bytes.u8At data (offset + 28) = .ok q.screenLayout.toNat :=
    numberAt_of_holds hq (by simp [Layout.numberFields]) hlayout
  have hmodeRead : Bytes.u8At data (offset + 29) = .ok q.uiMode.toNat :=
    numberAt_of_holds hq (by simp [Layout.numberFields]) (hmode.at_eq (by omega))
  have hwidthRead : Bytes.u16At data (offset + 30) = .ok q.smallestWidth.toNat :=
    numberAt_of_holds hq (by simp [Layout.numberFields]) (hwidth.at_eq (by omega))
  have hkept := natCast_toNat hq
  simp only [Layout.numberFields, List.forall_mem_cons] at hkept
  simp only [readScreen, hlayoutRead, hmodeRead, hwidthRead, bind, Except.bind, pure, Except.pure,
    hkept]

theorem readAvailable_of_holds (h : Holds data (offset + 32) (Layout.availableFields q))
    (hq : Layout.Recordable q) (found : Qualifiers) :
    readAvailable data offset found = .ok { found with
      availableWidth := q.availableWidth, availableHeight := q.availableHeight } := by
  simp only [Layout.availableFields, Holds.append_iff, Layout.length_numberField] at h
  rcases h with ⟨hwidth, hheight⟩
  have hwidthRead : Bytes.u16At data (offset + 32) = .ok q.availableWidth.toNat :=
    numberAt_of_holds hq (by simp [Layout.numberFields]) hwidth
  have hheightRead : Bytes.u16At data (offset + 34) = .ok q.availableHeight.toNat :=
    numberAt_of_holds hq (by simp [Layout.numberFields]) (hheight.at_eq (by omega))
  have hkept := natCast_toNat hq
  simp only [Layout.numberFields, List.forall_mem_cons] at hkept
  simp only [readAvailable, hwidthRead, hheightRead, bind, Except.bind, pure, Except.pure, hkept]

theorem readScript_of_holds (h : Holds data (offset + 36) (Layout.charsField 4 q.script))
    (hq : Layout.Recordable q) (found : Qualifiers) :
    readScript data offset found = .ok { found with script := Layout.keptChars q.script } := by
  have hread : charsAt data (offset + 36) 4 = .ok (Layout.keptChars q.script) :=
    charsAt_of_holds hq (by simp [Layout.charsFields]) h
  rw [readScript, hread]
  rfl

theorem readVariant_of_holds (h : Holds data (offset + 40) (Layout.charsField 8 q.variant))
    (hq : Layout.Recordable q) (found : Qualifiers) :
    readVariant data offset found = .ok { found with variant := Layout.keptChars q.variant } := by
  have hread : charsAt data (offset + 40) 8 = .ok (Layout.keptChars q.variant) :=
    charsAt_of_holds hq (by simp [Layout.charsFields]) h
  rw [readVariant, hread]
  rfl

theorem passTrailing_of_holds {size : Nat}
    (h : Holds data (offset + 48) (List.replicate (size - 48) 0)) :
    passTrailing data offset size = pure () := by
  have hread := h.bytesAt
  rw [List.length_replicate] at hread
  have hzeros : (List.replicate (size - 48) (0 : UInt8)).any (· != 0) = false := by simp
  simp only [passTrailing, hread, Decoder.liftM_eq_ofExcept, Decoder.ofExcept_ok, pure_bind, hzeros,
    Bool.false_eq_true, if_false]

/-- Of the groups that came later, a record keeps those that are not behind its size. -/
theorem kept_of_fields {screenLayout uiMode smallestWidth availableWidth availableHeight : Int}
    {script variant : Text}
    (hscreen : screenLayout = (if q.size < 32 then 0 else q.screenLayout) ∧
      uiMode = (if q.size < 32 then 0 else q.uiMode) ∧
      smallestWidth = if q.size < 32 then 0 else q.smallestWidth)
    (havailable : availableWidth = (if q.size < 36 then 0 else q.availableWidth) ∧
      availableHeight = if q.size < 36 then 0 else q.availableHeight)
    (hscript : script = if q.size < 40 then .empty else Layout.keptChars q.script)
    (hvariant : variant = if q.size < 48 then .empty else Layout.keptChars q.variant) :
    { q with
      language := Layout.keptChars q.language, country := Layout.keptChars q.country
      screenLayout, uiMode, smallestWidth, availableWidth, availableHeight, script, variant } =
      Layout.keptQualifiers q := by
  rcases hscreen with ⟨rfl, rfl, rfl⟩
  rcases havailable with ⟨rfl, rfl⟩
  subst hscript hvariant
  rfl

/-- A record that stands at an offset is read as what it keeps of the qualifiers that it was laid
out from, up to where it ends. -/
theorem readAt_of_holds (h : Holds data offset (Layout.qualifiers q)) (hq : Layout.Recordable q) :
    readAt data offset = pure (Layout.keptQualifiers q, offset + q.size) := by
  have hstages := hq.stages
  rw [Layout.qualifiers_eq] at h
  obtain ⟨hbase, h⟩ := h.take_append (by rw [Layout.length_baseFields]; omega)
  obtain ⟨hsizeRead, hbaseRead⟩ := readBase_of_holds hbase hq
  rw [Layout.length_baseFields] at h
  simp only [readAt, hsizeRead, hbaseRead, Decoder.liftM_eq_ofExcept, Decoder.ofExcept_ok,
    pure_bind]
  -- Reading stops with the group that covers the size, and otherwise goes on to the next group.
  split
  next hlast =>
    have hsize : q.size = 28 := by omega
    rw [kept_of_fields, hsize]
    all_goals simp [hsize]
  obtain ⟨hscreen, h⟩ := h.take_append (by rw [Layout.length_screenFields]; omega)
  rw [Layout.length_screenFields] at h
  simp only [readScreen_of_holds hscreen hq, Decoder.ofExcept_ok, pure_bind]
  split
  next hlast =>
    have hsize : q.size = 32 := by omega
    rw [kept_of_fields, hsize]
    all_goals simp [hsize]
  obtain ⟨havailable, h⟩ := h.take_append (by rw [Layout.length_availableFields]; omega)
  rw [Layout.length_availableFields] at h
  have havailablePlace : Holds data (offset + 32) (Layout.availableFields q) :=
    havailable.at_eq (by omega)
  simp only [readAvailable_of_holds havailablePlace hq, Decoder.ofExcept_ok, pure_bind]
  split
  next hlast =>
    have hsize : q.size = 36 := by omega
    rw [kept_of_fields, hsize]
    all_goals simp [hsize]
  obtain ⟨hscript, h⟩ := h.take_append (by rw [Layout.length_charsField]; omega)
  rw [Layout.length_charsField] at h
  have hscriptPlace : Holds data (offset + 36) (Layout.charsField 4 q.script) :=
    hscript.at_eq (by omega)
  simp only [readScript_of_holds hscriptPlace hq, Decoder.ofExcept_ok, pure_bind]
  split
  next hlast =>
    have hsize : q.size = 40 := by omega
    rw [kept_of_fields, hsize]
    all_goals simp [hsize]
  obtain ⟨hvariant, h⟩ := h.take_append (by rw [Layout.length_charsField]; omega)
  rw [Layout.length_charsField] at h
  have hvariantPlace : Holds data (offset + 40) (Layout.charsField 8 q.variant) :=
    hvariant.at_eq (by omega)
  simp only [readVariant_of_holds hvariantPlace hq, Decoder.ofExcept_ok, pure_bind]
  have hfull : ¬ q.size < 32 ∧ ¬ q.size < 36 ∧ ¬ q.size < 40 ∧ ¬ q.size < 48 := by omega
  rcases hfull with ⟨hscreenKept, havailableKept, hscriptKept, hvariantKept⟩
  have hkept := kept_of_fields (q := q) ⟨(if_neg hscreenKept).symm, (if_neg hscreenKept).symm,
    (if_neg hscreenKept).symm⟩ ⟨(if_neg havailableKept).symm, (if_neg havailableKept).symm⟩
    (if_neg hscriptKept).symm (if_neg hvariantKept).symm
  rw [hkept]
  split
  next hlast =>
    have hstop : offset + 48 = offset + q.size := by omega
    rw [hstop]
  rw [List.take_of_length_le (by rw [List.length_replicate]; omega)] at h
  have hrest : Holds data (offset + 48) (List.replicate (q.size.toNat - 48) 0) :=
    h.at_eq (by omega)
  have hstop : offset + (q.size.toNat : Int) = offset + q.size := by omega
  rw [passTrailing_of_holds hrest, pure_bind, hstop]

end Qualifiers
end CompiledResources
