import CompiledResources.Layout.StringPool
import CompiledResources.Proofs.Placement
import CompiledResources.Proofs.TextRoundTrip

/-!
String pools from their bytes: reading a pool that stands somewhere in a buffer gives what the pool
keeps of the strings that were laid out, in either encoding.
-/

namespace CompiledResources

namespace Layout

/-- The text has room in a pool of the encoding: the number of its units fits in sixteen bits, or
the number of its bytes in eight. -/
structure Poolable (utf8 : Bool) (t : Text) : Prop where
  units : utf8 = false → t.length < 65536
  bytes : utf8 = true → (Utf8.encode t).length < 256

instance (utf8 : Bool) (t : Text) : Decidable (Poolable utf8 t) :=
  decidable_of_iff
    ((utf8 = false → t.length < 65536) ∧ (utf8 = true → (Utf8.encode t).length < 256))
    ⟨fun h => ⟨h.1, h.2⟩, fun h => ⟨h.units, h.bytes⟩⟩

theorem length_aligned (bytes : List UInt8) : bytes.length ≤ (aligned bytes).length := by
  rw [aligned, List.length_append]
  exact Nat.le_add_right ..

end Layout

namespace StringPool

variable {data : ByteArray} {offset : Int}

/-- Units behind their number are read whatever they are, and whatever follows. -/
theorem utf16At_of_holds {t : Text}
    (h : Holds data offset
      (Layout.number 2 t.length ++ t.units.flatMap fun u => Layout.number 2 u.toNat))
    (ht : t.length < 65536) : utf16At data offset = .ok t := by
  rw [Holds.append_iff, Layout.length_number] at h
  rcases h with ⟨hcount, hunits⟩
  rw [utf16At, hcount.u16At ht]
  change (if t.length = 0 then _ else _) = _
  split
  next hzero =>
    have hempty : t = .empty := Text.ext_units (List.eq_nil_of_length_eq_zero hzero)
    rw [hempty]
    rfl
  next =>
    have hbytes := hunits.bytesAt
    rw [Layout.length_flatMap fun _ => Layout.length_number 2 _, Nat.mul_comm] at hbytes
    have hread : Bytes.bytesAt data (offset + 2) (t.length * 2) = _ := hbytes
    rw [hread]
    have hunitsBack := unitsOfBytes_units t.units
    exact congrArg (fun units => (Except.ok ⟨units⟩ : Except Fault Text)) hunitsBack

/-- Encoded bytes behind their number are read whatever byte comes first, and whatever follows. -/
theorem utf8At_of_holds {t : Text} {skipped : List UInt8} (hskipped : skipped.length = 1)
    (h : Holds data offset
      (skipped ++ Layout.number 1 (Utf8.encode t).length ++ Utf8.encode t))
    (ht : (Utf8.encode t).length < 256) : utf8At data offset = .ok t.wellFormed := by
  simp only [Holds.append_iff, Layout.length_number, List.length_append, hskipped] at h
  rcases h with ⟨⟨-, hcount⟩, hencoded⟩
  have hlength : Bytes.u8At data (offset + 1) = .ok (Utf8.encode t).length := hcount.u8At ht
  have hbytes : Bytes.bytesAt data (offset + 2) (Utf8.encode t).length = .ok (Utf8.encode t) :=
    (hencoded.at_eq (by omega)).bytesAt
  rw [utf8At, hlength]
  change Utf8.decode <$> Bytes.bytesAt data (offset + 2) (Utf8.encode t).length = _
  rw [hbytes, ← Utf8.decode_encode]
  rfl

/-- A string is the text that stands at its offset, in the encoding of the pool, stripped. -/
theorem stringOf_eq_ok {header : PoolHeader} {ordinal place : Nat} {t : Text}
    (hplace : Bytes.u32At data (header.chunk.start + 28 + 4 * ordinal) = .ok place)
    (hstored : (if header.utf8 then utf8At data (header.chunk.start + header.stringsStart + place)
      else utf16At data (header.chunk.start + header.stringsStart + place)) = .ok t) :
    stringOf data header ordinal = .ok (t.strip Text.isControlOrSpace) := by
  simp only [stringOf, hplace, bind, Except.bind]
  cases hutf8 : header.utf8 with
  | false =>
    simp only [hutf8, Bool.false_eq_true, if_false] at hstored ⊢
    rw [hstored]
    rfl
  | true =>
    simp only [hutf8, if_true] at hstored ⊢
    rw [hstored]
    rfl

/-- The header of a pool that was laid out where a chunk was found. -/
def laidHeader (utf8 : Bool) (strings : List Text) (chunk : Chunk) : PoolHeader where
  chunk := chunk
  stringCount := strings.length
  styleCount := 0
  sorted := false
  utf8 := utf8
  stringsStart := 28 + 4 * strings.length
  stylesStart := 0

variable {utf8 : Bool} {strings : List Text} {chunk : Chunk}

theorem length_table (strings : List Text) :
    ((Layout.starts 0 (strings.map (Layout.poolString utf8))).flatMap (Layout.number 4)).length =
      4 * strings.length := by
  rw [Layout.length_flatMap (Layout.length_number 4), Layout.length_starts, List.length_map]

theorem length_stringPool (utf8 : Bool) (strings : List Text) :
    28 + 4 * strings.length ≤ (Layout.stringPool utf8 strings).length := by
  simp only [Layout.stringPool, Chunk.length_chunk, List.length_append, Layout.length_number,
    length_table]
  omega

/-- The five fields of a pool header that stand behind the chunk header are read there. -/
theorem readHeader_of_fields {stringCount styleCount flags stringsStart stylesStart : Nat}
    (h : Holds data (chunk.start + 8) (Layout.number 4 stringCount ++ Layout.number 4 styleCount ++
      Layout.number 4 flags ++ Layout.number 4 stringsStart ++ Layout.number 4 stylesStart))
    (hfields : ∀ field ∈ [stringCount, styleCount, flags, stringsStart, stylesStart],
      field < 4294967296) :
    PoolHeader.read data chunk = .ok {
      chunk, stringCount, styleCount, sorted := flags.testBit 0, utf8 := flags.testBit 8
      stringsStart, stylesStart } := by
  simp only [Holds.append_iff, Layout.length_number, List.length_append, and_assoc] at h
  simp only [List.forall_mem_cons] at hfields
  rcases h with ⟨hstringCount, hstyleCount, hflags, hstringsStart, hstylesStart⟩
  rcases hfields with ⟨hcountLt, hstylesLt, hflagsLt, hstartLt, hstylesStartLt, -⟩
  have hcountRead : Bytes.u32At data (chunk.start + 8) = .ok stringCount :=
    hstringCount.u32At hcountLt
  have hstylesRead : Bytes.u32At data (chunk.start + 12) = .ok styleCount :=
    (hstyleCount.at_eq (by omega)).u32At hstylesLt
  have hflagsRead : Bytes.u32At data (chunk.start + 16) = .ok flags :=
    (hflags.at_eq (by omega)).u32At hflagsLt
  have hstartRead : Bytes.u32At data (chunk.start + 20) = .ok stringsStart :=
    (hstringsStart.at_eq (by omega)).u32At hstartLt
  have hstylesStartRead : Bytes.u32At data (chunk.start + 24) = .ok stylesStart :=
    (hstylesStart.at_eq (by omega)).u32At hstylesStartLt
  rw [PoolHeader.read, hcountRead, hstylesRead, hflagsRead, hstartRead, hstylesStartRead]
  rfl

theorem readHeader_of_holds (h : Holds data chunk.start (Layout.stringPool utf8 strings))
    (hsize : (Layout.stringPool utf8 strings).length < 4294967296) :
    PoolHeader.read data chunk = .ok (laidHeader utf8 strings chunk) := by
  simp only [Layout.stringPool, Chunk.length_chunk, List.length_append, Layout.length_number,
    length_table] at hsize
  have hfields : Holds data (chunk.start + 8) (Layout.number 4 strings.length ++
      Layout.number 4 0 ++ Layout.number 4 (if utf8 then 0x100 else 0) ++
      Layout.number 4 (28 + 4 * strings.length) ++ Layout.number 4 0) := by
    have hbody := (Holds.append_iff.mp h).2
    simp only [List.length_append, Layout.length_number] at hbody
    exact (Holds.append_iff.mp (Holds.append_iff.mp hbody).1).1
  rw [readHeader_of_fields hfields (by cases utf8 <;> simp <;> omega)]
  cases utf8 <;> rfl

theorem stringOf_of_holds (h : Holds data chunk.start (Layout.stringPool utf8 strings))
    (hsize : (Layout.stringPool utf8 strings).length < 4294967296) {i : Nat}
    (hi : i < strings.length) (ht : Layout.Poolable utf8 strings[i]) :
    stringOf data (laidHeader utf8 strings chunk) i =
      .ok (Layout.keptString utf8 strings[i]) := by
  have hstored : i < (strings.map (Layout.poolString utf8)).length := by rwa [List.length_map]
  have haligned := Layout.length_aligned (strings.map (Layout.poolString utf8)).flatten
  simp only [Layout.stringPool, Chunk.length_chunk, List.length_append, Layout.length_number,
    length_table] at hsize
  simp only [Layout.stringPool, Layout.chunk, Layout.aligned, Holds.append_iff,
    Layout.length_number, List.length_append, and_assoc, length_table] at h
  rcases h with ⟨-, -, -, -, -, -, -, -, htable, hstrings, -⟩
  obtain ⟨place, hplace, -, hend, hpiece⟩ := hstrings.piece 0 hstored
  obtain ⟨hslot, hget⟩ := List.getElem?_eq_some_iff.mp hplace
  have hread : Bytes.u32At data (chunk.start + 28 + 4 * i) = .ok place := by
    have hnumber := Holds.item (Layout.length_number 4) htable hslot
    rw [hget] at hnumber
    exact (hnumber.at_eq (by omega)).u32At (by omega)
  have hstring : Holds data (chunk.start + (28 + 4 * strings.length : Nat) + place)
      (Layout.poolString utf8 strings[i]) := by
    rw [List.getElem_map] at hpiece
    exact hpiece.at_eq (by omega)
  refine stringOf_eq_ok hread ?_
  cases utf8 with
  | false => exact utf16At_of_holds (Holds.append_iff.mp hstring).1 (ht.units rfl)
  | true =>
    exact utf8At_of_holds (Layout.length_number 1 _) (Holds.append_iff.mp hstring).1 (ht.bytes rfl)

/-- A pool that stands where a chunk was found is read as what it keeps of its strings. -/
theorem read_of_holds (h : Holds data chunk.start (Layout.stringPool utf8 strings))
    (hsize : (Layout.stringPool utf8 strings).length < 4294967296)
    (hstrings : ∀ t ∈ strings, Layout.Poolable utf8 t) :
    read data chunk = .ok {
      header := laidHeader utf8 strings chunk
      strings := strings.map (Layout.keptString utf8) } := by
  have hcollect : collect strings.length (stringOf data (laidHeader utf8 strings chunk)) =
      .ok (strings.map (Layout.keptString utf8)) := by
    refine collect_eq_ok (List.length_map _).symm fun i hi => ?_
    rw [List.length_map] at hi
    rw [List.getElem_map]
    exact stringOf_of_holds h hsize hi (hstrings strings[i] (List.getElem_mem hi))
  have hheader := readHeader_of_holds h hsize
  simp only [read, hheader, bind, Except.bind]
  simp only [laidHeader] at hcollect ⊢
  rw [hcollect]
  rfl

theorem chunk_of_holds (h : Holds data offset (Layout.stringPool utf8 strings))
    (hsize : (Layout.stringPool utf8 strings).length < 4294967296) :
    ∃ chunk, Chunk.readAt data offset = .ok chunk ∧ chunk.start = offset ∧
      chunk.kind = Chunk.stringPool ∧ chunk.size = (Layout.stringPool utf8 strings).length := by
  obtain ⟨chunk, hread, hstart, hkind, -, hlength⟩ :=
    Chunk.readAt_of_holds h (by decide) hsize
  exact ⟨chunk, hread, hstart, hkind, hlength⟩

/-- A pool that stands at an offset is read there, whatever it is needed for. -/
theorem readAt_of_holds (h : Holds data offset (Layout.stringPool utf8 strings))
    (hsize : (Layout.stringPool utf8 strings).length < 4294967296)
    (hstrings : ∀ t ∈ strings, Layout.Poolable utf8 t) (purpose : Text) :
    ∃ pool, readAt data offset purpose = .ok pool ∧
      pool.strings = strings.map (Layout.keptString utf8) ∧
      pool.header.chunk.stop = offset + (Layout.stringPool utf8 strings).length := by
  obtain ⟨chunk, hchunk, rfl, hkind, hlength⟩ := chunk_of_holds h hsize
  refine ⟨{ header := laidHeader utf8 strings chunk, strings := _ }, ?_, rfl, ?_⟩
  · have hread := read_of_holds h hsize hstrings
    simp only [readAt, hchunk, bind, Except.bind, hkind, ne_eq, not_true_eq_false, if_false]
    exact hread
  · rw [← hlength]
    rfl

end StringPool
end CompiledResources
