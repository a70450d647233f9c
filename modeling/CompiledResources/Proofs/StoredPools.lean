import CompiledResources.Proofs.Characters
import CompiledResources.Proofs.PoolRoundTrip
import Mathlib.Data.List.Forall2

/-!
String pools in every arrangement. A pool that stores a list of strings is read as that list, each
string without the controls and spaces around it, whatever the encoding, the order of the string
data, and the bytes around and between them; so two pools of one list are read as the same strings.
-/

namespace CompiledResources

/-! ### Trimmed texts -/

namespace Text

/-- The second text is the first one without its longest leading and trailing runs of units in
`removed`, and otherwise unchanged. -/
structure Trims (removed : UInt16 → Bool) (whole inner : Text) : Prop where
  split : ∃ before after, whole.units = before ++ inner.units ++ after ∧
    (∀ u ∈ before, removed u = true) ∧ ∀ u ∈ after, removed u = true
  first : ∀ u ∈ inner.units.head?, removed u = false
  last : ∀ u ∈ inner.units.getLast?, removed u = false

/-- What is dropped is a run of removed units, up to a unit that is kept. -/
theorem dropWhile_exact {removed : UInt16 → Bool} {run rest : List UInt16}
    (hrun : ∀ u ∈ run, removed u = true) (hrest : ∀ u ∈ rest.head?, removed u = false) :
    (run ++ rest).dropWhile removed = rest := by
  rw [List.dropWhile_append_of_pos hrun]
  cases rest with
  | nil => rfl
  | cons u rest => exact List.dropWhile_cons_of_neg (by simp [hrest u rfl])

theorem head_dropWhile {removed : UInt16 → Bool} {units : List UInt16} :
    ∀ u ∈ (units.dropWhile removed).head?, removed u = false := by
  intro u hu
  have hhead := List.head?_dropWhile_not removed units
  rw [Option.mem_def] at hu
  rw [hu] at hhead
  exact hhead

theorem mem_takeWhile {removed : UInt16 → Bool} {units : List UInt16} :
    ∀ u ∈ units.takeWhile removed, removed u = true :=
  List.all_eq_true.mp List.all_takeWhile

/-- Stripping takes away the longest runs at both ends, and nothing else does. -/
theorem trims_iff {removed : UInt16 → Bool} {whole inner : Text} :
    Trims removed whole inner ↔ inner = whole.strip removed := by
  constructor
  · rintro ⟨⟨before, after, hsplit, hbefore, hafter⟩, hfirst, hlast⟩
    have hend : (after.reverse ++ inner.units.reverse).dropWhile removed =
        inner.units.reverse := by
      apply dropWhile_exact
      · exact fun u hu => hafter u (List.mem_reverse.mp hu)
      · rwa [List.head?_reverse]
    apply ext_units
    rw [strip, hsplit, List.append_assoc]
    cases hinner : inner.units with
    | nil =>
      -- the leading run goes on into the trailing one, and nothing is left
      have hall : ((before ++ after) ++ []).dropWhile removed = [] :=
        dropWhile_exact (List.forall_mem_append.mpr ⟨hbefore, hafter⟩) (by simp)
      rw [List.append_nil] at hall
      rw [List.nil_append, hall]
      rfl
    | cons u units =>
      have hstart : ∀ v ∈ (inner.units ++ after).head?, removed v = false := by
        rw [hinner] at hfirst ⊢
        exact hfirst
      rw [← hinner, dropWhile_exact hbefore hstart, List.reverse_append, hend,
        List.reverse_reverse]
  · rintro rfl
    -- what the first cut leaves is what the second one keeps and what it takes away
    let rest := whole.units.dropWhile removed
    let after := (rest.reverse.takeWhile removed).reverse
    have hrest : rest = (whole.strip removed).units ++ after := by
      rw [strip, ← List.reverse_append, List.takeWhile_append_dropWhile, List.reverse_reverse]
    refine ⟨⟨whole.units.takeWhile removed, after, ?_, mem_takeWhile, fun u hu => ?_⟩, ?_, ?_⟩
    · rw [List.append_assoc, ← hrest, List.takeWhile_append_dropWhile]
    · exact mem_takeWhile u (List.mem_reverse.mp hu)
    · intro u hu
      have hhead : u ∈ rest.head? := by
        rw [hrest, List.head?_append]
        simp [Option.mem_def.mp hu]
      exact head_dropWhile u hhead
    · intro u hu
      rw [strip, List.getLast?_reverse] at hu
      exact head_dropWhile u hu

end Text

/-! ### Pools that store a list of strings -/

/-- A string stands at an offset in the encoding of its pool: in UTF-16 the number of its units and
the units, whatever they are; in UTF-8 any one byte, the number of its bytes and the bytes. -/
inductive StoredString (data : ByteArray) (offset : Int) : (utf8 : Bool) → Text → Prop
  | utf16 {t : Text} (hlength : t.length < 65536)
      (h : Holds data offset
        (Layout.number 2 t.length ++ t.units.flatMap fun u => Layout.number 2 u.toNat)) :
      StoredString data offset false t
  | utf8 {s : String} (skipped : UInt8) (hlength : s.toUTF8.size < 256)
      (h : Holds data offset
        ([skipped] ++ Layout.number 1 s.toUTF8.size ++ s.toUTF8.data.toList)) :
      StoredString data offset true (Text.ofString s)

/-- What a pool says before its string data: the fields of its header, and for each string its
offset from the start of the string data. -/
structure PoolPlan where
  size : UInt32
  styleCount : UInt32
  flags : UInt32
  /-- Offset of the string data, from the start of the chunk. -/
  stringsStart : UInt32
  stylesStart : UInt32
  places : List UInt32
  size_ge : 8 ≤ size.toNat
  count_lt : places.length < 4294967296

namespace PoolPlan

/-- The encoding of the strings. -/
def utf8 (plan : PoolPlan) : Bool := plan.flags.toNat.testBit 8

/-- The header of 28 bytes and the offsets behind it. -/
def bytes (plan : PoolPlan) : List UInt8 :=
  (Layout.number 2 Chunk.stringPool ++ Layout.number 2 28 ++ Layout.number 4 plan.size.toNat) ++
    (Layout.number 4 plan.places.length ++ Layout.number 4 plan.styleCount.toNat ++
      Layout.number 4 plan.flags.toNat ++ Layout.number 4 plan.stringsStart.toNat ++
      Layout.number 4 plan.stylesStart.toNat) ++
    plan.places.flatMap fun place => Layout.number 4 place.toNat

end PoolPlan

/-- A pool at an offset stores the strings: its header stands there, and each string where the
header says, in any order, with any bytes around it. -/
structure StoresPool (data : ByteArray) (offset : Int) (plan : PoolPlan) (strings : List Text) :
    Prop where
  header : Holds data offset plan.bytes
  strings : List.Forall₂
    (fun place => StoredString data (offset + plan.stringsStart.toNat + place.toNat) plan.utf8)
    plan.places strings

namespace StringPool

variable {data : ByteArray} {offset : Int} {plan : PoolPlan} {strings : List Text}

/-- A string is read from where it stands, in either encoding. -/
theorem read_storedString {utf8 : Bool} {t : Text} (h : StoredString data offset utf8 t) :
    (if utf8 then utf8At data offset else utf16At data offset) = .ok t := by
  cases h with
  | utf16 hlength h => exact utf16At_of_holds h hlength
  | utf8 skipped hlength h =>
    rename_i s
    have hencoded : (Utf8.encode (Text.ofString s)).length = s.toUTF8.size := by
      rw [Utf8.encode_ofString]
      rfl
    have hbytes : Holds data offset ([skipped] ++
        Layout.number 1 (Utf8.encode (Text.ofString s)).length ++
        Utf8.encode (Text.ofString s)) := by
      rwa [hencoded, Utf8.encode_ofString]
    have hread := utf8At_of_holds rfl hbytes (by rwa [hencoded])
    rw [Text.wellFormed_ofString] at hread
    exact hread

/-- The header of a pool that was found where a plan stands. -/
def plannedHeader (plan : PoolPlan) (chunk : Chunk) : PoolHeader where
  chunk := chunk
  stringCount := plan.places.length
  styleCount := plan.styleCount.toNat
  sorted := plan.flags.toNat.testBit 0
  utf8 := plan.utf8
  stringsStart := plan.stringsStart.toNat
  stylesStart := plan.stylesStart.toNat

theorem chunk_of_plan (h : Holds data offset plan.bytes) :
    ∃ chunk, Chunk.readAt data offset = .ok chunk ∧ chunk.start = offset ∧
      chunk.kind = Chunk.stringPool := by
  have hfields := (Holds.append_iff.mp (Holds.append_iff.mp h).1).1
  exact ⟨_, Chunk.readAt_of_fields hfields (by decide) plan.size_ge plan.size.toNat_lt, rfl, rfl⟩

theorem readHeader_of_plan {chunk : Chunk} (h : Holds data chunk.start plan.bytes) :
    PoolHeader.read data chunk = .ok (plannedHeader plan chunk) := by
  have hfields := (Holds.append_iff.mp (Holds.append_iff.mp h).1).2
  simp only [List.length_append, Layout.length_number] at hfields
  have hword (n : UInt32) : n.toNat < 4294967296 := n.toNat_lt
  refine readHeader_of_fields hfields ?_
  simp only [List.forall_mem_cons]
  exact ⟨plan.count_lt, hword _, hword _, hword _, hword _, List.forall_mem_nil _⟩

theorem placeAt_of_plan {chunk : Chunk} (h : Holds data chunk.start plan.bytes) {i : Nat}
    (hi : i < plan.places.length) :
    Bytes.u32At data (chunk.start + 28 + 4 * i) = .ok plan.places[i].toNat := by
  have hplaces := (Holds.append_iff.mp h).2
  simp only [List.length_append, Layout.length_number] at hplaces
  have hplace := hplaces.item (fun place => Layout.length_number 4 place.toNat) hi
  exact (hplace.at_eq (by omega)).u32At plan.places[i].toNat_lt

theorem stringOf_of_stores {chunk : Chunk} (h : StoresPool data chunk.start plan strings) {i : Nat}
    (hi : i < strings.length) :
    stringOf data (plannedHeader plan chunk) i =
      .ok (strings[i].strip Text.isControlOrSpace) := by
  have hplace : i < plan.places.length := by rwa [h.strings.length_eq]
  exact stringOf_eq_ok (placeAt_of_plan h.header hplace)
    (read_storedString (h.strings.get hplace hi))

/-- A pool is read as the strings that it stores, stripped of what is around them. -/
theorem readAt_of_plan (h : StoresPool data offset plan strings) (purpose : Text) :
    ∃ pool, readAt data offset purpose = .ok pool ∧
      pool.strings = strings.map (Text.strip Text.isControlOrSpace) := by
  obtain ⟨chunk, hchunk, rfl, hkind⟩ := chunk_of_plan h.header
  have hcollect : collect plan.places.length (stringOf data (plannedHeader plan chunk)) =
      .ok (strings.map (Text.strip Text.isControlOrSpace)) := by
    refine collect_eq_ok (by rw [List.length_map, h.strings.length_eq]) fun i hi => ?_
    rw [List.length_map] at hi
    rw [List.getElem_map]
    exact stringOf_of_stores h hi
  refine ⟨⟨plannedHeader plan chunk, _⟩, ?_, rfl⟩
  simp only [readAt, hchunk, bind, Except.bind, hkind, ne_eq, not_true_eq_false, if_false, read,
    readHeader_of_plan h.header]
  simp only [plannedHeader] at hcollect ⊢
  rw [hcollect]
  rfl

/-- Reading a pool gives its strings: wherever the pool stands, whatever its encoding and the
order of its data, there are as many strings as it stores and each, at its ordinal, is the stored
one without its longest leading and trailing runs of controls and spaces; any other pool of the
same strings, in either encoding, is read as the same. -/
theorem readAt_of_stores (h : StoresPool data offset plan strings) (purpose : Text) :
    ∃ pool, readAt data offset purpose = .ok pool ∧
      List.Forall₂ (Text.Trims Text.isControlOrSpace) strings pool.strings ∧
      ∀ {data' : ByteArray} {offset' : Int} {plan' : PoolPlan} (purpose' : Text),
        StoresPool data' offset' plan' strings →
          (readAt data' offset' purpose').map (·.strings) = .ok pool.strings := by
  obtain ⟨pool, hpool, hstrings⟩ := readAt_of_plan h purpose
  refine ⟨pool, hpool, ?_, fun purpose' h' => ?_⟩
  · rw [hstrings, List.forall₂_map_right_iff, List.forall₂_same]
    exact fun t _ => Text.trims_iff.mpr rfl
  · obtain ⟨pool', hpool', hstrings'⟩ := readAt_of_plan h' purpose'
    rw [hpool', Except.map, hstrings', hstrings]

/-- A pool in UTF-16 behind a single byte, with the data of its three strings in reverse order. -/
def neighbours16 : PoolPlan where
  size := 68
  styleCount := 0
  flags := 0
  stringsStart := 40
  stylesStart := 0
  places := [18, 10, 0]
  size_ge := by decide
  count_lt := by decide

/-- A pool of the same strings in UTF-8, with a gap before the data. -/
def neighbours8 : PoolPlan where
  size := 64
  styleCount := 0
  flags := 0x101
  stringsStart := 44
  stylesStart := 0
  places := [0, 7, 11]
  size_ge := by decide
  count_lt := by decide

/-- Both pools, one behind the other. -/
def neighbours : ByteArray :=
  ⟨([0xFF] ++ neighbours16.bytes ++
    [4, 0, 0x34, 0xD8, 0x1E, 0xDD, 0x78, 0, 0, 0] ++ [2, 0, 9, 0, 32, 0, 0, 0] ++
    [4, 0, 1, 0, 0xE9, 0, 32, 0, 98, 0] ++ neighbours8.bytes ++ [7, 7, 7, 7] ++
    [0, 5, 1, 0xC3, 0xA9, 32, 98] ++ [2, 2, 9, 32] ++ [0, 6, 0xF0, 0x9D, 0x84, 0x9E, 0x78, 0, 0]
    ).toArray⟩

theorem readAt_neighbours :
    ∃ pool, readAt neighbours 1 "key strings" = .ok pool ∧
      List.Forall₂ (Text.Trims Text.isControlOrSpace) ["\x01é b", "\t ", "𝄞x\x00"]
        pool.strings ∧
      (readAt neighbours 69 "type strings").map (·.strings) = .ok pool.strings := by
  have h16 : StoresPool neighbours 1 neighbours16 ["\x01é b", "\t ", "𝄞x\x00"] := {
    header := by decide +kernel
    strings := .cons (.utf16 (by decide) (by decide +kernel))
      (.cons (.utf16 (by decide) (by decide +kernel))
      (.cons (.utf16 (by decide) (by decide +kernel)) .nil)) }
  have h8 : StoresPool neighbours 69 neighbours8 ["\x01é b", "\t ", "𝄞x\x00"] := {
    header := by decide +kernel
    strings := .cons (.utf8 0 (by decide) (by decide +kernel))
      (.cons (.utf8 2 (by decide) (by decide +kernel))
      (.cons (.utf8 0 (by decide) (by decide +kernel)) .nil)) }
  obtain ⟨pool, hpool, hstrings, hother⟩ := readAt_of_stores h16 "key strings"
  exact ⟨pool, hpool, hstrings, hother "type strings" h8⟩

end StringPool
end CompiledResources
