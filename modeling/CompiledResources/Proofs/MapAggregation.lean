import CompiledResources.Proofs.Characters
import CompiledResources.Proofs.Grouping

/-!
The value of a map entry, from the records that stand in a buffer. Reading them one after another
into a bag comes to grouping the values that decode under the names of their records. A record whose
value does not decode is noted and leaves no trace, and the first one that is too large ends the
reading after what the records before it noted.
-/

namespace CompiledResources

open Keyed Decoder

/-! ### Values of one name -/

namespace Value

/-- The value is a string, be it there or not. -/
def isString : Value → Bool
  | .string _ => true
  | _ => false

/-- What the values of one name come to in a type: the last of them. In the type of arrays the last
one that is no string, and an array of all of them when they all are strings. -/
def aggregate (typeName : Text) (values : List Value) : Value :=
  if typeName = Bag.arrayType then
    match (values.filter fun value => !value.isString).getLast? with
    | some value => value
    | none => .array values
  else (values.getLast?).getD .null

end Value

theorem Bag.gathers_eq (typeName : Text) (value : Value) :
    Bag.gathers typeName value = (value.isString && decide (typeName = Bag.arrayType)) := by
  cases value <;> simp [Bag.gathers, Value.isString]

namespace Slot

/-- What a name holds after the given values. -/
def ofValues (typeName : Text) (values : List Value) : Slot :=
  match (values.filter fun value => !Bag.gathers typeName value).getLast? with
  | some value => .settled value
  | none => .gathering values.toArray

/-- What a name holds after one more value. -/
def add (typeName : Text) (slot : Slot) (value : Value) : Slot :=
  match Bag.gathers typeName value, slot with
  | true, .gathering strings => .gathering (strings.push value)
  | true, .settled known => .settled known
  | false, _ => .settled value

theorem add_ofValues (typeName : Text) (values : List Value) (value : Value) :
    (ofValues typeName values).add typeName value = ofValues typeName (values ++ [value]) := by
  unfold ofValues add
  rw [List.filter_append]
  cases hgathers : Bag.gathers typeName value with
  | false => simp [hgathers]
  | true =>
    simp only [hgathers, List.filter_cons, List.filter_nil, Bool.not_true, Bool.false_eq_true,
      if_false, List.append_nil]
    cases (values.filter fun value => !Bag.gathers typeName value).getLast? with
    | none => simp
    | some known => rfl

theorem value_ofValues (typeName : Text) {values : List Value} (hvalues : values ≠ []) :
    (ofValues typeName values).value = Value.aggregate typeName values := by
  unfold ofValues Value.aggregate
  by_cases harray : typeName = Bag.arrayType
  · have hgathers (value : Value) : Bag.gathers typeName value = value.isString := by
      rw [Bag.gathers_eq, decide_eq_true harray, Bool.and_true]
    rw [if_pos harray]
    simp only [hgathers]
    cases (values.filter fun value => !value.isString).getLast? with
    | none => simp [Slot.value]
    | some value => rfl
  · have hgathers (value : Value) : Bag.gathers typeName value = false := by
      rw [Bag.gathers_eq, decide_eq_false harray, Bool.and_false]
    have hall : values.filter (fun _ => true) = values := List.filter_eq_self.mpr fun _ _ => rfl
    rw [if_neg harray]
    simp only [hgathers, Bool.not_false, hall]
    rw [List.getLast?_eq_some_getLast hvalues]
    rfl

end Slot

/-! ### The bag as groups -/

/-- A value is put into the slot of its name, or into a new one. -/
theorem Bag.add_eq_upsert (typeName : Text) (bag : Bag) (name : Text) (value : Value) :
    bag.add typeName name value =
      upsert Prod.fst name (fun row => (row.1, row.2.add typeName value))
        (name, Slot.ofValues typeName [value]) bag := by
  cases hfind : find? Prod.fst name bag with
  | none =>
    have hnew : name ∉ bag.map Prod.fst := find?_eq_none_iff.mp hfind
    have hput (slot : Slot) : OrderedMap.put bag name slot = bag ++ [(name, slot)] :=
      upsert_of_not_mem hnew
    rw [upsert_of_not_mem hnew, Bag.add, OrderedMap.get?, hfind, Slot.ofValues]
    cases hgathers : gathers typeName value <;> simp [hput, hgathers]
  | some row =>
    obtain ⟨key, slot⟩ := row
    obtain rfl : key = name := key_of_find? hfind
    have hput (slot' : Slot) (heq : slot.add typeName value = slot') :
        OrderedMap.put bag key slot' =
          upsert Prod.fst key (fun row => (row.1, row.2.add typeName value))
            (key, Slot.ofValues typeName [value]) bag :=
      upsert_congr hfind (by rw [heq])
    rw [Bag.add, OrderedMap.get?, hfind]
    cases hgathers : gathers typeName value with
    | false => exact hput _ (by simp [Slot.add, hgathers])
    | true =>
      cases slot with
      | gathering strings => exact hput _ (by simp [Slot.add, hgathers])
      | settled known =>
        -- a settled name is left as it is
        have hkept : upsert Prod.fst key (fun row => row) (key, Slot.settled known) bag = bag :=
          upsert_kept_of_mem (List.mem_map_of_mem (mem_of_find? hfind))
        exact hkept.symm.trans (upsert_congr hfind (by simp [Slot.add, hgathers]))

/-- A bag after the given values holds under each name what its values come to. -/
theorem Bag.foldl_add (typeName : Text) (items : List (Text × Value)) :
    items.foldl (fun bag item => Bag.add typeName bag item.1 item.2) [] =
      groupOn Prod.fst (fun name alike => (name, Slot.ofValues typeName (alike.map Prod.snd)))
        items := by
  have hmore (items more : List (Text × Value)) :
      more.foldl (fun bag item => Bag.add typeName bag item.1 item.2)
          (groupOn Prod.fst
            (fun name alike => (name, Slot.ofValues typeName (alike.map Prod.snd))) items) =
        groupOn Prod.fst (fun name alike => (name, Slot.ofValues typeName (alike.map Prod.snd)))
          (items ++ more) := by
    induction more generalizing items with
    | nil => rw [List.foldl_nil, List.append_nil]
    | cons item rest ih =>
      have hadd : Bag.add typeName (groupOn Prod.fst
          (fun name alike => (name, Slot.ofValues typeName (alike.map Prod.snd))) items)
          item.1 item.2 = groupOn Prod.fst
          (fun name alike => (name, Slot.ofValues typeName (alike.map Prod.snd)))
          (items ++ [item]) := by
        rw [Bag.add_eq_upsert]
        apply upsert_groupOn
        · exact fun _ _ => rfl
        · rfl
        · intro alike
          rw [Slot.add_ofValues, List.map_append, List.map_singleton]
        · rfl
      rw [List.foldl_cons, hadd, ih, List.append_assoc, List.singleton_append]
  exact hmore [] items

/-! ### Records in a buffer -/

/-- A rule that may be broken is noted where it is. -/
theorem Decoder.run_check {broken : Bool} {policy : Policy}
    (h : broken = false ∨ policy = .lenient) {rule : Rule} {offset : Int} (journal : Journal) :
    run (check broken rule offset) policy journal =
      (.ok (), journal.noting (if broken then [.violation rule offset] else [])) := by
  cases broken with
  | false => simp [check]
  | true =>
    obtain rfl : policy = .lenient := h.resolve_left (by decide)
    simp [check, Journal.noting]

/-- A record of a map: its name, and the fields of its value. -/
structure MapRecord where
  name : Nat
  size : Nat
  reserved : Nat
  code : Nat
  word : Nat
deriving DecidableEq, Repr

namespace MapRecord

/-- The record stands at an offset of a buffer. -/
structure At (data : ByteArray) (offset : Int) (record : MapRecord) : Prop where
  name : Bytes.u32At data offset = .ok record.name
  size : Bytes.u16At data (offset + 4) = .ok record.size
  reserved : Bytes.u8At data (offset + 6) = .ok record.reserved
  code : Bytes.u8At data (offset + 7) = .ok record.code
  word : Bytes.u32At data (offset + 8) = .ok record.word

/-- The value of the record is no larger than a value record, and breaks no rule that the policy
enforces. -/
structure Readable (policy : Policy) (record : MapRecord) : Prop where
  size_le : record.size ≤ ValueRecord.width
  reserved : record.reserved = 0 ∨ policy = .lenient

/-- The value of the record, or why it is not decoded. -/
def value (strings : Int → Option Text) (record : MapRecord) : Except Refusal Value :=
  Value.decode strings record.code record.word

/-- What reading the record notes: a broken rule, and a value that is not decoded. -/
def notices (strings : Int → Option Text) (offset : Int) (record : MapRecord) : List Notice :=
  (if record.reserved = 0 then [] else [.violation .valueReservedZero (offset + 6)]) ++
    match record.value strings with
    | .ok _ => []
    | .error refusal => [.recordLeftOut (Numeral.decimal record.name) refusal]

/-- What reading records notes, of which the first has the number `index`. -/
def allNotices (strings : Int → Option Text) (offset : Int) (index : Nat)
    (records : List MapRecord) : List Notice :=
  (records.zipIdx index).flatMap fun pair => pair.1.notices strings (offset + 12 * pair.2)

/-- The values of the records that decode, under their names. -/
def items (strings : Int → Option Text) (records : List MapRecord) : List (Nat × Value) :=
  records.filterMap fun record =>
    (record.value strings).toOption.map fun value => (record.name, value)

/-- The warnings that records give: one for each whose value is not decoded. -/
def warnings (strings : Int → Option Text) (records : List MapRecord) : List Notice :=
  records.filterMap fun record =>
    match record.value strings with
    | .ok _ => none
    | .error refusal => some (.recordLeftOut (Numeral.decimal record.name) refusal)

/-- What the records of a map entry hold under their names. -/
def gathered (context : Entry.Context) (records : List MapRecord) : List (Text × Value) :=
  groupOn Prod.fst
    (fun (name : Nat) alike =>
      (Numeral.decimal name, Value.aggregate context.typeName (alike.map Prod.snd)))
    (items context.strings records)

theorem items_cons_of_ok {strings : Int → Option Text} {record : MapRecord} {value : Value}
    (h : record.value strings = .ok value) (rest : List MapRecord) :
    items strings (record :: rest) = (record.name, value) :: items strings rest := by
  simp [items, h, Except.toOption]

theorem items_cons_of_error {strings : Int → Option Text} {record : MapRecord}
    {refusal : Refusal} (h : record.value strings = .error refusal) (rest : List MapRecord) :
    items strings (record :: rest) = items strings rest := by
  simp [items, h, Except.toOption]

theorem filter_warn_allNotices (strings : Int → Option Text) (offset : Int) (index : Nat)
    (records : List MapRecord) :
    (allNotices strings offset index records).filter (fun notice => notice.level = .warn) =
      warnings strings records := by
  induction records generalizing index with
  | nil => rfl
  | cons record rest ih =>
    have hcons : allNotices strings offset index (record :: rest) =
        record.notices strings (offset + 12 * index) ++
          allNotices strings offset (index + 1) rest := rfl
    have hbroken : (if record.reserved = 0 then []
        else [Notice.violation .valueReservedZero (offset + 12 * index + 6)]).filter
          (fun notice => notice.level = .warn) = [] := by
      split <;> rfl
    rw [hcons, notices, List.filter_append, List.filter_append, hbroken, ih]
    cases hvalue : record.value strings <;> simp [warnings, hvalue, Notice.level]

/-- The bag of the values that decode is the one of what their records hold. -/
theorem toValue_foldl_items (context : Entry.Context) (records : List MapRecord) :
    Bag.toValue context.typeName ((items context.strings records).foldl
      (fun bag item => Bag.add context.typeName bag (Numeral.decimal item.1) item.2) []) =
      .complex context.typeName (gathered context records) := by
  let numeral (name : Nat) : Text := Numeral.decimal name
  let named (item : Nat × Value) : Text × Value := (numeral item.1, item.2)
  have hnumeral (m n : Nat) (h : numeral m = numeral n) : m = n := Numeral.decimal_inj h
  have hnamed (item : Nat × Value) : Prod.fst (named item) = numeral (Prod.fst item) := rfl
  have hbag := Bag.foldl_add context.typeName ((items context.strings records).map named)
  rw [List.foldl_map, groupOn_map hnumeral hnamed] at hbag
  rw [Bag.toValue, hbag, gathered, groupOn, groupOn, List.map_map]
  refine congrArg (Value.complex context.typeName) (List.map_congr_left fun name hname => ?_)
  obtain ⟨item, hitem, rfl⟩ := List.mem_map.mp (mem_firsts.mp hname)
  have hmem : item ∈ (items context.strings records).filter fun other => other.1 = item.1 :=
    List.mem_filter.mpr ⟨hitem, decide_eq_true rfl⟩
  have hvalues : ((items context.strings records).filter fun other => other.1 = item.1).map
      Prod.snd ≠ [] := List.ne_nil_of_mem (List.mem_map_of_mem hmem)
  rw [Function.comp_apply, List.map_map, ← Slot.value_ofValues context.typeName hvalues]
  rfl

end MapRecord

theorem ValueRecord.run_readAt {data : ByteArray} {offset : Int} {record : MapRecord}
    (h : record.At data offset) {policy : Policy} (hrecord : record.Readable policy)
    (journal : Journal) :
    run (ValueRecord.readAt data (offset + 4)) policy journal =
      (.ok (some {
        offset := offset + 4, size := record.size, reserved := record.reserved
        code := record.code, word := record.word }),
      journal.noting
        (if record.reserved = 0 then [] else [.violation .valueReservedZero (offset + 6)])) := by
  have hwidth : ¬ width < record.size := Nat.not_lt.mpr hrecord.size_le
  have hreserved : Bytes.u8At data (offset + 4 + 2) = .ok record.reserved := by
    rw [Int.add_assoc]
    exact h.reserved
  have hcode : Bytes.u8At data (offset + 4 + 3) = .ok record.code := by
    rw [Int.add_assoc]
    exact h.code
  have hword : Bytes.u32At data (offset + 4 + 4) = .ok record.word := by
    rw [Int.add_assoc]
    exact h.word
  have hbroken : decide (record.reserved ≠ 0) = false ∨ policy = .lenient :=
    hrecord.reserved.imp_left fun hzero => by simp [hzero]
  simp only [readAt, liftM_eq_ofExcept, h.size, ofExcept_ok, pure_bind, hwidth, if_false, hreserved,
    hcode, hword]
  rw [run_bind_of_ok (run_check hbroken journal), run_pure, Int.add_assoc]
  by_cases hzero : record.reserved = 0 <;> simp [hzero]

namespace Entry

variable {context : Context} {data : ByteArray} {offset : Int} {policy : Policy}

/-- Reading records that stand one behind another puts the values that decode into the bag, notes
what there is to note, and goes on behind them. -/
theorem run_readRecords {records : List MapRecord} (more index : Nat) (bag : Bag)
    (journal : Journal)
    (hstored : ∀ i (hi : i < records.length),
      records[i].At data (offset + 12 * (index + i : Nat)))
    (hreadable : ∀ record ∈ records, record.Readable policy) :
    run (readRecords context data offset (records.length + more) index bag) policy journal =
      run (readRecords context data offset more (index + records.length)
        ((MapRecord.items context.strings records).foldl (fun bag item =>
          Bag.add context.typeName bag (Numeral.decimal item.1) item.2) bag)) policy
        (journal.noting (MapRecord.allNotices context.strings offset index records)) := by
  induction records generalizing index bag journal with
  | nil =>
    simp [MapRecord.items, MapRecord.allNotices]
  | cons record rest ih =>
    obtain ⟨hrecord, hrest⟩ := List.forall_mem_cons.mp hreadable
    have hplace : record.At data (offset + recordWidth * index) := hstored 0 (Nat.zero_lt_succ _)
    have hbehind (i : Nat) (hi : i < rest.length) :
        rest[i].At data (offset + 12 * (index + 1 + i : Nat)) := by
      have hnext := hstored (i + 1) (Nat.succ_lt_succ hi)
      rwa [List.getElem_cons_succ, Nat.add_comm i 1, ← Nat.add_assoc] at hnext
    have hcount : (record :: rest).length + more = (rest.length + more) + 1 := by
      rw [List.length_cons]
      omega
    have hindex : index + (record :: rest).length = index + 1 + rest.length := by
      rw [List.length_cons]
      omega
    rw [hcount, readRecords]
    simp only [liftM_eq_ofExcept, hplace.name, ofExcept_ok, pure_bind]
    rw [run_bind_of_ok (ValueRecord.run_readAt hplace hrecord journal)]
    have hnotices : MapRecord.allNotices context.strings offset index (record :: rest) =
        record.notices context.strings (offset + recordWidth * index) ++
          MapRecord.allNotices context.strings offset (index + 1) rest := rfl
    have hvalue : Value.decode context.strings record.code record.word =
        record.value context.strings := rfl
    simp only [hvalue]
    rw [hindex, hnotices, MapRecord.notices]
    cases hdecoded : record.value context.strings with
    | ok value =>
      rw [MapRecord.items_cons_of_ok hdecoded, List.foldl_cons, List.append_nil,
        ← Journal.noting_noting]
      exact ih _ _ _ hbehind hrest
    | error refusal =>
      rw [MapRecord.items_cons_of_error hdecoded, ← Journal.noting_noting, ← Journal.noting_noting]
      exact (run_note_bind_noting ..).trans (ih _ _ _ hbehind hrest)

/-- A map entry of which all records are readable comes to the values that decode, gathered under
their names, and notes what its records note; its warnings are those of the values that do not
decode. An entry of which a record is too large is refused with the number and the place of the
first such record, after what the records before it note. -/
theorem run_readValue_map (context : Context) {data : ByteArray} (header : EntryHeader)
    {offset : Int} {policy : Policy} {records : List MapRecord}
    (hmap : EntryHeader.isMap header.flags = true)
    (hstored : ∀ i (hi : i < records.length), records[i].At data (offset + 12 * i))
    (hreadable : ∀ record ∈ records, record.Readable policy) (journal : Journal) :
    let notices := MapRecord.allNotices context.strings offset 0 records
    notices.filter (fun notice => notice.level = .warn) =
        MapRecord.warnings context.strings records ∧
      (header.count = records.length →
        run (readValue context data header offset) policy journal =
          (.ok (.ok (.complex context.typeName (MapRecord.gathered context records))),
            journal.noting notices)) ∧
      ∀ name size, records.length < header.count →
        Bytes.u32At data (offset + 12 * records.length) = .ok name →
        Bytes.u16At data (offset + 12 * records.length + 4) = .ok size →
        ValueRecord.width < size →
        let refusal := Refusal.oversizedRecord records.length (offset + 12 * records.length)
        run (readValue context data header offset) policy journal =
            (.ok (.error refusal), journal.noting notices) ∧
          refusal.message = "map record " ++ Numeral.decimal records.length ++ " at " ++
            Numeral.hex (offset + 12 * records.length) ++ " has an oversized value" := by
  intro notices
  have hread (more : Nat) :
      run (readRecords context data offset (records.length + more) 0 []) policy journal = _ :=
    run_readRecords more 0 [] journal (by simpa using hstored) hreadable
  refine ⟨MapRecord.filter_warn_allNotices _ _ _ _, ?_, ?_⟩
  · intro hcount
    have hall : run (readRecords context data offset header.count 0 []) policy journal =
        (.ok (.ok ((MapRecord.items context.strings records).foldl (fun bag item =>
          Bag.add context.typeName bag (Numeral.decimal item.1) item.2) [])),
          journal.noting notices) := by
      rw [hcount]
      exact hread 0
    rw [readValue, if_pos hmap, run_bind_of_ok hall, ← MapRecord.toValue_foldl_items]
    rfl
  · intro name size hcount hname hsize hlarge refusal
    refine ⟨?_, rfl⟩
    obtain ⟨more, hmore⟩ := Nat.exists_eq_add_of_lt hcount
    have hstop : run (readRecords context data offset header.count 0 []) policy journal =
        (.ok (.error refusal), journal.noting notices) := by
      rw [hmore, Nat.add_assoc, hread, Nat.zero_add, readRecords]
      have hplace : Bytes.u32At data (offset + recordWidth * records.length) = .ok name := hname
      have hlarge' : Bytes.u16At data (offset + recordWidth * records.length + 4) = .ok size :=
        hsize
      simp only [liftM_eq_ofExcept, hplace, ofExcept_ok, pure_bind, ValueRecord.readAt, hlarge',
        hlarge, if_true]
      rfl
    rw [readValue, if_pos hmap, run_bind_of_ok hstop]
    rfl

end Entry

/-! ### An entry of an array type -/

namespace MapRecord

/-- Strings under two names, of which the first gets a number between them and the second one is not
in the pool, and a value of an unknown type. -/
def scores : List MapRecord :=
  [⟨1, 8, 0, 0x03, 0⟩, ⟨2, 3, 1, 0x03, 9⟩, ⟨1, 8, 0, 0x10, 4⟩, ⟨1, 8, 0, 0x03, 0⟩,
    ⟨3, 8, 0, 0x07, 0⟩]

/-- These records, and behind them the start of one that is too large. -/
def scoresData : ByteArray :=
  ⟨#[1, 0, 0, 0, 8, 0, 0, 0x03, 0, 0, 0, 0,
    2, 0, 0, 0, 3, 0, 1, 0x03, 9, 0, 0, 0,
    1, 0, 0, 0, 8, 0, 0, 0x10, 4, 0, 0, 0,
    1, 0, 0, 0, 8, 0, 0, 0x03, 0, 0, 0, 0,
    3, 0, 0, 0, 8, 0, 0, 0x07, 0, 0, 0, 0,
    4, 0, 0, 0, 16, 0]⟩

/-- They stand in a type of arrays, next to a pool of one string. -/
def scoresContext : Entry.Context where
  typeName := "array"
  strings ordinal := if ordinal = 0 then some "a" else none

theorem at_scores (i : Nat) (hi : i < scores.length) : scores[i].At scoresData (0 + 12 * i) :=
  match i, hi with
  | 0, _ => ⟨rfl, rfl, rfl, rfl, rfl⟩
  | 1, _ => ⟨rfl, rfl, rfl, rfl, rfl⟩
  | 2, _ => ⟨rfl, rfl, rfl, rfl, rfl⟩
  | 3, _ => ⟨rfl, rfl, rfl, rfl, rfl⟩
  | 4, _ => ⟨rfl, rfl, rfl, rfl, rfl⟩

theorem readable_scores : ∀ record ∈ scores, record.Readable .lenient := by
  have hsize : ∀ record ∈ scores, record.size ≤ ValueRecord.width := by decide
  exact fun record hrecord => ⟨hsize record hrecord, .inr rfl⟩

end MapRecord

open MapRecord in
theorem Entry.run_readValue_map_scores :
    let header (count : Nat) : EntryHeader :=
      { size := 16, flags := 1, key := 0, parent := 0, count }
    let journal : Journal := {
      notices := #[.violation .valueReservedZero 18, .recordLeftOut "3" (.unknownType 7)] }
    run (readValue scoresContext scoresData (header 5) 0) .lenient =
        (.ok (.ok (.complex "array" [("1", .integer 4), ("2", .array [.string none])])), journal) ∧
      run (readValue scoresContext scoresData (header 6) 0) .lenient =
        (.ok (.error (.oversizedRecord 5 60)), journal) := by
  intro header journal
  have hmap : EntryHeader.isMap 1 = true := rfl
  have hfive := run_readValue_map scoresContext (header 5) hmap at_scores readable_scores {}
  have hsix := run_readValue_map scoresContext (header 6) hmap at_scores readable_scores {}
  exact ⟨(hfive.2.1 rfl).trans rfl,
    (hsix.2.2 4 16 (by decide) rfl rfl (by decide)).1.trans rfl⟩

end CompiledResources
