import CompiledResources.Proofs.Declarations
import CompiledResources.Proofs.TrailingBytes
import CompiledResources.Proofs.TypeRoundTrip

/-!
The two forms of an index table. A dense table and a sparse one of the same numbers and offsets give
the same places. An entry that is read from an area of bytes without leaving it is read alike
wherever these bytes stand, so type chunks that differ in the form of their index tables bring the
same resources.
-/

namespace CompiledResources

open Decoder

namespace Layout

/-! ### Numbers and offsets -/

/-- The numbers and offsets can be stored in both forms: the numbers increase, are below the number
of slots and have room in 16 bits, and so have the quarters of the offsets. -/
structure Indexable (slots : Nat) (pairs : List (Nat × Nat)) : Prop where
  increasing : pairs.Pairwise fun first second => first.1 < second.1
  slots : ∀ pair ∈ pairs, pair.1 < slots
  number : ∀ pair ∈ pairs, pair.1 < 65536
  aligned : ∀ pair ∈ pairs, 4 ∣ pair.2
  offset : ∀ pair ∈ pairs, pair.2 < 4 * 65536

instance (slots : Nat) (pairs : List (Nat × Nat)) : Decidable (Indexable slots pairs) :=
  decidable_of_iff
    ((pairs.Pairwise fun first second => first.1 < second.1) ∧ (∀ pair ∈ pairs, pair.1 < slots) ∧
      (∀ pair ∈ pairs, pair.1 < 65536) ∧ (∀ pair ∈ pairs, 4 ∣ pair.2) ∧
      ∀ pair ∈ pairs, pair.2 < 4 * 65536)
    ⟨fun ⟨increasing, slots, number, aligned, offset⟩ =>
      ⟨increasing, slots, number, aligned, offset⟩,
      fun h => ⟨h.increasing, h.slots, h.number, h.aligned, h.offset⟩⟩

theorem lookup_eq_none {pairs : List (Nat × Nat)} {number : Nat}
    (h : ∀ pair ∈ pairs, pair.1 ≠ number) : pairs.lookup number = none := by
  rw [List.lookup_eq_none_iff]
  intro pair hpair
  simpa using (h pair hpair).symm

theorem mem_of_lookup {pairs : List (Nat × Nat)} {number offset : Nat}
    (h : pairs.lookup number = some offset) : (number, offset) ∈ pairs := by
  obtain ⟨before, behind, rfl, -⟩ := List.lookup_eq_some_iff.mp h
  simp

/-- Looking up one number after another comes upon the pairs in their order. -/
theorem filterMap_lookup {β : Type} (f : Nat → Nat → β) {pairs : List (Nat × Nat)}
    (hincreasing : pairs.Pairwise fun first second => first.1 < second.1) {start count : Nat}
    (hrange : ∀ pair ∈ pairs, start ≤ pair.1 ∧ pair.1 < start + count) :
    (List.range' start count).filterMap (fun number => (pairs.lookup number).map (f number)) =
      pairs.map fun pair => f pair.1 pair.2 := by
  induction pairs generalizing start count with
  | nil => simp
  | cons pair rest ih =>
    obtain ⟨number, offset⟩ := pair
    obtain ⟨hlater, hincreasing⟩ := List.pairwise_cons.mp hincreasing
    rw [List.forall_mem_cons] at hrange
    have hsplit : List.range' start count = List.range' start (number - start) ++
        number :: List.range' (number + 1) (start + count - (number + 1)) := by
      have hstart : start + (number - start) = number := by omega
      have hcount : number - start + (start + count - (number + 1) + 1) = count := by omega
      rw [← List.range'_succ, ← hcount, ← List.range'_append_1, hstart, hcount]
    have hbefore : (List.range' start (number - start)).filterMap (fun earlier =>
        (List.lookup earlier ((number, offset) :: rest)).map (f earlier)) = [] := by
      refine List.filterMap_eq_nil_iff.mpr fun earlier hearlier => ?_
      have hlt := (List.mem_range'_1.mp hearlier).2
      rw [lookup_eq_none (List.forall_mem_cons.mpr ⟨?_, fun pair hpair => ?_⟩), Option.map_none]
      · dsimp only
        omega
      · have hafter : number < pair.1 := hlater pair hpair
        omega
    have hbehind : (List.range' (number + 1) (start + count - (number + 1))).filterMap
        (fun later => (List.lookup later ((number, offset) :: rest)).map (f later)) =
        (List.range' (number + 1) (start + count - (number + 1))).filterMap
          (fun later => (rest.lookup later).map (f later)) := by
      refine List.filterMap_congr fun later hmem => ?_
      have hne : (later == number) = false := by
        have hgt := (List.mem_range'_1.mp hmem).1
        rw [beq_eq_false_iff_ne]
        omega
      rw [List.lookup_cons, hne]
    have hrest : ∀ pair ∈ rest, number + 1 ≤ pair.1 ∧
        pair.1 < number + 1 + (start + count - (number + 1)) := by
      intro pair hpair
      have hafter : number < pair.1 := hlater pair hpair
      have hend := hrange.2 pair hpair
      omega
    rw [hsplit, List.filterMap_append, hbefore, List.nil_append, List.filterMap_cons,
      List.lookup_cons_self, hbehind, ih hincreasing hrest]
    rfl

end Layout

/-! ### Places from both forms -/

namespace EntryPlace

/-- The place of a number and an offset from the base of the entries. -/
def ofPair (base : Int) (pair : Nat × Nat) : EntryPlace where
  entry := pair.1
  offset := base + pair.2

variable {data : ByteArray} {base index : Int} {slots : Nat} {pairs : List (Nat × Nat)}

theorem denseSlot_of_lookup (hpairs : Layout.Indexable slots pairs)
    (h : Holds data index (Layout.denseIndex slots pairs)) {slot : Nat} (hslot : slot < slots) :
    denseSlot data base index slot =
      .ok ((pairs.lookup slot).map fun offset => ofPair base (slot, offset)) := by
  have hnumber := Holds.item (fun _ => Layout.length_number 4 _) h
    (by rwa [List.length_range] : slot < (List.range slots).length)
  rw [List.getElem_range] at hnumber
  cases hlookup : pairs.lookup slot with
  | none =>
    rw [hlookup] at hnumber
    have hread : Bytes.u32At data (index + 4 * slot) = .ok noEntry := hnumber.u32At (by decide)
    simp only [denseSlot, hread, bind, Except.bind, if_true]
    rfl
  | some offset =>
    have hlt := hpairs.offset _ (Layout.mem_of_lookup hlookup)
    have hne : offset ≠ noEntry := by
      unfold noEntry
      omega
    rw [hlookup] at hnumber
    have hread : Bytes.u32At data (index + 4 * slot) = .ok offset :=
      Holds.u32At hnumber (by omega)
    simp only [denseSlot, hread, bind, Except.bind, if_neg hne, Option.map_some]
    rfl

theorem sparseSlot_of_pair (hpairs : Layout.Indexable slots pairs)
    (h : Holds data index (Layout.sparseIndex pairs)) {slot : Nat} (hslot : slot < pairs.length) :
    sparseSlot data base index slot = .ok (some (ofPair base pairs[slot])) := by
  have hpair := Holds.item (fun _ => by rw [List.length_append, Layout.length_number,
    Layout.length_number]) h hslot
  rw [Holds.append_iff, Layout.length_number] at hpair
  have hmem := List.getElem_mem hslot
  have hlt := hpairs.offset _ hmem
  have hdvd := hpairs.aligned _ hmem
  have hnumberRead : Bytes.u16At data (index + 4 * slot) = .ok pairs[slot].1 :=
    hpair.1.u16At (hpairs.number _ hmem)
  have hquarterRead : Bytes.u16At data (index + 4 * slot + 2) = .ok (pairs[slot].2 / 4) :=
    hpair.2.u16At (by omega)
  have hoffset : base + 4 * ((pairs[slot].2 / 4 : Nat) : Int) = base + pairs[slot].2 := by omega
  simp only [sparseSlot, hnumberRead, hquarterRead, bind, Except.bind, hoffset]
  rfl

variable {header : TypeHeader}

theorem readAll_dense (hpairs : Layout.Indexable slots pairs)
    (hdense : TypeHeader.isSparse header.flags = false) (hcount : header.entryCount = slots)
    (h : Holds data header.indexStart (Layout.denseIndex slots pairs)) :
    readAll data header =
      .ok (pairs.map (ofPair (header.chunk.start + header.entriesStart))) := by
  let base := header.chunk.start + header.entriesStart
  have hslots : collect header.entryCount (denseSlot data base header.indexStart) =
      .ok ((List.range slots).map fun slot =>
        (pairs.lookup slot).map fun offset => ofPair base (slot, offset)) := by
    refine collect_eq_ok (by rw [List.length_map, List.length_range, hcount]) fun slot hslot => ?_
    rw [List.length_map, List.length_range] at hslot
    rw [denseSlot_of_lookup hpairs h hslot, List.getElem_map, List.getElem_range]
  have hall : ((List.range slots).map fun slot =>
      (pairs.lookup slot).map fun offset => ofPair base (slot, offset)).filterMap id =
        pairs.map (ofPair base) := by
    rw [List.filterMap_map, List.range_eq_range']
    refine Layout.filterMap_lookup (fun slot offset => ofPair base (slot, offset))
      hpairs.increasing fun pair hpair => ?_
    have hslot := hpairs.slots pair hpair
    omega
  simp only [readAll, hdense, Bool.false_eq_true, if_false]
  rw [hslots]
  exact congrArg Except.ok hall

theorem readAll_sparse (hpairs : Layout.Indexable slots pairs)
    (hsparse : TypeHeader.isSparse header.flags = true) (hcount : header.entryCount = pairs.length)
    (h : Holds data header.indexStart (Layout.sparseIndex pairs)) :
    readAll data header =
      .ok (pairs.map (ofPair (header.chunk.start + header.entriesStart))) := by
  let base := header.chunk.start + header.entriesStart
  have hslots : collect header.entryCount (sparseSlot data base header.indexStart) =
      .ok (pairs.map fun pair => some (ofPair base pair)) := by
    refine collect_eq_ok (by rw [List.length_map, hcount]) fun slot hslot => ?_
    rw [List.length_map] at hslot
    rw [sparseSlot_of_pair hpairs h hslot, List.getElem_map]
  have hall : (pairs.map fun pair => some (ofPair base pair)).filterMap id =
      pairs.map (ofPair base) := by
    rw [List.filterMap_map, ← List.filterMap_eq_map]
    rfl
  simp only [readAll, hsparse, if_true]
  rw [hslots]
  exact congrArg Except.ok hall

end EntryPlace

/-! ### The same bytes at another place -/

/-- Bytes that are read from an area are read from where the area stands. -/
theorem Holds.readsAlso_numberAt {data : ByteArray} {base : Int} {area : List UInt8}
    (h : Holds data base area) (width : Nat) {offset place : Int} (hplace : place = base + offset) :
    ReadsAlso (Bytes.numberAt width ⟨area.toArray⟩ offset) (Bytes.numberAt width data place) := by
  refine .map _ fun bytes hread => ?_
  obtain ⟨⟨hstart, hend⟩, -⟩ := Bytes.fits_of_bytesAt hread
  have hsize : (⟨area.toArray⟩ : ByteArray).size = area.length := List.size_toArray
  rw [hsize] at hend
  rw [Bytes.bytesAt_slice (Holds.all area).bytesAt (by omega) (by omega)] at hread
  rw [Bytes.bytesAt_slice h.bytesAt (by omega) (by omega), ← hread]
  have hsame : (place - base).toNat = (offset - 0).toNat := by omega
  rw [hsame]

namespace Decoder

/-- What steps over the same bytes come to when one reads them alone and the other one where they
stand, `base` further on. Unless the first leaves them, both succeed alike or break the same rule at
the same of the bytes. -/
inductive Alike {α β : Type} (base : Int) (policy : Policy) (same : α → β → Prop) :
    Except Fault α → Except Fault β → Prop
  | outside (error : LayoutError) (place : Int) (other : Except Fault β) :
      Alike base policy same (.error (.layout error place)) other
  | found {a : α} {b : β} (hsame : same a b) : Alike base policy same (.ok a) (.ok b)
  | broken (rule : Rule) (place : Int) (hstrict : policy = .strict) :
      Alike base policy same (.error (.violation rule place))
        (.error (.violation rule (base + place)))

/-- A step over bytes alone and a step over the same bytes `base` further on. -/
def Moved {α β : Type} (base : Int) (same : α → β → Prop) (alone : Decoder α)
    (moved : Decoder β) : Prop :=
  ∀ policy journal journal',
    Alike base policy same (run alone policy journal).1 (run moved policy journal').1

namespace Moved

variable {α β γ δ : Type} {base : Int} {same : α → β → Prop} {same' : γ → δ → Prop}

theorem pure {a : α} {b : β} (h : same a b) :
    Moved base same (Pure.pure a : Decoder α) (Pure.pure b) :=
  fun _ _ _ => .found h

theorem bind {alone : Decoder α} {moved : Decoder β} {next : α → Decoder γ} {next' : β → Decoder δ}
    (hstep : Moved base same alone moved)
    (hnext : ∀ a b, same a b → Moved base same' (next a) (next' b)) :
    Moved base same' (alone >>= next) (moved >>= next') := by
  intro policy journal journal'
  have hfirst := hstep policy journal journal'
  cases halone : run alone policy journal with
  | mk result after =>
    cases hmoved : run moved policy journal' with
    | mk result' after' =>
      rw [halone, hmoved] at hfirst
      cases hfirst with
      | outside error place =>
        rw [run_bind_of_error halone]
        exact .outside error place _
      | found hsame =>
        rw [run_bind_of_ok halone, run_bind_of_ok hmoved]
        exact hnext _ _ hsame policy after after'
      | broken rule place hstrict =>
        rw [run_bind_of_error halone, run_bind_of_error hmoved]
        exact .broken rule place hstrict

theorem ite {c : Prop} [Decidable c] {first second : Decoder α} {first' second' : Decoder β}
    (hfirst : Moved base same first first') (hsecond : Moved base same second second') :
    Moved base same (if c then first else second) (if c then first' else second') := by
  split
  · exact hfirst
  · exact hsecond

/-- Steps that only leave notices may leave any. -/
theorem yields {alone : Decoder α} {moved : Decoder β} {a : α} {b : β} (halone : Yields alone a)
    (hmoved : Yields moved b) (h : same a b) : Moved base same alone moved := by
  intro policy journal journal'
  rw [halone policy journal, hmoved policy journal']
  exact .found h

theorem check {broken : Bool} {rule : Rule} {offset place : Int} (hplace : place = base + offset) :
    Moved base Eq (check broken rule offset) (check broken rule place) := by
  subst hplace
  intro policy journal journal'
  cases broken with
  | false => exact .found rfl
  | true =>
    cases policy with
    | strict => exact .broken rule offset rfl
    | lenient => exact .found rfl

theorem mapM {alone moved : γ → Decoder α} (hstep : ∀ item, Moved base Eq (alone item) (moved item))
    (items : List γ) : Moved base Eq (items.mapM alone) (items.mapM moved) := by
  induction items with
  | nil => exact .pure rfl
  | cons item rest ih =>
    rw [List.mapM_cons, List.mapM_cons]
    refine .bind (hstep item) fun a b hhead => .bind ih fun found found' hrest => .pure ?_
    rw [hhead, hrest]

theorem number {data : ByteArray} {area : List UInt8} (harea : Holds data base area) {width : Nat}
    {offset place : Int} (hplace : place = base + offset) {next : Nat → Decoder α}
    {next' : Nat → Decoder β} (hnext : ∀ n, Moved base same (next n) (next' n)) :
    Moved base same (ofExcept (Bytes.numberAt width ⟨area.toArray⟩ offset) >>= next)
      (ofExcept (Bytes.numberAt width data place) >>= next') := by
  cases hread : Bytes.numberAt width ⟨area.toArray⟩ offset with
  | ok n =>
    rw [harea.readsAlso_numberAt width hplace n hread]
    exact hnext n
  | error fault =>
    obtain ⟨error, place, rfl⟩ := ReadsLayout.numberAt width _ offset fault hread
    exact fun policy journal journal' => .outside error place _

end Moved
end Decoder

/-! ### Entries with the area that they are in -/

/-- What a value depends on in its record. -/
def ValueRecord.content (record : ValueRecord) : Nat × Nat := (record.code, record.word)

theorem ValueRecord.cases_of_content {found found' : Option ValueRecord}
    (h : found.map content = found'.map content) :
    (found = none ∧ found' = none) ∨ ∃ record record', found = some record ∧
      found' = some record' ∧ record.code = record'.code ∧ record.word = record'.word := by
  cases found with
  | none => exact .inl ⟨rfl, Option.map_eq_none_iff.mp h.symm⟩
  | some record =>
    obtain ⟨record', hrecord', hcontent⟩ := Option.map_eq_some_iff.mp h.symm
    obtain ⟨hcode, hword⟩ := Prod.mk.inj hcontent
    exact .inr ⟨record, record', rfl, hrecord', hcode.symm, hword.symm⟩

section

variable {data : ByteArray} {base : Int} {area : List UInt8} (harea : Holds data base area)
include harea

theorem ValueRecord.moved_readAt {offset place : Int} (hplace : place = base + offset) :
    Moved base (fun found found' => found.map content = found'.map content)
      (readAt ⟨area.toArray⟩ offset) (readAt data place) := by
  refine .number harea hplace fun size => .ite (.pure rfl) ?_
  refine .number harea (by omega) fun reserved => .bind (.check (by omega)) fun _ _ _ => ?_
  exact .number harea (by omega) fun code => .number harea (by omega) fun word => .pure rfl

theorem EntryHeader.moved_readAt {offset place : Int} (hplace : place = base + offset) :
    Moved base Eq (readAt ⟨area.toArray⟩ offset) (readAt data place) := by
  refine .number harea hplace fun size => .number harea (by omega) fun flags =>
    .number harea (by omega) fun key => ?_
  refine .bind (.yields (yields_noteFlags flags) (yields_noteFlags flags) rfl) fun _ _ _ =>
    .ite ?_ (.ite ?_ (.pure rfl))
  · exact .bind (.yields (Yields.note _) (Yields.note _) rfl) fun _ _ _ => .pure rfl
  · exact .number harea (by omega) fun parent => .number harea (by omega) fun count => .pure rfl

theorem Entry.moved_readRecords (context : Entry.Context) {offset place : Int}
    (hplace : place = base + offset) (count index : Nat) (bag : Bag) :
    Moved base (fun result result' => result.toOption = result'.toOption)
      (readRecords context ⟨area.toArray⟩ offset count index bag)
      (readRecords context data place count index bag) := by
  induction count generalizing index bag with
  | zero => exact .pure rfl
  | succ count ih =>
    refine .number harea (by omega) fun name =>
      .bind (ValueRecord.moved_readAt harea (by omega)) fun found found' hfound => ?_
    rcases ValueRecord.cases_of_content hfound with
      ⟨rfl, rfl⟩ | ⟨record, record', rfl, rfl, hcode, hword⟩
    · exact .pure rfl
    · dsimp only
      rw [hcode, hword]
      split
      · exact ih _ _
      · exact .bind (.yields (Yields.note _) (Yields.note _) rfl) fun _ _ _ => ih _ _

theorem Entry.moved_readValue (context : Entry.Context) (header : EntryHeader) {offset place : Int}
    (hplace : place = base + offset) :
    Moved base (fun result result' => result.toOption = result'.toOption)
      (readValue context ⟨area.toArray⟩ header offset) (readValue context data header place) := by
  refine .ite (.bind (moved_readRecords harea context hplace _ _ _) fun result result' h => ?_)
    (.bind (ValueRecord.moved_readAt harea hplace) fun found found' h => ?_)
  · cases result <;> cases result' <;> cases h <;> exact .pure rfl
  · rcases ValueRecord.cases_of_content h with
      ⟨rfl, rfl⟩ | ⟨record, record', rfl, rfl, hcode, hword⟩
    · exact .pure rfl
    · dsimp only
      rw [hcode, hword]
      exact .pure rfl

end

namespace PackageScope

/-- The scope over other bytes. -/
def withData (scope : PackageScope) (data : ByteArray) : PackageScope := { scope with data }

variable {data : ByteArray} {base : Int} {area : List UInt8} (harea : Holds data base area)
  (scope : PackageScope) (typeId : Nat)
include harea

theorem moved_readEntry (pair : Nat × Nat) :
    Moved base Eq ((scope.withData ⟨area.toArray⟩).readEntry typeId (.ofPair 0 pair))
      ((scope.withData data).readEntry typeId (.ofPair base pair)) := by
  have hplace : base + pair.2 = base + (0 + pair.2) := by omega
  refine .bind (EntryHeader.moved_readAt harea hplace) fun header header' heq => ?_
  subst heq
  cases header with
  | none => exact .pure rfl
  | some header =>
    have hbody : base + pair.2 + header.size = base + (0 + pair.2 + header.size) := by omega
    refine .bind (Entry.moved_readValue harea _ header hbody) fun result result' h => ?_
    cases result with
    | ok value =>
      cases result' with
      | ok value' =>
        cases h
        exact .pure rfl
      | error refusal' => cases h
    | error refusal =>
      cases result' with
      | ok value' => cases h
      | error refusal' =>
        exact .bind (.yields (Yields.note _) (Yields.note _) rfl) fun _ _ _ => .pure rfl

theorem moved_readEntries (pairs : List (Nat × Nat)) :
    Moved base Eq ((scope.withData ⟨area.toArray⟩).readEntries typeId (pairs.map (.ofPair 0)))
      ((scope.withData data).readEntries typeId (pairs.map (.ofPair base))) := by
  rw [readEntries, readEntries, List.mapM_map, List.mapM_map]
  exact .bind (.mapM (moved_readEntry harea scope typeId) pairs) fun found found' heq =>
    .pure (congrArg _ heq)

end PackageScope

/-! ### Type chunks of one entry area -/

/-- The entry lies inside the area: reading it from the bytes of the area alone does not leave
them. -/
def PackageScope.Inside (scope : PackageScope) (policy : Policy) (typeId : Nat) (area : List UInt8)
    (pair : Nat × Nat) : Prop :=
  ∀ error place,
    (run ((scope.withData ⟨area.toArray⟩).readEntry typeId (.ofPair 0 pair)) policy).1 ≠
      .error (.layout error place)

theorem Decoder.Composed.outcome_mapM_ne {α β : Type} {shown : Fault → Prop} {step : α → Decoder β}
    (hstep : ∀ a, Composed shown (step a)) {policy : Policy} {fault : Fault} {items : List α}
    (h : ∀ a ∈ items, (run (step a) policy).1 ≠ .error fault) (journal : Journal) :
    (run (items.mapM step) policy journal).1 ≠ .error fault := by
  induction items generalizing journal with
  | nil => exact fun herror => nomatch herror
  | cons item rest ih =>
    rw [List.forall_mem_cons] at h
    have hrest (b : β) : Composed shown (do
        let found ← rest.mapM step
        Pure.pure (b :: found)) := .bind (.mapM hstep rest) fun found => .pure (b :: found)
    have hlast (b : β) (found : List β) : Composed shown (Pure.pure (b :: found)) := .pure _
    rw [List.mapM_cons, outcome_bind hrest, (hstep item).outcome_eq policy journal {}]
    cases hitem : (run (step item) policy).1 with
    | error cause =>
      intro herror
      cases herror
      exact h.1 hitem
    | ok b =>
      change (run (rest.mapM step >>= fun found => Pure.pure (b :: found)) policy).1 ≠ _
      rw [outcome_bind (hlast b)]
      cases hfound : (run (rest.mapM step) policy).1 with
      | error cause =>
        intro herror
        cases herror
        exact ih h.2 {} hfound
      | ok found => exact fun herror => nomatch herror

namespace PackageScope

variable {scope : PackageScope} {policy : Policy} {typeId : Nat} {area : List UInt8}
  {pairs : List (Nat × Nat)} (hinside : ∀ pair ∈ pairs, scope.Inside policy typeId area pair)
include hinside

/-- Entries that lie inside an area are read from it without leaving it. -/
theorem outcome_readEntries_ne (error : LayoutError) (place : Int) :
    (run ((scope.withData ⟨area.toArray⟩).readEntries typeId (pairs.map (.ofPair 0))) policy).1 ≠
      .error (.layout error place) := by
  let alone := scope.withData ⟨area.toArray⟩
  have hlast (found : List (Option Resource)) : Composed (Fault.ShownBy alone.data)
      (pure (found.filterMap id)) := .pure _
  have hmap := Composed.outcome_mapM_ne
    (fun pair => alone.composed_readEntry typeId (.ofPair 0 pair))
    (fun pair hpair => hinside pair hpair error place) {}
  rw [readEntries, List.mapM_map, Composed.outcome_bind hlast]
  change (run (pairs.mapM fun pair => alone.readEntry typeId (.ofPair 0 pair)) policy).1 >>= _ ≠ _
  cases hfound :
    (run (pairs.mapM fun pair => alone.readEntry typeId (.ofPair 0 pair)) policy).1 with
  | ok found => exact fun herror => nomatch herror
  | error fault =>
    intro herror
    cases herror
    exact hmap hfound

/-- Entries that lie inside an area come to the same wherever the area stands. -/
theorem outcome_readEntries {data data' : ByteArray} {base base' : Int}
    (harea : Holds data base area) (harea' : Holds data' base' area) :
    (∃ resources,
      (run ((scope.withData data).readEntries typeId (pairs.map (.ofPair base))) policy).1 =
        .ok resources ∧
      (run ((scope.withData data').readEntries typeId (pairs.map (.ofPair base'))) policy).1 =
        .ok resources) ∨
    (policy = .strict ∧ ∃ rule place,
      (run ((scope.withData data).readEntries typeId (pairs.map (.ofPair base))) policy).1 =
        .error (.violation rule (base + place)) ∧
      (run ((scope.withData data').readEntries typeId (pairs.map (.ofPair base'))) policy).1 =
        .error (.violation rule (base' + place))) := by
  have hne := outcome_readEntries_ne hinside
  have hfirst := moved_readEntries harea scope typeId pairs policy {} {}
  have hsecond := moved_readEntries harea' scope typeId pairs policy {} {}
  generalize (run ((scope.withData ⟨area.toArray⟩).readEntries typeId (pairs.map (.ofPair 0)))
    policy).1 = alone at hne hfirst hsecond
  generalize (run ((scope.withData data).readEntries typeId (pairs.map (.ofPair base)))
    policy).1 = first at hfirst ⊢
  generalize (run ((scope.withData data').readEntries typeId (pairs.map (.ofPair base')))
    policy).1 = second at hsecond ⊢
  cases hfirst with
  | outside error place => exact absurd rfl (hne error place)
  | found hsame =>
    subst hsame
    cases hsecond with
    | found hsame' => exact .inl ⟨_, rfl, congrArg Except.ok hsame'.symm⟩
  | broken rule place hstrict =>
    cases hsecond with
    | broken _ _ _ => exact .inr ⟨hstrict, rule, place, rfl, rfl⟩

end PackageScope

/-- The header of a type chunk is read from it, and its index table and its entry area are these
bytes. -/
structure TypeHeader.Spans (data : ByteArray) (policy : Policy) (chunk : Chunk)
    (header : TypeHeader) (index area : List UInt8) : Prop where
  read : (run (TypeHeader.read data chunk) policy).1 = .ok header
  index : Holds data header.indexStart index
  area : Holds data (header.chunk.start + header.entriesStart) area

/-- A type chunk whose type is declared comes to what its entries come to. -/
theorem OpenPackage.outcome_fill_withData (scope : PackageScope) {data : ByteArray}
    {policy : Policy} {state : OpenPackage} {chunk : Chunk} {header : TypeHeader}
    {places : List EntryPlace} {result : Except Fault (List Resource)}
    (hheader : (run (TypeHeader.read data chunk) policy).1 = .ok header)
    (hplaces : EntryPlace.readAll data header = .ok places)
    (hread : (run ((scope.withData data).readEntries header.id places) policy).1 = result)
    (hid : header.id ∈ state.declared) (journal : Journal) :
    (run (fill (scope.withData data) state chunk) policy journal).1 = result.map fun resources =>
      { state with
        package := state.package.add header.id (scope.typeName header.id) header.qualifiers
          resources } := by
  have hdata : (scope.withData data).data = data := rfl
  rw [← hdata] at hheader
  rw [outcome_fill_of_mem hheader hid journal, hdata, hplaces]
  simp only [bind, Except.bind, hread]
  cases result <;> rfl

/-- The two forms of an index table agree. A dense table and a sparse one of the same numbers and
offsets give the same places, in the order of the numbers, wherever they stand. So two type chunks
of the same type, qualifiers and entry area, one with the dense table and one with the sparse one,
do the same to a package when the entries lie inside the area: they add the same resources, or,
where that is refused, break the same rule at the same of their bytes. -/
theorem Layout.Indexable.dense_sparse_agree {slots : Nat} {pairs : List (Nat × Nat)}
    (hpairs : Indexable slots pairs) :
    (∀ {data data' : ByteArray} {header header' : TypeHeader},
      TypeHeader.isSparse header.flags = false → header.entryCount = slots →
      Holds data header.indexStart (denseIndex slots pairs) →
      TypeHeader.isSparse header'.flags = true → header'.entryCount = pairs.length →
      Holds data' header'.indexStart (sparseIndex pairs) →
      EntryPlace.readAll data header =
        .ok (pairs.map (.ofPair (header.chunk.start + header.entriesStart))) ∧
      EntryPlace.readAll data' header' =
        .ok (pairs.map (.ofPair (header'.chunk.start + header'.entriesStart)))) ∧
    ∀ {data data' : ByteArray} {policy : Policy} {chunk chunk' : Chunk}
      {header header' : TypeHeader} {area : List UInt8} (scope : PackageScope),
      TypeHeader.isSparse header.flags = false → header.entryCount = slots →
      header.Spans data policy chunk (denseIndex slots pairs) area →
      TypeHeader.isSparse header'.flags = true → header'.entryCount = pairs.length →
      header'.Spans data' policy chunk' (sparseIndex pairs) area →
      header'.id = header.id → header'.qualifiers = header.qualifiers →
      (∀ pair ∈ pairs, scope.Inside policy header.id area pair) →
      (∃ resources, ∀ (state : OpenPackage) (journal : Journal), header.id ∈ state.declared →
        let filled : OpenPackage := { state with
          package := state.package.add header.id (scope.typeName header.id) header.qualifiers
            resources }
        (run (OpenPackage.fill (scope.withData data) state chunk) policy journal).1 =
          .ok filled ∧
        (run (OpenPackage.fill (scope.withData data') state chunk') policy journal).1 =
          .ok filled) ∨
      (policy = .strict ∧ ∃ rule place, ∀ (state : OpenPackage) (journal : Journal),
        header.id ∈ state.declared →
        (run (OpenPackage.fill (scope.withData data) state chunk) policy journal).1 =
          .error (.violation rule (header.chunk.start + header.entriesStart + place)) ∧
        (run (OpenPackage.fill (scope.withData data') state chunk') policy journal).1 =
          .error (.violation rule (header'.chunk.start + header'.entriesStart + place))) := by
  constructor
  · intro data data' header header' hdense hcount hindex hsparse hcount' hindex'
    exact ⟨EntryPlace.readAll_dense hpairs hdense hcount hindex,
      EntryPlace.readAll_sparse hpairs hsparse hcount' hindex'⟩
  · intro data data' policy chunk chunk' header header' area scope hdense hcount h hsparse hcount'
      h' hid hqualifiers hinside
    have hplaces := EntryPlace.readAll_dense hpairs hdense hcount h.index
    have hplaces' := EntryPlace.readAll_sparse hpairs hsparse hcount' h'.index
    rcases PackageScope.outcome_readEntries hinside h.area h'.area with
      ⟨resources, hread, hread'⟩ | ⟨hstrict, rule, place, hread, hread'⟩
    · refine .inl ⟨resources, fun state journal hdeclared => ⟨?_, ?_⟩⟩
      · rw [OpenPackage.outcome_fill_withData scope h.read hplaces hread hdeclared journal]
        rfl
      · rw [← hid] at hread' hdeclared
        rw [OpenPackage.outcome_fill_withData scope h'.read hplaces' hread' hdeclared journal, hid,
          hqualifiers]
        rfl
    · refine .inr ⟨hstrict, rule, place, fun state journal hdeclared => ⟨?_, ?_⟩⟩
      · rw [OpenPackage.outcome_fill_withData scope h.read hplaces hread hdeclared journal]
        rfl
      · rw [← hid] at hread' hdeclared
        rw [OpenPackage.outcome_fill_withData scope h'.read hplaces' hread' hdeclared journal]
        rfl

/-- A type chunk that was laid out spans its index table and its entries. -/
theorem Layout.TypePlan.spans {plan : Layout.TypePlan} {data : ByteArray} {chunk : Chunk}
    (h : Holds data chunk.start (Layout.typeChunk plan)) (hplan : plan.Storable)
    (hid : 0 < plan.id ∧ plan.id < 256) (hsize : (Layout.typeChunk plan).length < 4294967296)
    (policy : Policy) :
    (plan.header chunk).Spans data policy chunk plan.index plan.stored.flatten := by
  obtain ⟨-, -, -, -, -, -, hindex, harea⟩ := parts_of_holds h hplan hid.2 hsize
  exact ⟨by rw [TypeHeader.read_of_holds h hplan hid hsize]; rfl, hindex, harea⟩

/-- A type of four slots, of which two have an entry. -/
def Layout.TypePlan.gapped (sparse : Bool) : Layout.TypePlan where
  id := 1
  sparse := sparse
  slots := 4
  entries := [
    { number := 1, key := 0, body := .simple ⟨0x10, 5⟩ },
    { number := 3, key := 1, body := .map 0 [(2, ⟨0x10, 6⟩)] }]

open Layout TypePlan in
theorem Layout.Indexable.dense_sparse_agree_gapped :
    let pairs : List (Nat × Nat) := [(1, 0), (3, 16)]
    let data (sparse : Bool) : ByteArray := ⟨(typeChunk (gapped sparse)).toArray⟩
    let chunk (sparse : Bool) : Chunk := {
      start := 0, kind := 0x0201, headerSize := 48, size := if sparse then 100 else 108
      size_ge := by split <;> decide }
    let header (sparse : Bool) : TypeHeader := (gapped sparse).header (chunk sparse)
    let scope : PackageScope := {
      data := data false, packageId := 127, typeNames := ["id"], keyNames := ["a", "b"]
      strings := [] }
    Indexable 4 pairs ∧
      (EntryPlace.readAll (data false) (header false) = .ok (pairs.map (.ofPair 64)) ∧
        EntryPlace.readAll (data true) (header true) = .ok (pairs.map (.ofPair 56))) ∧
      ∃ resources, ∀ (state : OpenPackage) (journal : Journal), 1 ∈ state.declared →
        let filled : OpenPackage := { state with
          package := state.package.add 1 (scope.typeName 1) {} resources }
        (run (OpenPackage.fill (scope.withData (data false)) state (chunk false)) .lenient
          journal).1 = .ok filled ∧
        (run (OpenPackage.fill (scope.withData (data true)) state (chunk true)) .lenient
          journal).1 = .ok filled := by
  intro pairs data chunk header scope
  have hpairs : Indexable 4 pairs := by decide
  have hspans (sparse : Bool) : (header sparse).Spans (data sparse) .lenient (chunk sparse)
      (gapped sparse).index (gapped sparse).stored.flatten :=
    spans (Holds.all _) (by revert sparse; decide) (by revert sparse; decide)
      (by revert sparse; decide +kernel) .lenient
  have hdense : (gapped false).index = denseIndex 4 pairs := by decide +kernel
  have hsparse : (gapped true).index = sparseIndex pairs := by decide +kernel
  have hinside : ∀ pair ∈ pairs,
      scope.Inside .lenient (header false).id (gapped false).stored.flatten pair := by
    let alone := scope.withData ⟨(gapped false).stored.flatten.toArray⟩
    have hread : ∀ pair ∈ pairs,
        (run (alone.readEntry 1 (.ofPair 0 pair)) .lenient).1.toOption.isSome = true := by
      decide +kernel
    intro pair hpair error place herror
    have hsome := hread pair hpair
    rw [show (header false).id = 1 from rfl] at herror
    rw [herror] at hsome
    cases hsome
  obtain ⟨hplaces, hchunks⟩ := hpairs.dense_sparse_agree
  have hfalse := hspans false
  have htrue := hspans true
  rw [hdense] at hfalse
  rw [hsparse] at htrue
  have hflags : TypeHeader.isSparse (header false).flags = false := by decide
  have hflags' : TypeHeader.isSparse (header true).flags = true := by decide
  refine ⟨hpairs, hplaces hflags rfl hfalse.index hflags' rfl htrue.index, ?_⟩
  rcases hchunks scope hflags rfl hfalse hflags' rfl htrue rfl rfl hinside with hfill | ⟨hstrict, -⟩
  · exact hfill
  · cases hstrict

end CompiledResources
