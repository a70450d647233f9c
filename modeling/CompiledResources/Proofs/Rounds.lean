import CompiledResources.Proofs.Visits

/-!
How long the loops of decoding run. Every round of a loop that does not end it has taken bytes of
the buffer that no earlier round took, so the size of the buffer bounds the number of rounds,
whatever sizes and counts the bytes declare.
-/

namespace CompiledResources

open Decoder

/-! ### Loops -/

namespace Loop

variable {σ ρ : Type}

/-- Performs at most `limit` rounds, of which the next has the number `index`. A round ends the loop
with a result, or it hands on a state. Beside what the loop comes to stands the number of rounds
that were performed. -/
def run (round : Nat → σ → Except ρ σ) : (limit index : Nat) → σ → Except ρ σ × Nat
  | 0, _, state => (.ok state, 0)
  | limit + 1, index, state =>
    match round index state with
    | .ok next =>
      let (outcome, rounds) := run round limit (index + 1) next
      (outcome, rounds + 1)
    | .error result => (.error result, 1)

section

variable {round : Nat → σ → Except ρ σ} {index : Nat} {state : σ}

theorem run_of_ok {next : σ} (h : round index state = .ok next) (limit : Nat) :
    run round (limit + 1) index state =
      ((run round limit (index + 1) next).1, (run round limit (index + 1) next).2 + 1) := by
  rw [run, h]

theorem run_of_error {result : ρ} (h : round index state = .error result) (limit : Nat) :
    run round (limit + 1) index state = (.error result, 1) := by
  rw [run, h]

end

/-- Every round that does not end the loop has `width` bytes at its place in a buffer of `size`
bytes, and the place of the next round is not before their end. -/
def Takes (size width : Nat) (place : Nat → σ → Int) (round : Nat → σ → Except ρ σ) : Prop :=
  ∀ index state next, round index state = .ok next →
    Bytes.Fits size (place index state) width ∧
      place index state + width ≤ place (index + 1) next

/-- One round further on, a place is a width further on. -/
theorem stride (base : Int) (width index : Nat) :
    base + width * ((index + 1 : Nat) : Int) = base + width * index + width := by
  rw [Int.natCast_succ, Int.mul_add, Int.mul_one, Int.add_assoc]

namespace Takes

variable {size width : Nat} {place : Nat → σ → Int} {round : Nat → σ → Except ρ σ}

/-- A loop that no round ends has taken the bytes of all its rounds. -/
theorem fits_of_ok (h : Takes size width place round) {limit index : Nat} {state final : σ}
    (hrun : (run round limit index state).1 = .ok final) (hlimit : 0 < limit) :
    0 ≤ place index state ∧ place index state + width * limit ≤ size := by
  induction limit generalizing index state with
  | zero => exact absurd hlimit (Nat.lt_irrefl 0)
  | succ limit ih =>
    cases hround : round index state with
    | error result =>
      rw [run_of_error hround] at hrun
      cases hrun
    | ok next =>
      obtain ⟨⟨hstart, hend⟩, hnext⟩ := h index state next hround
      rw [run_of_ok hround] at hrun
      rw [stride]
      refine ⟨hstart, ?_⟩
      cases limit with
      | zero => simpa using hend
      | succ limit =>
        have hrest := (ih hrun (Nat.succ_pos limit)).2
        omega

/-- All rounds but the last have taken their bytes. -/
theorem place_add_le (h : Takes size width place round) (limit index : Nat) (state : σ) :
    (run round limit index state).2 ≤ 1 ∨ 0 ≤ place index state ∧
      place index state + width * (run round limit index state).2 ≤ size + width := by
  induction limit generalizing index state with
  | zero => exact .inl (Nat.zero_le 1)
  | succ limit ih =>
    cases hround : round index state with
    | error result =>
      rw [run_of_error hround]
      exact .inl (Nat.le_refl 1)
    | ok next =>
      obtain ⟨⟨hstart, hend⟩, hnext⟩ := h index state next hround
      rw [run_of_ok hround, stride]
      rcases ih (index + 1) next with hfew | ⟨-, hrest⟩
      · rcases Nat.le_one_iff_eq_zero_or_eq_one.mp hfew with hnone | hone
        · exact .inl (by omega)
        · exact .inr ⟨hstart, by rw [hone]; omega⟩
      · exact .inr ⟨hstart, by omega⟩

/-- At most as many rounds are performed as there is room for their bytes, and one that ends the
loop. -/
theorem rounds_le (h : Takes size width place round) (hwidth : 0 < width) (limit index : Nat)
    (state : σ) : (run round limit index state).2 ≤ size / width + 1 := by
  rcases h.place_add_le limit index state with hfew | ⟨hstart, hend⟩
  · exact Nat.le_trans hfew (Nat.le_add_left 1 _)
  · have hbytes : (run round limit index state).2 * width ≤ size + width := by
      rw [Nat.mul_comm]
      omega
    rw [← Nat.add_div_right size hwidth]
    exact (Nat.le_div_iff_mul_le hwidth).mpr hbytes

/-- Where more rounds are allowed than there is room for, a round ends the loop. -/
theorem exists_error (h : Takes size width place round) (hwidth : 0 < width) {limit : Nat}
    (hlimit : size / width < limit) (index : Nat) (state : σ) :
    ∃ result, (run round limit index state).1 = .error result := by
  cases hrun : (run round limit index state).1 with
  | error result => exact ⟨result, rfl⟩
  | ok final =>
    obtain ⟨hstart, hend⟩ := h.fits_of_ok hrun (Nat.zero_lt_of_lt hlimit)
    have hbytes : limit * width ≤ size := by
      rw [Nat.mul_comm]
      omega
    exact absurd ((Nat.le_div_iff_mul_le hwidth).mpr hbytes) (Nat.not_le_of_gt hlimit)

end Takes
end Loop

/-! ### Walks -/

namespace Chunk

/-- One round of a walk: it ends the walk, or it adds a chunk to those found and goes on behind
it. -/
def walkRound (data : ByteArray) (room limit : Int) (_ : Nat) (state : Int × List Chunk) :
    Except Walk (Int × List Chunk) :=
  if state.1 + room ≤ limit then
    match readAt data state.1 with
    | .ok chunk => .ok (state.1 + chunk.size, state.2 ++ [chunk])
    | .error fault => .error ⟨state.2, some fault⟩
  else .error ⟨state.2, none⟩

variable (data : ByteArray) (room limit : Int)

theorem takes_walkRound : Loop.Takes data.size 8 (fun _ state => state.1)
    (walkRound data room limit) := by
  intro index state next hround
  unfold walkRound at hround
  split at hround
  · split at hround
    next chunk hread =>
      cases hround
      have hsize := chunk.size_ge
      exact ⟨(start_of_readAt hread).2, by dsimp only; omega⟩
    next => cases hround
  · cases hround

/-- The rounds up to one that ends the walk find its chunks, one each. -/
theorem run_walkRound {rounds index : Nat} {offset : Int} {found : List Chunk} {result : Walk}
    (h : (Loop.run (walkRound data room limit) rounds index (offset, found)).1 = .error result) :
    result = ⟨found ++ (walk data room limit offset).chunks, (walk data room limit offset).fault⟩ ∧
      (Loop.run (walkRound data room limit) rounds index (offset, found)).2 =
        (walk data room limit offset).chunks.length + 1 := by
  induction rounds generalizing index offset found with
  | zero => cases h
  | succ rounds ih =>
    by_cases hroom : offset + room ≤ limit
    · cases hread : readAt data offset with
      | ok chunk =>
        have hround : walkRound data room limit index (offset, found) =
            .ok (offset + chunk.size, found ++ [chunk]) := by
          simp only [walkRound, if_pos hroom, hread]
        rw [Loop.run_of_ok hround] at h ⊢
        obtain ⟨hresult, hrounds⟩ := ih h
        rw [walk, if_pos hroom, hread]
        exact ⟨by simpa using hresult, congrArg Nat.succ hrounds⟩
      | error fault =>
        have hround : walkRound data room limit index (offset, found) =
            .error ⟨found, some fault⟩ := by
          simp only [walkRound, if_pos hroom, hread]
        rw [Loop.run_of_error hround] at h ⊢
        cases h
        rw [walk, if_pos hroom, hread]
        exact ⟨by simp, rfl⟩
    · have hround : walkRound data room limit index (offset, found) = .error ⟨found, none⟩ := by
        simp only [walkRound, if_neg hroom]
      rw [Loop.run_of_error hround] at h ⊢
      cases h
      rw [walk, if_neg hroom]
      exact ⟨by simp, rfl⟩

/-- A walk is a loop, and the buffer bounds the number of its rounds. -/
theorem walk_eq_run (offset : Int) :
    let loop := Loop.run (walkRound data room limit) (data.size / 8 + 1) 0 (offset, [])
    loop.1 = .error (walk data room limit offset) ∧
      loop.2 = (walk data room limit offset).chunks.length + 1 := by
  obtain ⟨result, hresult⟩ := (takes_walkRound data room limit).exists_error (by decide)
    (Nat.lt_succ_self (data.size / 8)) 0 (offset, [])
  obtain ⟨rfl, hrounds⟩ := run_walkRound data room limit hresult
  exact ⟨hresult, hrounds⟩

/-- The chunks of a walk have their headers inside a buffer of `size` bytes, none of which shares
bytes with another, so there are not many of them. -/
structure Walk.Spaced (size : Nat) (walk : Walk) : Prop where
  inside : ∀ chunk ∈ walk.chunks, Bytes.Fits size chunk.start 8
  apart : walk.chunks.Pairwise fun earlier later => earlier.start + 8 ≤ later.start
  few : walk.chunks.length ≤ size / 8

theorem le_start_of_mem_walk {offset : Int} {chunk : Chunk}
    (h : chunk ∈ (walk data room limit offset).chunks) :
    offset ≤ chunk.start ∧ Bytes.Fits data.size chunk.start 8 := by
  fun_induction walk data room limit offset with
  | case1 offset hroom first hread rest ih =>
    obtain ⟨hstart, hfits⟩ := start_of_readAt hread
    rcases List.mem_cons.mp h with rfl | hrest
    · rw [hstart]
      exact ⟨Int.le_refl offset, hfits⟩
    · obtain ⟨hlater, hinside⟩ := ih hrest
      exact ⟨by omega, hinside⟩
  | case2 offset hroom fault hread => cases h
  | case3 offset hroom => cases h

theorem pairwise_walk (offset : Int) :
    (walk data room limit offset).chunks.Pairwise fun earlier later =>
      earlier.start + 8 ≤ later.start := by
  fun_induction walk data room limit offset with
  | case1 offset hroom first hread rest ih =>
    refine List.pairwise_cons.mpr ⟨fun later hlater => ?_, ih⟩
    have hstart := (start_of_readAt hread).1
    have hbehind := (le_start_of_mem_walk data room limit hlater).1
    have hsize := first.size_ge
    omega
  | case2 offset hroom fault hread => exact .nil
  | case3 offset hroom => exact .nil

theorem spaced_walk (offset : Int) : (walk data room limit offset).Spaced data.size where
  inside _ hchunk := (le_start_of_mem_walk data room limit hchunk).2
  apart := pairwise_walk data room limit offset
  few := by
    have hrounds := (takes_walkRound data room limit).rounds_le (by decide) (data.size / 8 + 1) 0
      (offset, [])
    rw [(walk_eq_run data room limit offset).2] at hrounds
    exact Nat.le_of_succ_le_succ hrounds

end Chunk

/-! ### Collecting items -/

section Collecting

variable {ε α : Type}

/-- A round that collects one item. -/
def collectRound (item : Nat → Except ε α) (index : Nat) (found : Array α) : Except ε (Array α) :=
  (item index).map found.push

theorem collectFrom_eq_run (item : Nat → Except ε α) (count index : Nat) (found : Array α) :
    collectFrom item count index found = (Loop.run (collectRound item) count index found).1 := by
  induction count generalizing index found with
  | zero => rfl
  | succ count ih =>
    rw [collectFrom, Loop.run, collectRound]
    cases item index with
    | ok a => exact ih (index + 1) (found.push a)
    | error e => rfl

/-- Items are collected by a loop with a round for each. -/
theorem collect_eq_run (item : Nat → Except ε α) (count : Nat) :
    collect count item = (Loop.run (collectRound item) count 0 #[]).1.map Array.toList := by
  rw [collect, collectFrom_eq_run]

variable {item : Nat → Except ε α} {size width : Nat} {base : Int}

theorem takes_collectRound
    (h : ∀ index a, item index = .ok a → Bytes.Fits size (base + width * index) width) :
    Loop.Takes size width (fun index _ => base + width * index) (collectRound item) := by
  intro index found next hround
  cases hitem : item index with
  | error e =>
    rw [collectRound, hitem] at hround
    cases hround
  | ok a => exact ⟨h index a hitem, Int.le_of_eq (Loop.stride base width index).symm⟩

/-- Items that are all collected have all their bytes inside the buffer. -/
theorem fits_of_collect {count : Nat} {items : List α}
    (h : ∀ index a, item index = .ok a → Bytes.Fits size (base + width * index) width)
    (hitems : collect count item = .ok items) (hcount : 0 < count) :
    0 ≤ base ∧ base + width * count ≤ size := by
  rw [collect_eq_run] at hitems
  cases hrun : (Loop.run (collectRound item) count 0 #[]).1 with
  | error e =>
    rw [hrun] at hitems
    cases hitems
  | ok found => simpa using (takes_collectRound h).fits_of_ok hrun hcount

end Collecting

/-! ### Strings of a pool -/

namespace PoolHeader

theorem fits_of_read {data : ByteArray} {chunk : Chunk} {header : PoolHeader}
    (h : read data chunk = .ok header) :
    header.chunk = chunk ∧ chunk.start + 28 ≤ data.size := by
  obtain ⟨stringCount, -, h⟩ := exists_of_bind_eq_ok h
  obtain ⟨styleCount, -, h⟩ := exists_of_bind_eq_ok h
  obtain ⟨flags, -, h⟩ := exists_of_bind_eq_ok h
  obtain ⟨stringsStart, -, h⟩ := exists_of_bind_eq_ok h
  obtain ⟨stylesStart, hlast, h⟩ := exists_of_bind_eq_ok h
  cases h
  have hend := (Bytes.fits_of_numberAt hlast).1.2
  exact ⟨rfl, by omega⟩

end PoolHeader

namespace StringPool

/-- A string that is read has its offset inside the buffer. -/
theorem fits_of_stringOf {data : ByteArray} {header : PoolHeader} (ordinal : Nat) (text : Text)
    (h : stringOf data header ordinal = .ok text) :
    Bytes.Fits data.size (header.chunk.start + 28 + (4 : Nat) * ordinal) (4 : Nat) := by
  obtain ⟨place, hplace, -⟩ := exists_of_bind_eq_ok h
  exact (Bytes.fits_of_numberAt hplace).1

/-- A pool that is read has as many strings as it declares, and their offsets inside the buffer. -/
theorem bounds_of_readAt {data : ByteArray} {offset : Int} {purpose : Text} {pool : StringPool}
    (h : readAt data offset purpose = .ok pool) :
    pool.strings.length = pool.header.stringCount ∧
      0 ≤ offset ∧ offset + 28 + 4 * pool.header.stringCount ≤ data.size := by
  obtain ⟨chunk, hchunk, h⟩ := exists_of_bind_eq_ok h
  obtain ⟨rfl, hfits⟩ := Chunk.start_of_readAt hchunk
  dsimp only at h
  split at h
  · cases h
  · obtain ⟨header, hheader, h⟩ := exists_of_bind_eq_ok h
    obtain ⟨strings, hstrings, h⟩ := exists_of_bind_eq_ok h
    cases h
    obtain ⟨rfl, hend⟩ := PoolHeader.fits_of_read hheader
    refine ⟨(forall₂_of_collect hstrings).length_eq.symm.trans List.length_range, hfits.1, ?_⟩
    rcases Nat.eq_zero_or_pos header.stringCount with hnone | hsome
    · rw [hnone]
      omega
    · exact (fits_of_collect fits_of_stringOf hstrings hsome).2

end StringPool

/-! ### Slots of an index table -/

namespace EntryPlace

/-- A slot that is read lies inside the buffer. -/
theorem fits_of_slotOf {data : ByteArray} {header : TypeHeader} (slot : Nat)
    (place : Option EntryPlace) (h : slotOf data header slot = .ok place) :
    Bytes.Fits data.size (header.indexStart + (4 : Nat) * slot) (4 : Nat) := by
  unfold slotOf at h
  split at h
  · obtain ⟨entry, hentry, h⟩ := exists_of_bind_eq_ok h
    obtain ⟨quarter, hquarter, -⟩ := exists_of_bind_eq_ok h
    have hstart := (Bytes.fits_of_numberAt hentry).1.1
    have hend := (Bytes.fits_of_numberAt hquarter).1.2
    exact ⟨hstart, by omega⟩
  · obtain ⟨offset, hoffset, -⟩ := exists_of_bind_eq_ok h
    exact (Bytes.fits_of_numberAt hoffset).1

/-- An index table that is read lies inside the buffer, and each of its places has a slot there. -/
theorem bounds_of_readAll {data : ByteArray} {header : TypeHeader} {places : List EntryPlace}
    (h : readAll data header = .ok places) (hcount : 0 < header.entryCount) :
    0 ≤ header.indexStart ∧ header.indexStart + 4 * header.entryCount ≤ data.size ∧
      places.length ≤ header.entryCount := by
  rw [readAll_eq] at h
  obtain ⟨slots, hslots, h⟩ := exists_of_bind_eq_ok h
  cases h
  obtain ⟨hstart, hend⟩ := fits_of_collect fits_of_slotOf hslots hcount
  have hlength := (forall₂_of_collect hslots).length_eq
  rw [List.length_range] at hlength
  exact ⟨hstart, hend, hlength ▸ List.length_filterMap_le id slots⟩

end EntryPlace

/-! ### Records of a map -/

namespace Entry

variable (context : Entry.Context) (data : ByteArray) (offset : Int)

/-- Reads one map record into a bag. -/
def readRecord (index : Nat) (bag : Bag) : Decoder (Except Refusal Bag) := do
  let place := offset + recordWidth * index
  let name ← Bytes.u32At data place
  match ← ValueRecord.readAt data (place + 4) with
  | none => return .error (.oversizedRecord index place)
  | some record =>
    match Value.decode context.strings record.code record.word with
    | .ok value => return .ok (bag.add context.typeName (Numeral.decimal name) value)
    | .error refusal =>
      Decoder.note (.recordLeftOut (Numeral.decimal name) refusal)
      return .ok bag

/-- Records are read one after another until one is refused. -/
theorem readRecords_succ (count index : Nat) (bag : Bag) :
    readRecords context data offset (count + 1) index bag = (do
      match ← readRecord context data offset index bag with
      | .ok bag => readRecords context data offset count (index + 1) bag
      | .error refusal => return .error refusal) := by
  rw [readRecords, readRecord]
  simp only [bind_assoc]
  congr 1
  funext name
  congr 1
  funext record
  cases record with
  | none => rfl
  | some record =>
    dsimp only
    cases Value.decode context.strings record.code record.word with
    | ok value => rfl
    | error refusal => simp only [bind_assoc, pure_bind]

/-- A value record that there is has its last bytes inside the buffer. -/
theorem ensures_valueRecord (place : Int) :
    Ensures (ValueRecord.readAt data place) fun found =>
      found.isSome = true → place + ValueRecord.width ≤ data.size := by
  refine .read fun size _ => .ite (.pure fun hsome => nomatch hsome) ?_
  refine .read fun reserved _ => .after fun _ => .read fun code _ => .read fun word hword => ?_
  have hend := (Bytes.fits_of_numberAt hword).1.2
  exact .pure fun _ => by unfold ValueRecord.width; omega

/-- A record that is not refused lies inside the buffer. -/
theorem ensures_readRecord (index : Nat) (bag : Bag) :
    Ensures (readRecord context data offset index bag) fun result =>
      ∀ next, result = .ok next →
        Bytes.Fits data.size (offset + recordWidth * index) recordWidth := by
  refine .read fun name hname => .bind (ensures_valueRecord data _) fun found hfound => ?_
  have hstart := (Bytes.fits_of_numberAt hname).1.1
  cases found with
  | none => exact .pure fun next hnext => nomatch hnext
  | some record =>
    have hend := hfound rfl
    have hfits : Bytes.Fits data.size (offset + recordWidth * index) recordWidth :=
      ⟨hstart, by unfold ValueRecord.width at hend; unfold recordWidth at *; omega⟩
    dsimp only
    split
    · exact .pure fun _ _ => hfits
    · exact .after fun _ => .pure fun _ _ => hfits

/-- One round of reading records: it hands on the bag and the journal, or a refusal or a fault ends
the loop. -/
def recordRound (policy : Policy) (index : Nat) (state : Bag × Journal) :
    Except (Except Fault Refusal × Journal) (Bag × Journal) :=
  match (readRecord context data offset index state.1).run policy state.2 with
  | (.ok (.ok bag), journal) => .ok (bag, journal)
  | (.ok (.error refusal), journal) => .error (.ok refusal, journal)
  | (.error fault, journal) => .error (.error fault, journal)

/-- What the records come to when their loop is over. -/
def recordsEnd :
    Except (Except Fault Refusal × Journal) (Bag × Journal) →
      Except Fault (Except Refusal Bag) × Journal
  | .ok (bag, journal) => (.ok (.ok bag), journal)
  | .error (result, journal) => (result.map .error, journal)

/-- Records are read by a loop with a round for each. -/
theorem readRecords_eq_run (policy : Policy) (count index : Nat) (bag : Bag) (journal : Journal) :
    (readRecords context data offset count index bag).run policy journal =
      recordsEnd (Loop.run (recordRound context data offset policy) count index
        (bag, journal)).1 := by
  induction count generalizing index bag journal with
  | zero => rfl
  | succ count ih =>
    rw [readRecords_succ, run_bind, Loop.run, recordRound]
    cases (readRecord context data offset index bag).run policy journal with
    | mk outcome after =>
      cases outcome with
      | error fault => rfl
      | ok result =>
        cases result with
        | error refusal => rfl
        | ok next => exact ih (index + 1) next after

theorem takes_recordRound (policy : Policy) :
    Loop.Takes data.size recordWidth (fun index _ => offset + recordWidth * index)
      (recordRound context data offset policy) := by
  rintro index ⟨bag, journal⟩ next hround
  unfold recordRound at hround
  split at hround
  next bag' after hrun =>
    exact ⟨ensures_readRecord context data offset index bag policy journal _ _ hrun _ rfl,
      Int.le_of_eq (Loop.stride offset recordWidth index).symm⟩
  next => cases hround
  next => cases hround

variable {context data offset}

/-- A map that is decoded has all its records inside the buffer. -/
theorem bounds_of_readValue {header : EntryHeader} {policy : Policy} {journal after : Journal}
    {value : Value} (hmap : EntryHeader.isMap header.flags = true) (hcount : 0 < header.count)
    (h : (readValue context data header offset).run policy journal = (.ok (.ok value), after)) :
    0 ≤ offset ∧ offset + 12 * header.count ≤ data.size := by
  rw [readValue, if_pos hmap] at h
  obtain ⟨result, between, hrecords, h⟩ := exists_of_run_bind h
  cases result with
  | error refusal => cases h
  | ok bag =>
    rw [readRecords_eq_run] at hrecords
    cases hloop : (Loop.run (recordRound context data offset policy) header.count 0
      ([], journal)).1 with
    | error result =>
      obtain ⟨outcome, last⟩ := result
      rw [hloop] at hrecords
      cases outcome <;> cases hrecords
    | ok final =>
      simpa [recordWidth] using
        (takes_recordRound context data offset policy).fits_of_ok hloop hcount

end Entry

/-! ### What the buffer bounds -/

/-- Once its header is read, a table that the buffer holds is the chunks behind the header one after
another. -/
theorem Contents.decode_eq {data : ByteArray} {header : TableHeader}
    (hheader : TableHeader.read data = .ok header) (hstop : header.chunk.stop ≤ data.size) :
    decode data = do
      Decoder.note (.tableStart header.packageCount)
      let final ← (Chunk.walk data 8 header.chunk.stop header.chunk.headerSize).visit
        (OpenTable.enter data) {}
      return final.contents := by
  have hinside : ¬ (data.size : Int) < header.chunk.stop := Int.not_lt.mpr hstop
  simp only [decode, liftM_eq_ofExcept, hheader, ofExcept_ok, pure_bind, hinside, if_false]

/-- The loops of decoding end, and the buffer bounds what its bytes may declare. A walk along chunks
finds chunks with separate headers inside the buffer, in a loop with one round for each and one
more; decoding takes two kinds of walks, the one behind the header of the table and, in a package
chunk, the one behind its key name pool. A string pool that is read has the strings that it declares
and room for their offsets, an index table that is read has room for its slots, and a map that is
decoded has room for its records. Whether they succeed or not, the loops over the strings, the slots
and the records perform at most as many rounds as the buffer has times four bytes, and one more. -/
theorem Contents.loops_of_decode (data : ByteArray) :
    (∀ room limit offset,
      let walk := Chunk.walk data room limit offset
      let loop := Loop.run (Chunk.walkRound data room limit) (data.size / 8 + 1) 0 (offset, [])
      walk.Spaced data.size ∧ loop.1 = .error walk ∧ loop.2 = walk.chunks.length + 1) ∧
    (∀ header, TableHeader.read data = .ok header → header.chunk.stop ≤ data.size →
      let walk := Chunk.walk data 8 header.chunk.stop header.chunk.headerSize
      Contents.decode data = (do
        Decoder.note (.tableStart header.packageCount)
        let final ← walk.visit (OpenTable.enter data) {}
        return final.contents) ∧ walk.Spaced data.size) ∧
    (∀ chunk frame state, PackageFrame.read data chunk = .ok frame →
      let walk := frame.nested data chunk
      OpenTable.addPackage data state chunk = (do
        Decoder.note (.packageStart state.packageChunks frame.header.id frame.header.name)
        let final ← walk.visit (OpenPackage.enter (frame.scope data state.contents.strings))
          (frame.start state.contents.packages)
        final.package.noteSummary
        return {
          contents := { state.contents with
            packages := Keyed.upsert Package.key frame.key (fun _ => final.package) final.package
              state.contents.packages }
          packageChunks := state.packageChunks + 1 }) ∧ walk.Spaced data.size) ∧
    (∀ offset purpose pool, StringPool.readAt data offset purpose = .ok pool →
      pool.strings.length = pool.header.stringCount ∧
        0 ≤ offset ∧ offset + 28 + 4 * pool.header.stringCount ≤ data.size) ∧
    (∀ header places, EntryPlace.readAll data header = .ok places → 0 < header.entryCount →
      0 ≤ header.indexStart ∧ header.indexStart + 4 * header.entryCount ≤ data.size ∧
        places.length ≤ header.entryCount) ∧
    (∀ context header offset policy journal value after, EntryHeader.isMap header.flags = true →
      0 < header.count →
      (Entry.readValue context data header offset).run policy journal = (.ok (.ok value), after) →
        0 ≤ offset ∧ offset + 12 * header.count ≤ data.size) ∧
    (∀ header : PoolHeader,
      let loop :=
        Loop.run (collectRound (StringPool.stringOf data header)) header.stringCount 0 #[]
      collect header.stringCount (StringPool.stringOf data header) = loop.1.map Array.toList ∧
        loop.2 ≤ data.size / 4 + 1) ∧
    (∀ header : TypeHeader,
      let loop := Loop.run (collectRound (EntryPlace.slotOf data header)) header.entryCount 0 #[]
      EntryPlace.readAll data header =
          loop.1.map (fun slots => slots.toList.filterMap id) ∧
        loop.2 ≤ data.size / 4 + 1) ∧
    ∀ context offset count policy journal,
      let loop :=
        Loop.run (Entry.recordRound context data offset policy) count 0 ([], journal)
      (Entry.readRecords context data offset count 0 []).run policy journal =
          Entry.recordsEnd loop.1 ∧
        loop.2 ≤ data.size / 4 + 1 := by
  refine ⟨fun room limit offset => ?_,
    fun header hheader hstop => ⟨Contents.decode_eq hheader hstop, Chunk.spaced_walk data _ _ _⟩,
    fun chunk frame state hframe =>
      ⟨OpenTable.addPackage_eq hframe state, Chunk.spaced_walk data _ _ _⟩,
    fun offset purpose pool => StringPool.bounds_of_readAt,
    fun header places => EntryPlace.bounds_of_readAll,
    fun context header offset policy journal value after => Entry.bounds_of_readValue,
    fun header => ?_, fun header => ?_, fun context offset count policy journal => ?_⟩
  · exact ⟨Chunk.spaced_walk data room limit offset, Chunk.walk_eq_run data room limit offset⟩
  · exact ⟨collect_eq_run _ _,
      (takes_collectRound StringPool.fits_of_stringOf).rounds_le (by decide) _ _ _⟩
  · refine ⟨?_, (takes_collectRound EntryPlace.fits_of_slotOf).rounds_le (by decide) _ _ _⟩
    rw [EntryPlace.readAll_eq, collect_eq_run]
    cases (Loop.run (collectRound (EntryPlace.slotOf data header)) header.entryCount 0 #[]).1 <;>
      rfl
  · refine ⟨Entry.readRecords_eq_run context data offset policy count 0 [] journal, ?_⟩
    have hrounds := (Entry.takes_recordRound context data offset policy).rounds_le (by decide)
      count 0 ([], journal)
    exact Nat.le_trans hrounds
      (Nat.succ_le_succ (Nat.div_le_div_left (by decide) (by decide)))

/-- A pool of one string, the index table of `piecesType`, and a record of `piecesEntry`. -/
def pieces : ByteArray :=
  ⟨#[1, 0, 28, 0, 36, 0, 0, 0, 1, 0, 0, 0, 0, 0, 0, 0, 0, 1, 0, 0, 32, 0, 0, 0, 0, 0, 0, 0,
    0, 0, 0, 0, 0, 0, 0, 0,
    0, 0, 0, 0, 255, 255, 255, 255,
    1, 0, 0, 0, 8, 0, 0, 0x10, 4, 0, 0, 0]⟩

/-- A type of two entries, of which the second one is missing. -/
def piecesType : TypeHeader where
  chunk := ⟨0, Chunk.typeEntries, 84, 100, by decide⟩
  id := 1
  flags := 0
  reserved := 0
  entryCount := 2
  entriesStart := 92
  qualifiers := {}
  indexStart := 36

/-- A map of one record. -/
def piecesEntry : EntryHeader where
  size := 16
  flags := 1
  key := 0
  parent := 0
  count := 1

theorem Contents.loops_of_decode_pieces :
    (∃ pool, StringPool.readAt pieces 0 "key strings" = .ok pool ∧
      pool.strings.length = pool.header.stringCount ∧
        (0 : Int) + 28 + 4 * pool.header.stringCount ≤ pieces.size) ∧
    (EntryPlace.readAll pieces piecesType = .ok [⟨0, 92⟩] ∧
      piecesType.indexStart + 4 * piecesType.entryCount ≤ pieces.size) ∧
    (∃ value after,
      run (Entry.readValue { typeName := "id", strings _ := none } pieces piecesEntry 44) .strict =
        (.ok (.ok value), after) ∧
      (44 : Int) + 12 * piecesEntry.count ≤ pieces.size) ∧
    let data : ByteArray := ⟨Layout.TablePlan.flawed.bytes.toArray⟩
    ∃ header chunk frame, TableHeader.read data = .ok header ∧
      PackageFrame.read data chunk = .ok frame ∧
      let walk := Chunk.walk data 8 header.chunk.stop header.chunk.headerSize
      let nested := frame.nested data chunk
      chunk ∈ walk.chunks ∧ walk.Spaced data.size ∧
        nested.chunks.length = 2 ∧ nested.Spaced data.size := by
  obtain ⟨-, -, -, hpools, htables, hmaps, -⟩ := Contents.loops_of_decode pieces
  have hpool := hpools 0 "key strings" _ rfl
  have htable := htables piecesType [⟨0, 92⟩] rfl (by decide)
  have hmap := hmaps { typeName := "id", strings _ := none } piecesEntry 44 .strict {} _ _ rfl
    (by decide) rfl
  refine ⟨⟨_, rfl, hpool.1, hpool.2.2⟩, ⟨rfl, htable.2.1⟩, ⟨_, _, rfl, hmap.2⟩, ?_⟩
  intro data
  have hwalks : ((TableHeader.read data).toOption.bind fun header =>
      (Chunk.walk data 8 header.chunk.stop header.chunk.headerSize).chunks.getLast?.bind
        fun chunk => (PackageFrame.read data chunk).toOption.map fun frame =>
          (decide (header.chunk.stop ≤ data.size), (frame.nested data chunk).chunks.length)) =
      some (true, 2) := by
    decide +kernel
  obtain ⟨-, htable, hpackage, -⟩ := Contents.loops_of_decode data
  cases hheader : TableHeader.read data with
  | error fault =>
    rw [hheader] at hwalks
    cases hwalks
  | ok header =>
    rw [hheader, Except.toOption, Option.bind_some] at hwalks
    obtain ⟨chunk, hchunk, hwalks⟩ := Option.bind_eq_some_iff.mp hwalks
    cases hframe : PackageFrame.read data chunk with
    | error fault =>
      rw [hframe] at hwalks
      cases hwalks
    | ok frame =>
      rw [hframe] at hwalks
      obtain ⟨hstop, hnested⟩ := Prod.mk.inj (Option.some.inj hwalks)
      exact ⟨header, chunk, frame, rfl, hframe, List.mem_of_getLast? hchunk,
        (htable header hheader (of_decide_eq_true hstop)).2, hnested,
        (hpackage chunk frame {} hframe).2⟩

end CompiledResources
