import CompiledResources.Proofs.MapAggregation
import CompiledResources.Proofs.QualifiersRoundTrip
import CompiledResources.Qualifiers.Field
import Mathlib.Algebra.Group.Basic
import Mathlib.Algebra.Group.Int.Defs

/-!
Records of qualifiers of any declared size. A record is read in whole groups of fields, as many as
cover its size, and what lies behind the known fields is passed over. So the bytes that reading
takes are known from the size alone: reading succeeds exactly when they are there, gives every field
from its place among them, and never stops before the end that the record declares.
-/

namespace CompiledResources

open Decoder

/-! ### Reads that are cut off -/

/-- A result that is had only under a condition. -/
def HadOnlyIf {α : Type} (result : Except Fault α) (p : Prop) : Prop :=
  ∀ a, result = .ok a → p

namespace HadOnlyIf

variable {α β : Type} {p : Prop}

theorem mono {result : Except Fault α} (h : HadOnlyIf result p) {q : Prop} (hpq : p → q) :
    HadOnlyIf result q :=
  fun a ha => hpq (h a ha)

theorem first {result : Except Fault α} (h : HadOnlyIf result p) (next : α → Except Fault β) :
    HadOnlyIf (result >>= next) p := by
  intro b hb
  cases result with
  | ok a => exact h a rfl
  | error fault => cases hb

theorem later {result : Except Fault α} {next : α → Except Fault β}
    (h : ∀ a, HadOnlyIf (next a) p) : HadOnlyIf (result >>= next) p := by
  intro b hb
  cases result with
  | ok a => exact h a b hb
  | error fault => cases hb

theorem numberAt (data : ByteArray) (offset : Int) (width : Nat) :
    HadOnlyIf (Bytes.numberAt width data offset) (Bytes.Fits data.size offset width) :=
  fun _ h => (Bytes.fits_of_numberAt h).1

theorem chars (data : ByteArray) (offset : Int) (width : Nat) :
    HadOnlyIf (Qualifiers.charsAt data offset width) (Bytes.Fits data.size offset width) := by
  intro text h
  cases hbytes : Bytes.bytesAt data offset width with
  | error fault => simp [Qualifiers.charsAt, hbytes, Except.map] at h
  | ok bytes => exact (Bytes.fits_of_bytesAt hbytes).1

end HadOnlyIf

/-- Reads one after another are steps one after another. -/
theorem Decoder.ofExcept_bind {α β : Type} (result : Except Fault α) (next : α → Except Fault β) :
    ofExcept (result >>= next) = ofExcept result >>= fun a => ofExcept (next a) := by
  cases result <;> rfl

namespace Qualifiers

theorem le_extent (size : Nat) : size ≤ extent size := by
  unfold extent
  repeat' split
  all_goals omega

/-- A larger record takes no fewer bytes. Each stage is the extent of the least size that needs
it. -/
theorem extent_mono {a b : Nat} (h : a ≤ b) : extent a ≤ extent b := by
  unfold extent
  repeat' split
  all_goals omega

theorem base_le_extent (size : Nat) : 28 ≤ extent size :=
  extent_mono (Nat.zero_le size)

theorem full_le_extent {size : Nat} (hsize : 40 < size) : 48 ≤ extent size :=
  extent_mono (Nat.succ_le_of_lt hsize)

theorem extent_of_lt {size : Nat} (hsize : 48 < size) : extent size = size := by
  unfold extent
  repeat' split
  all_goals omega

/-- The groups of fields of a record, up to the one that covers the size. -/
def readGroups (data : ByteArray) (offset : Int) (size : Nat) : Except Fault Qualifiers := do
  let base ← readBase data offset size
  if size ≤ 28 then return base
  let screen ← readScreen data offset base
  if size ≤ 32 then return screen
  let available ← readAvailable data offset screen
  if size ≤ 36 then return available
  let script ← readScript data offset available
  if size ≤ 40 then return script
  readVariant data offset script

variable {data : ByteArray} {offset : Int} {size : Nat}

/-- A record is read group by group, and what is behind the known groups is passed over. -/
theorem readAt_eq (hsize : Bytes.u32At data offset = .ok size) :
    readAt data offset = (do
      let q ← readGroups data offset size
      if 48 < size then passTrailing data offset size
      return (q, offset + extent size)) := by
  have hstop {stop : Nat} (hlast : extent size = stop) (hshort : size ≤ 48) (q : Qualifiers) :
      (pure (q, offset + (stop : Int)) : Decoder (Qualifiers × Int)) = (do
        if 48 < size then passTrailing data offset size
        return (q, offset + extent size)) := by
    rw [if_neg (Nat.not_lt.mpr hshort), hlast]
  -- Both sides read the same groups; at the end of each group, either both stop or both go on.
  simp only [readAt, hsize, liftM_eq_ofExcept, ofExcept_ok, pure_bind, readGroups, ofExcept_bind,
    bind_assoc]
  refine bind_congr fun base => ?_
  by_cases h28 : size ≤ 28
  · simp only [h28, if_true]
    exact hstop (by simp [extent, h28]) (by omega) base
  simp only [h28, if_false, ofExcept_bind, bind_assoc]
  refine bind_congr fun screen => ?_
  by_cases h32 : size ≤ 32
  · simp only [h32, if_true]
    exact hstop (by simp [extent, h28, h32]) (by omega) screen
  simp only [h32, if_false, ofExcept_bind, bind_assoc]
  refine bind_congr fun available => ?_
  by_cases h36 : size ≤ 36
  · simp only [h36, if_true]
    exact hstop (by simp [extent, h28, h32, h36]) (by omega) available
  simp only [h36, if_false, ofExcept_bind, bind_assoc]
  refine bind_congr fun script => ?_
  by_cases h40 : size ≤ 40
  · simp only [h40, if_true]
    exact hstop (by simp [extent, h28, h32, h36, h40]) (by omega) script
  simp only [h40, if_false]
  refine bind_congr fun variant => ?_
  by_cases h48 : size ≤ 48
  · rw [if_pos h48]
    exact hstop (by simp [extent, h28, h32, h36, h40, h48]) h48 variant
  · have hall : extent size = size := by simp [extent, h28, h32, h36, h40, h48]
    rw [if_neg h48, if_pos (Nat.lt_of_not_le h48), hall]

/-! ### Groups of fields from the bytes of a record -/

/-- The beginning of a record settles the fields that end with it or before it. -/
theorem ofRecord_take_iff {record : List UInt8} {n : Nat} (hn : n ≤ record.length)
    {q : Qualifiers} :
    q.OfRecord (record.take n) ↔ ∀ field ∈ fields, field.value q =
      if field.stop ≤ n then field.decode (field.slice record) else field.value {} := by
  refine forall₂_congr fun field _ => ?_
  rw [List.length_take, Nat.min_eq_left hn]
  by_cases hstop : field.stop ≤ n
  · have hslice : field.slice (record.take n) = field.slice record := by
      unfold Field.stop at hstop
      rw [Field.slice, Field.slice, List.drop_take, List.take_take, Nat.min_eq_left (by omega)]
    rw [if_pos hstop, if_pos hstop, hslice]
  · rw [if_neg hstop, if_neg hstop]

/-- A record settles no more than its first 48 bytes. -/
theorem ofRecord_take_known {record : List UInt8} {q : Qualifiers} :
    q.OfRecord (record.take 48) ↔ q.OfRecord record := by
  by_cases hlong : 48 ≤ record.length
  · rw [ofRecord_take_iff hlong]
    refine forall₂_congr fun field hfield => ?_
    have hstop := stop_le hfield
    rw [if_pos hstop, if_pos (by omega)]
  · rw [List.take_of_length_le (by omega)]

section

variable {n : Nat} {record : List UInt8} {q : Qualifiers}
  (hrecord : Bytes.bytesAt data offset n = .ok record)
include hrecord

/-- A group that is read from where the known fields end sets its own fields from their bytes, and
leaves all others as they were. -/
theorem OfRecord.extend {known stop : Nat} {q' : Qualifiers} (hstop : known ≤ stop ∧ stop ≤ n)
    (hq : q.OfRecord (record.take known))
    (hkept : ∀ field ∈ fields, field.stop ≤ known ∨ stop < field.stop →
      field.value q' = field.value q)
    (hnew : ∀ field ∈ fields, known < field.stop → field.stop ≤ stop →
      field.value q' = field.decode (field.slice record)) :
    q'.OfRecord (record.take stop) := by
  have hlength : record.length = n := (Bytes.fits_of_bytesAt hrecord).2
  rw [ofRecord_take_iff (by omega)] at hq ⊢
  intro field hfield
  have hbefore := hq field hfield
  by_cases hknown : field.stop ≤ known
  · rw [if_pos hknown] at hbefore
    rw [if_pos (by omega), hkept field hfield (.inl hknown), hbefore]
  rw [if_neg hknown] at hbefore
  by_cases hend : field.stop ≤ stop
  · rw [if_pos hend, hnew field hfield (by omega) hend]
  · rw [if_neg hend, hkept field hfield (.inr (by omega)), hbefore]

theorem numberAt_of_record {place : Int} {width : Nat} (hstart : offset ≤ place)
    (hend : place + width ≤ offset + n) :
    Bytes.numberAt width data place =
      .ok (littleEndian ((record.drop (place - offset).toNat).take width)) := by
  rw [Bytes.numberAt, Bytes.bytesAt_slice hrecord hstart hend]
  rfl

theorem charsAt_of_record {place : Int} {width : Nat} (hstart : offset ≤ place)
    (hend : place + width ≤ offset + n) :
    charsAt data place width =
      .ok (charsOfField ((record.drop (place - offset).toNat).take width)) := by
  rw [charsAt, Bytes.bytesAt_slice hrecord hstart hend]
  rfl

theorem exists_readBase (hn : 28 ≤ n) (hsize : littleEndian (record.take 4) = size) :
    ∃ base, readBase data offset size = .ok base ∧ base.OfRecord (record.take 28) := by
  have hlength : record.length = n := (Bytes.fits_of_bytesAt hrecord).2
  simp (disch := omega) only [readBase, Bytes.u8At, Bytes.u16At, numberAt_of_record hrecord,
    charsAt_of_record hrecord, add_sub_cancel_left]
  refine ⟨_, rfl, ?_⟩
  rw [ofRecord_take_iff (by omega)]
  simp [fields, Field.stop, Field.slice, Field.number, Field.chars, ← hsize]

theorem exists_readScreen (hn : 32 ≤ n) (hq : q.OfRecord (record.take 28)) :
    ∃ screen, readScreen data offset q = .ok screen ∧ screen.OfRecord (record.take 32) := by
  simp (disch := omega) only [readScreen, Bytes.u8At, Bytes.u16At, numberAt_of_record hrecord,
    add_sub_cancel_left]
  refine ⟨_, rfl, hq.extend hrecord (by omega) ?_ ?_⟩
  · simp [fields, Field.stop, Field.number, Field.chars]
  · simp [fields, Field.stop, Field.slice, Field.number, Field.chars]

theorem exists_readAvailable (hn : 36 ≤ n) (hq : q.OfRecord (record.take 32)) :
    ∃ available, readAvailable data offset q = .ok available ∧
      available.OfRecord (record.take 36) := by
  simp (disch := omega) only [readAvailable, Bytes.u16At, numberAt_of_record hrecord,
    add_sub_cancel_left]
  refine ⟨_, rfl, hq.extend hrecord (by omega) ?_ ?_⟩
  · simp [fields, Field.stop, Field.number, Field.chars]
  · simp [fields, Field.stop, Field.slice, Field.number, Field.chars]

theorem exists_readScript (hn : 40 ≤ n) (hq : q.OfRecord (record.take 36)) :
    ∃ script, readScript data offset q = .ok script ∧ script.OfRecord (record.take 40) := by
  simp (disch := omega) only [readScript, charsAt_of_record hrecord, add_sub_cancel_left]
  refine ⟨_, rfl, hq.extend hrecord (by omega) ?_ ?_⟩
  · simp [fields, Field.stop, Field.number, Field.chars]
  · simp [fields, Field.stop, Field.slice, Field.number, Field.chars]

theorem exists_readVariant (hn : 48 ≤ n) (hq : q.OfRecord (record.take 40)) :
    ∃ variant, readVariant data offset q = .ok variant ∧ variant.OfRecord (record.take 48) := by
  simp (disch := omega) only [readVariant, charsAt_of_record hrecord, add_sub_cancel_left]
  refine ⟨_, rfl, hq.extend hrecord (by omega) ?_ ?_⟩
  · simp [fields, Field.stop, Field.number, Field.chars]
  · simp [fields, Field.stop, Field.slice, Field.number, Field.chars]

end

/-- When all bytes that the size asks for are there, the groups are read from them. -/
theorem exists_readGroups {record : List UInt8}
    (hrecord : Bytes.bytesAt data offset (extent size) = .ok record)
    (hsize : littleEndian (record.take 4) = size) :
    ∃ q, readGroups data offset size = .ok q ∧ q.OfRecord record := by
  have hlength : record.length = extent size := (Bytes.fits_of_bytesAt hrecord).2
  have hall {stop : Nat} (hstop : extent size = stop) : record.take stop = record :=
    List.take_of_length_le (by omega)
  obtain ⟨base, hbase, hofBase⟩ := exists_readBase hrecord (base_le_extent size) hsize
  by_cases h28 : size ≤ 28
  · have hstop : extent size = 28 := by simp [extent, h28]
    have hgroups : readGroups data offset size = .ok base := by
      simp [readGroups, hbase, h28, bind, Except.bind, pure, Except.pure]
    exact ⟨base, hgroups, hall hstop ▸ hofBase⟩
  have hscreenEnd : 32 ≤ extent size := extent_mono (Nat.succ_le_of_lt (Nat.lt_of_not_le h28))
  obtain ⟨screen, hscreen, hofScreen⟩ := exists_readScreen hrecord hscreenEnd hofBase
  by_cases h32 : size ≤ 32
  · have hstop : extent size = 32 := by simp [extent, h28, h32]
    have hgroups : readGroups data offset size = .ok screen := by
      simp [readGroups, hbase, hscreen, h28, h32, bind, Except.bind, pure, Except.pure]
    exact ⟨screen, hgroups, hall hstop ▸ hofScreen⟩
  have havailableEnd : 36 ≤ extent size := extent_mono (Nat.succ_le_of_lt (Nat.lt_of_not_le h32))
  obtain ⟨available, havailable, hofAvailable⟩ :=
    exists_readAvailable hrecord havailableEnd hofScreen
  by_cases h36 : size ≤ 36
  · have hstop : extent size = 36 := by simp [extent, h28, h32, h36]
    have hgroups : readGroups data offset size = .ok available := by
      simp [readGroups, hbase, hscreen, havailable, h28, h32, h36, bind, Except.bind, pure,
        Except.pure]
    exact ⟨available, hgroups, hall hstop ▸ hofAvailable⟩
  have hscriptEnd : 40 ≤ extent size := extent_mono (Nat.succ_le_of_lt (Nat.lt_of_not_le h36))
  obtain ⟨script, hscript, hofScript⟩ := exists_readScript hrecord hscriptEnd hofAvailable
  by_cases h40 : size ≤ 40
  · have hstop : extent size = 40 := by simp [extent, h28, h32, h36, h40]
    have hgroups : readGroups data offset size = .ok script := by
      simp [readGroups, hbase, hscreen, havailable, hscript, h28, h32, h36, h40, bind,
        Except.bind, pure, Except.pure]
    exact ⟨script, hgroups, hall hstop ▸ hofScript⟩
  have hfull : 48 ≤ extent size := full_le_extent (by omega)
  obtain ⟨variant, hvariant, hofVariant⟩ := exists_readVariant hrecord hfull hofScript
  have hgroups : readGroups data offset size = .ok variant := by
    simp [readGroups, hbase, hscreen, havailable, hscript, hvariant, h28, h32, h36, h40, bind,
      Except.bind]
  exact ⟨variant, hgroups, ofRecord_take_known.mp hofVariant⟩

/-! ### Records that are cut off -/

section

variable (data : ByteArray) (offset : Int)

theorem hadOnlyIf_readBase (size : Nat) :
    HadOnlyIf (readBase data offset size) (Bytes.Fits data.size (offset + 26) 2) := by
  unfold readBase
  iterate 14 refine .later fun _ => ?_
  exact (HadOnlyIf.numberAt data (offset + 26) 2).first _

theorem hadOnlyIf_readScreen (q : Qualifiers) :
    HadOnlyIf (readScreen data offset q) (Bytes.Fits data.size (offset + 30) 2) :=
  .later fun _ => .later fun _ => (HadOnlyIf.numberAt data (offset + 30) 2).first _

theorem hadOnlyIf_readAvailable (q : Qualifiers) :
    HadOnlyIf (readAvailable data offset q) (Bytes.Fits data.size (offset + 34) 2) :=
  .later fun _ => (HadOnlyIf.numberAt data (offset + 34) 2).first _

theorem hadOnlyIf_readScript (q : Qualifiers) :
    HadOnlyIf (readScript data offset q) (Bytes.Fits data.size (offset + 36) 4) :=
  (HadOnlyIf.chars data (offset + 36) 4).first _

theorem hadOnlyIf_readVariant (q : Qualifiers) :
    HadOnlyIf (readVariant data offset q) (Bytes.Fits data.size (offset + 40) 8) :=
  (HadOnlyIf.chars data (offset + 40) 8).first _

/-- The groups are read only when their bytes are there: the last bytes of a group are read last. -/
theorem hadOnlyIf_readGroups (size : Nat) :
    HadOnlyIf (readGroups data offset size)
      (offset + (min (extent size) 48 : Nat) ≤ data.size) := by
  have hend {place : Int} {width : Nat} (hlast : place + width = (min (extent size) 48 : Nat)) :
      Bytes.Fits data.size (offset + place) width →
        offset + (min (extent size) 48 : Nat) ≤ data.size := by
    unfold Bytes.Fits
    omega
  unfold readGroups
  by_cases h28 : size ≤ 28
  · simp only [h28, if_true]
    exact ((hadOnlyIf_readBase data offset size).mono (hend (by simp [extent, h28]))).first _
  simp only [h28, if_false]
  refine .later fun base => ?_
  by_cases h32 : size ≤ 32
  · simp only [h32, if_true]
    exact ((hadOnlyIf_readScreen data offset base).mono (hend (by simp [extent, h28, h32]))).first _
  simp only [h32, if_false]
  refine .later fun screen => ?_
  by_cases h36 : size ≤ 36
  · simp only [h36, if_true]
    exact ((hadOnlyIf_readAvailable data offset screen).mono
      (hend (by simp [extent, h28, h32, h36]))).first _
  simp only [h36, if_false]
  refine .later fun available => ?_
  by_cases h40 : size ≤ 40
  · simp only [h40, if_true]
    exact ((hadOnlyIf_readScript data offset available).mono
      (hend (by simp [extent, h28, h32, h36, h40]))).first _
  simp only [h40, if_false]
  refine .later fun script => (hadOnlyIf_readVariant data offset script).mono (hend ?_)
  rw [Nat.min_eq_right (full_le_extent (by omega))]
  rfl

theorem readsLayout_readGroups (size : Nat) : ReadsLayout (readGroups data offset size) := by
  refine .bind (.qualifiersBase _ _ _) fun base => ?_
  split
  · exact .pure base
  refine .bind (.qualifiersScreen _ _ _) fun screen => ?_
  split
  · exact .pure screen
  refine .bind (.qualifiersAvailable _ _ _) fun available => ?_
  split
  · exact .pure available
  refine .bind (.qualifiersScript _ _ _) fun script => ?_
  split
  · exact .pure script
  exact .qualifiersVariant _ _ _

end

/-! ### Behind the known fields -/

/-- What is noted about the bytes behind the known fields. -/
def trailingNotices (offset : Int) (size : Nat) (record : List UInt8) : List Notice :=
  if 48 < size ∧ ∃ byte ∈ record.drop 48, byte ≠ 0 then
    [.trailingConfigBytes (size - 48) (offset + 48)]
  else []

theorem run_passTrailing {record : List UInt8}
    (hrecord : Bytes.bytesAt data offset size = .ok record) (hsize : 48 < size) (policy : Policy)
    (journal : Journal) :
    run (passTrailing data offset size) policy journal =
      (.ok (), journal.noting (trailingNotices offset size record)) := by
  have hlength : record.length = size := (Bytes.fits_of_bytesAt hrecord).2
  have hrest : Bytes.bytesAt data (offset + 48) (size - 48) = .ok (record.drop 48) := by
    rw [Bytes.bytesAt_slice hrecord (by omega) (by omega)]
    have hback : (offset + 48 - offset).toNat = 48 := by omega
    rw [hback, List.take_of_length_le (by rw [List.length_drop]; omega)]
  have hany : (record.drop 48).any (· != 0) = true ↔ ∃ byte ∈ record.drop 48, byte ≠ 0 := by
    simp only [List.any_eq_true, bne_iff_ne]
  simp only [passTrailing, hrest, liftM_eq_ofExcept, ofExcept_ok, pure_bind, hany,
    trailingNotices, hsize, true_and]
  split
  · rw [run_note, List.length_drop, hlength, Journal.noting, Array.push_eq_append]
  · rw [run_pure, Journal.noting_nil]

theorem run_passTrailing_of_end (hend : ¬ offset + size ≤ data.size) (hsize : 48 < size)
    (policy : Policy) (journal : Journal) :
    ∃ error place, run (passTrailing data offset size) policy journal =
      (.error (.layout error place), journal) := by
  have hoff : ¬ Bytes.Fits data.size (offset + 48) (size - 48 : Nat) := by
    unfold Bytes.Fits
    omega
  refine ⟨.outOfBounds (size - 48 : Nat) data.size, offset + 48, ?_⟩
  simp only [passTrailing, Bytes.bytesAt_eq_error hoff, liftM_eq_ofExcept, ofExcept_error]
  exact run_bind_of_error (run_throw policy journal _)

/-! ### Records of any size -/

/-- The declared size stands at the beginning of a record. -/
theorem littleEndian_take {record : List UInt8} (hsize : Bytes.u32At data offset = .ok size)
    (hrecord : Bytes.bytesAt data offset (extent size) = .ok record) :
    littleEndian (record.take 4) = size := by
  have hbase := base_le_extent size
  have hread : Bytes.numberAt 4 data offset =
      .ok (littleEndian ((record.drop (offset - offset).toNat).take 4)) :=
    numberAt_of_record hrecord (by omega) (by omega)
  have hstart : (offset - offset).toNat = 0 := by omega
  rw [hstart, List.drop_zero] at hread
  exact Except.ok.inj (hread.symm.trans hsize)

/-- A record whose bytes are all there is read from them. -/
theorem run_readAt_of_record {record : List UInt8} (hsize : Bytes.u32At data offset = .ok size)
    (hrecord : Bytes.bytesAt data offset (extent size) = .ok record) :
    ∃ q : Qualifiers, q.size = size ∧ q.OfRecord record ∧ ∀ policy journal,
      run (readAt data offset) policy journal =
        (.ok (q, offset + extent size), journal.noting (trailingNotices offset size record)) := by
  have hlength : record.length = extent size := (Bytes.fits_of_bytesAt hrecord).2
  have hbase := base_le_extent size
  have hstart := littleEndian_take hsize hrecord
  obtain ⟨q, hgroups, hq⟩ := exists_readGroups hrecord hstart
  refine ⟨q, ?_, hq, fun policy journal => ?_⟩
  · have hfield := hq (.number 0 4 Qualifiers.size) (by simp [fields])
    simpa [Field.number, Field.stop, Field.slice, hstart, hlength, hbase,
      show 4 ≤ extent size by omega] using hfield
  · rw [readAt_eq hsize, hgroups]
    simp only [liftM_eq_ofExcept, ofExcept_ok, pure_bind]
    by_cases hlong : 48 < size
    · rw [extent_of_lt hlong] at hrecord
      rw [if_pos hlong, run_bind_of_ok (run_passTrailing hrecord hlong policy journal)]
      rfl
    · have hnone : trailingNotices offset size record = [] := if_neg fun h => hlong h.1
      rw [if_neg hlong, hnone, Journal.noting_nil]
      rfl

/-- A record that the end of the buffer cuts off is a fault of the layout. -/
theorem run_readAt_of_end (hsize : Bytes.u32At data offset = .ok size)
    (hend : ¬ offset + extent size ≤ data.size) (policy : Policy) (journal : Journal) :
    ∃ error place,
      run (readAt data offset) policy journal = (.error (.layout error place), journal) := by
  rw [readAt_eq hsize]
  cases hgroups : readGroups data offset size with
  | error fault =>
    obtain ⟨error, place, rfl⟩ := readsLayout_readGroups data offset size fault hgroups
    exact ⟨error, place, run_bind_of_error (run_throw policy journal _)⟩
  | ok q =>
    -- The known fields are there, so what is missing is behind them.
    have hknown := hadOnlyIf_readGroups data offset size q hgroups
    have hlong : 48 < size := by
      by_contra hshort
      have hall : extent size ≤ 48 := extent_mono (Nat.le_of_not_lt hshort)
      rw [Nat.min_eq_left hall] at hknown
      exact hend hknown
    rw [extent_of_lt hlong] at hend
    obtain ⟨error, place, hpass⟩ := run_passTrailing_of_end hend hlong policy journal
    refine ⟨error, place, ?_⟩
    simp only [liftM_eq_ofExcept, ofExcept_ok, pure_bind, if_pos hlong]
    exact run_bind_of_error hpass

/-! ### Records that store all of their qualifiers -/

theorem keptChars_of_getLast? {text : Text} (h : text.units.getLast? ≠ some 0) :
    Layout.keptChars text = text := by
  have hkept : text.units.reverse.dropWhile (· == 0) = text.units.reverse := by
    rw [← List.head?_reverse] at h
    cases hunits : text.units.reverse with
    | nil => rfl
    | cons unit rest =>
      have hunit : unit ≠ 0 := by simpa [hunits] using h
      exact List.dropWhile_cons_of_neg (by simpa using hunit)
  rw [Layout.keptChars, Text.stripEnd, hkept, List.reverse_reverse]

theorem mem_fields_of_number {q : Qualifiers} :
    ∀ item ∈ Layout.numberFields q,
      ∃ field ∈ fields, field.width = item.1 ∧ field.value q = .number item.2 := by
  simp [Layout.numberFields, fields, Field.number, Field.chars]

theorem mem_fields_of_chars {q : Qualifiers} :
    ∀ item ∈ Layout.charsFields q,
      ∃ field ∈ fields, field.width = item.1 ∧ field.value q = .chars item.2 := by
  simp [Layout.charsFields, fields, Field.number, Field.chars]

namespace Recorded

variable {q : Qualifiers} (hq : q.Recorded)
include hq

theorem fits_chars {item : Nat × Text} (h : item ∈ Layout.charsFields q) :
    (FieldValue.chars item.2).Fits item.1 := by
  obtain ⟨field, hfield, hwidth, hvalue⟩ := mem_fields_of_chars item h
  exact hwidth ▸ hvalue ▸ hq.fits field hfield

/-- Fields that fit their bytes have room in the record. -/
theorem recordable : Layout.Recordable q where
  staged := by
    rcases hq.stage with hsize | hsize | hsize | hsize | hsize
    iterate 4 rw [hsize]; rfl
    unfold extent
    repeat' split
    all_goals omega
  size := (hq.fits (.number 0 4 Qualifiers.size) (by simp [fields])).2
  numbers item h := by
    obtain ⟨field, hfield, hwidth, hvalue⟩ := mem_fields_of_number item h
    have hfits := hq.fits field hfield
    rw [hvalue, hwidth] at hfits
    exact hfits
  lengths item h := (hq.fits_chars h).1
  bytes item h := (hq.fits_chars h).2.1

/-- Such a record keeps all that it is laid out from. -/
theorem kept : Layout.keptQualifiers q = q := by
  have hchars : ∀ item ∈ Layout.charsFields q, Layout.keptChars item.2 = item.2 :=
    fun item h => keptChars_of_getLast? (hq.fits_chars h).2.2
  have hbehind := hq.behind
  simp only [Layout.charsFields, List.forall_mem_cons] at hchars
  simp [fields, Field.number, Field.chars, Field.stop] at hbehind
  apply eq_of_fields
  rcases hq.stage with hsize | hsize | hsize | hsize | hsize
  case inr.inr.inr.inr =>
    have hfull : ¬ q.size < 32 ∧ ¬ q.size < 36 ∧ ¬ q.size < 40 ∧ ¬ q.size < 48 := by omega
    simp [fields, Field.number, Field.chars, Layout.keptQualifiers, hchars, hfull]
  -- at an earlier stage, the fields that are not kept hold nothing
  all_goals
    simp [hsize] at hbehind
    simp [fields, Field.number, Field.chars, Layout.keptQualifiers, hchars, hsize, hbehind]

/-- A record that stores all of its qualifiers is read as these. -/
theorem readAt_eq {data : ByteArray} {place : Int} (h : Holds data place (Layout.qualifiers q)) :
    readAt data place = pure (q, place + q.size) := by
  rw [readAt_of_holds h hq.recordable, hq.kept]

end Recorded

theorem level_trailingNotices {offset : Int} {size : Nat} {record : List UInt8} :
    ∀ notice ∈ trailingNotices offset size record, notice.level = .debug := by
  intro notice hnotice
  unfold trailingNotices at hnotice
  split at hnotice
  · rw [List.mem_singleton.mp hnotice]
    rfl
  · cases hnotice

/-- Records of qualifiers of any declared size. Reading succeeds exactly when the bytes up to the
end of the stage that covers the size are there; it never stops inside of the record, gives every
field from its place, and notes in the journal only that bytes behind the known fields are not all
zero. Of a record that stores all of its qualifiers it gives these. -/
theorem readAt_staged (data : ByteArray) (offset : Int) :
    (∀ size, Bytes.u32At data offset = .ok size →
      size ≤ extent size ∧
      (offset + extent size ≤ data.size →
        ∃ record q, Bytes.bytesAt data offset (extent size) = .ok record ∧
          (q : Qualifiers).size = size ∧ q.OfRecord record ∧
          (∀ notice ∈ trailingNotices offset size record, notice.level = .debug) ∧
          ∀ policy journal, run (readAt data offset) policy journal =
            (.ok (q, offset + extent size),
              journal.noting (trailingNotices offset size record))) ∧
      (¬ offset + extent size ≤ data.size →
        ∀ policy journal, ∃ error place,
          run (readAt data offset) policy journal = (.error (.layout error place), journal))) ∧
    ∀ q : Qualifiers, q.Recorded → Holds data offset (Layout.qualifiers q) →
      ∀ policy journal,
        run (readAt data offset) policy journal = (.ok (q, offset + q.size), journal) := by
  refine ⟨fun size hsize => ⟨le_extent size, fun hend => ?_, run_readAt_of_end hsize⟩,
    fun q hq h policy journal => by rw [hq.readAt_eq h, run_pure]⟩
  have hstart : 0 ≤ offset := (Bytes.fits_of_numberAt hsize).1.1
  have hrecord : Bytes.bytesAt data offset (extent size) = .ok _ :=
    Bytes.bytesAt_eq_ok ⟨hstart, hend⟩
  obtain ⟨q, hq, hof, hrun⟩ := run_readAt_of_record hsize hrecord
  exact ⟨_, q, hrecord, hq, hof, level_trailingNotices, hrun⟩

/-- A script and a variant of French, in upright format. -/
def french : Qualifiers where
  size := 48
  language := "fr"
  orientation := 1
  script := "Latn"
  variant := "1606nict"

/-- A record of 50 bytes whose last one is not zero, with the record of `french` behind it, and
another record that the end cuts off. -/
def frenchData : ByteArray :=
  ⟨((Layout.number 4 50 ++ List.replicate 45 0 ++ [1]) ++ Layout.qualifiers french ++
    Layout.number 4 29 ++ List.replicate 26 0).toArray⟩

theorem readAt_staged_frenchData :
    (Bytes.u32At frenchData 0 = .ok 50 ∧ (0 : Int) + extent 50 ≤ frenchData.size ∧
      ∃ record q, Bytes.bytesAt frenchData 0 (extent 50) = .ok record ∧
        (q : Qualifiers).size = (50 : Nat) ∧ q.OfRecord record ∧
        (∀ notice ∈ trailingNotices 0 50 record, notice.level = .debug) ∧
        ∀ policy journal, run (readAt frenchData 0) policy journal =
          (.ok (q, 0 + extent 50), journal.noting (trailingNotices 0 50 record))) ∧
    (Bytes.u32At frenchData 98 = .ok 29 ∧ ¬ (98 : Int) + extent 29 ≤ frenchData.size ∧
      ∀ policy journal, ∃ error place,
        run (readAt frenchData 98) policy journal = (.error (.layout error place), journal)) ∧
    french.Recorded ∧ Holds frenchData 50 (Layout.qualifiers french) ∧
      ∀ policy journal,
        run (readAt frenchData 50) policy journal = (.ok (french, 50 + 48), journal) := by
  have hlong : Bytes.u32At frenchData 0 = .ok 50 := by decide +kernel
  have hcut : Bytes.u32At frenchData 98 = .ok 29 := by decide +kernel
  have hroom : (0 : Int) + extent 50 ≤ frenchData.size := by decide +kernel
  have hend : ¬ (98 : Int) + extent 29 ≤ frenchData.size := by decide +kernel
  have hfrench : french.Recorded := by decide +kernel
  have hholds : Holds frenchData 50 (Layout.qualifiers french) := by decide +kernel
  exact ⟨⟨hlong, hroom, ((readAt_staged frenchData 0).1 50 hlong).2.1 hroom⟩,
    ⟨hcut, hend, ((readAt_staged frenchData 98).1 29 hcut).2.2 hend⟩,
    hfrench, hholds, (readAt_staged frenchData 50).2 french hfrench hholds⟩

end Qualifiers
end CompiledResources
