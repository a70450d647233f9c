import CompiledResources.Contents.Decoding
import CompiledResources.Layout.Number
import CompiledResources.Proofs.Composition

/-!
Bytes that stand somewhere in a buffer. Bytes laid one behind another stand each where the ones
before it end, whatever stands around them; and a read at the place of a number, a run of bytes or a
chunk gives what was laid there.
-/

namespace CompiledResources

/-- Bytes within bytes that are read are read as well. -/
theorem Bytes.bytesAt_slice {data : ByteArray} {offset place : Int} {n width : Nat}
    {bytes : List UInt8} (h : bytesAt data offset n = .ok bytes) (hstart : offset ≤ place)
    (hend : place + width ≤ offset + n) :
    bytesAt data place width = .ok ((bytes.drop (place - offset).toNat).take width) := by
  obtain ⟨fits, -⟩ := fits_of_bytesAt h
  rw [bytesAt_eq_ok fits] at h
  obtain rfl := Except.ok.inj h
  unfold Fits at fits
  rw [bytesAt_eq_ok ⟨by omega, by omega⟩]
  congr 1
  apply List.ext_getElem
  · simp only [length_window, List.length_take, List.length_drop]
    omega
  · intro i _ _
    have hplace : place.toNat + i = offset.toNat + ((place - offset).toNat + i) := by omega
    simp only [window, List.getElem_ofFn, List.getElem_take, List.getElem_drop, hplace]

/-- The bytes stand in the buffer from `offset` on. -/
def Holds (data : ByteArray) (offset : Int) (bytes : List UInt8) : Prop :=
  ∃ before after, data.data.toList = before ++ bytes ++ after ∧ offset = before.length

namespace Holds

variable {data : ByteArray} {offset : Int} {bytes first second : List UInt8}

theorem all (bytes : List UInt8) : Holds ⟨bytes.toArray⟩ 0 bytes :=
  ⟨[], [], by simp, rfl⟩

theorem at_eq (h : Holds data offset bytes) {other : Int} (heq : other = offset) :
    Holds data other bytes :=
  heq ▸ h

theorem fits (h : Holds data offset bytes) : Bytes.Fits data.size offset bytes.length := by
  rcases h with ⟨before, after, hdata, rfl⟩
  have hlength := congrArg List.length hdata
  rw [List.length_append, List.length_append, Array.length_toList] at hlength
  have hsize : data.size = before.length + bytes.length + after.length := hlength
  unfold Bytes.Fits
  omega

/-- Bytes stand at an offset when the next ones from there are the same. -/
theorem iff_take : Holds data offset bytes ↔
    (0 ≤ offset ∧ offset ≤ data.data.toList.length) ∧
      (data.data.toList.drop offset.toNat).take bytes.length = bytes := by
  constructor
  · rintro ⟨before, after, hdata, rfl⟩
    rw [hdata, Int.toNat_natCast, List.append_assoc, List.drop_left, List.take_left,
      List.length_append]
    exact ⟨by omega, rfl⟩
  · rintro ⟨hbounds, h⟩
    have hnext := List.take_append_drop bytes.length (data.data.toList.drop offset.toNat)
    rw [h] at hnext
    refine ⟨data.data.toList.take offset.toNat,
      (data.data.toList.drop offset.toNat).drop bytes.length, ?_, ?_⟩
    · rw [List.append_assoc, hnext, List.take_append_drop]
    · rw [List.length_take]
      omega

instance : Decidable (Holds data offset bytes) := decidable_of_iff' _ iff_take

/-- Bytes that stand one behind another stand each in its place. -/
theorem append_iff : Holds data offset (first ++ second) ↔
    Holds data offset first ∧ Holds data (offset + first.length) second := by
  constructor
  · rintro ⟨before, after, hdata, rfl⟩
    refine ⟨⟨before, second ++ after, ?_, rfl⟩, ⟨before ++ first, after, ?_, ?_⟩⟩
    · simpa only [List.append_assoc] using hdata
    · simpa only [List.append_assoc] using hdata
    · rw [List.length_append, Int.natCast_add]
  · rintro ⟨⟨before, after, hdata, rfl⟩, before', after', hdata', hlength⟩
    have hsplit : (before ++ first) ++ after = before' ++ (second ++ after') := by
      rw [← hdata, hdata', List.append_assoc]
    obtain ⟨-, rfl⟩ := List.append_inj hsplit (by rw [List.length_append]; omega)
    exact ⟨before, after', by simpa only [List.append_assoc] using hdata, rfl⟩

/-- A read of all the bytes gives them. -/
theorem bytesAt (h : Holds data offset bytes) :
    Bytes.bytesAt data offset bytes.length = .ok bytes := by
  rw [Bytes.bytesAt_eq_ok h.fits]
  rcases h with ⟨before, after, hdata, rfl⟩
  congr 1
  apply List.ext_getElem
  · exact Bytes.length_window ..
  · intro i _ hi
    have hbyte : data.data.toList[before.length + i]? = some bytes[i] := by
      rw [hdata, List.append_assoc, List.getElem?_append_right (Nat.le_add_right ..),
        Nat.add_sub_cancel_left, List.getElem?_append_left hi, List.getElem?_eq_getElem hi]
    rw [Array.getElem?_toList] at hbyte
    obtain ⟨_, hget⟩ := Array.getElem?_eq_some_iff.mp hbyte
    simp only [Bytes.window, List.getElem_ofFn, Int.toNat_natCast]
    exact hget

theorem numberAt {width n : Nat} (h : Holds data offset (Layout.number width n)) :
    Bytes.numberAt width data offset = .ok (n % Bytes.capacity width) := by
  have hbytes := h.bytesAt
  rw [Layout.length_number] at hbytes
  rw [Bytes.numberAt, hbytes]
  exact congrArg Except.ok (Layout.littleEndian_number width n)

theorem u8At {n : Nat} (h : Holds data offset (Layout.number 1 n)) (hn : n < 256) :
    Bytes.u8At data offset = .ok n := by
  have hlt : n < Bytes.capacity 1 := hn
  rw [Bytes.u8At, h.numberAt, Nat.mod_eq_of_lt hlt]

theorem u16At {n : Nat} (h : Holds data offset (Layout.number 2 n)) (hn : n < 65536) :
    Bytes.u16At data offset = .ok n := by
  have hlt : n < Bytes.capacity 2 := hn
  rw [Bytes.u16At, h.numberAt, Nat.mod_eq_of_lt hlt]

theorem u32At {n : Nat} (h : Holds data offset (Layout.number 4 n)) (hn : n < 4294967296) :
    Bytes.u32At data offset = .ok n := by
  have hlt : n < Bytes.capacity 4 := hn
  rw [Bytes.u32At, h.numberAt, Nat.mod_eq_of_lt hlt]

/-- Of pieces one behind another, each stands where it starts. -/
theorem piece {pieces : List (List UInt8)} (start : Nat)
    (h : Holds data offset pieces.flatten) {i : Nat} (hi : i < pieces.length) :
    ∃ place, (Layout.starts start pieces)[i]? = some place ∧ start ≤ place ∧
      place + pieces[i].length ≤ start + pieces.flatten.length ∧
      Holds data (offset + (place - start : Nat)) pieces[i] := by
  induction pieces generalizing offset start i with
  | nil => cases hi
  | cons head tail ih =>
    rw [List.flatten_cons, append_iff] at h
    rw [List.flatten_cons, List.length_append]
    cases i with
    | zero => exact ⟨start, rfl, Nat.le_refl _, by simp, h.1.at_eq (by omega)⟩
    | succ i =>
      have htail : i < tail.length := Nat.lt_of_succ_lt_succ hi
      obtain ⟨place, hplace, hle, hend, hpiece⟩ := ih (start + head.length) h.2 htail
      rw [List.getElem_cons_succ]
      exact ⟨place, hplace, by omega, by omega, hpiece.at_eq (by omega)⟩

end Holds

theorem Layout.length_flatMap {α : Type} {piece : α → List UInt8} {width : Nat}
    (hwidth : ∀ item, (piece item).length = width) (items : List α) :
    (items.flatMap piece).length = width * items.length := by
  induction items with
  | nil => rfl
  | cons head tail ih =>
    rw [List.flatMap_cons, List.length_append, hwidth, ih, List.length_cons, Nat.mul_succ,
      Nat.add_comm]

theorem Layout.length_starts (start : Nat) (pieces : List (List UInt8)) :
    (Layout.starts start pieces).length = pieces.length := by
  induction pieces generalizing start with
  | nil => rfl
  | cons piece rest ih => rw [Layout.starts, List.length_cons, ih, List.length_cons]

/-- Of pieces of the same width one behind another, each stands at a multiple of that width. -/
theorem Holds.item {α : Type} {items : List α} {piece : α → List UInt8} {width : Nat}
    (hwidth : ∀ item, (piece item).length = width) {data : ByteArray}
    {offset : Int} (h : Holds data offset (items.flatMap piece))
    {i : Nat} (hi : i < items.length) :
    Holds data (offset + width * i) (piece items[i]) := by
  induction items generalizing offset i with
  | nil => cases hi
  | cons head tail ih =>
    rw [List.flatMap_cons, Holds.append_iff, hwidth] at h
    cases i with
    | zero => exact h.1.at_eq (by simp)
    | succ i =>
      exact (ih h.2 (Nat.lt_of_succ_lt_succ hi)).at_eq (by
        rw [Int.natCast_succ, Int.mul_add]
        omega)

/-! ### Collecting items -/

theorem collectFrom_eq_ok {ε α : Type} {item : Nat → Except ε α} {items : List α} {index : Nat}
    (h : ∀ i (hi : i < items.length), item (index + i) = .ok items[i]) (found : Array α) :
    collectFrom item items.length index found = .ok (found ++ items) := by
  induction items generalizing index found with
  | nil => simp [collectFrom]
  | cons head tail ih =>
    have hhead : item index = .ok head := h 0 (Nat.zero_lt_succ _)
    have htail (i : Nat) (hi : i < tail.length) : item (index + 1 + i) = .ok tail[i] := by
      have hindex : index + 1 + i = index + (i + 1) := by omega
      rw [hindex]
      exact h (i + 1) (Nat.succ_lt_succ hi)
    simp only [List.length_cons, collectFrom, hhead, ih htail (found.push head)]
    simp

/-- Items that can all be had are all collected. -/
theorem collect_eq_ok {ε α : Type} {item : Nat → Except ε α} {items : List α} {count : Nat}
    (hcount : count = items.length)
    (h : ∀ i (hi : i < items.length), item i = .ok items[i]) : collect count item = .ok items := by
  subst hcount
  have hfrom : collectFrom item items.length 0 #[] = .ok (#[] ++ items) :=
    collectFrom_eq_ok (by simpa using h) #[]
  rw [collect, hfrom]
  simp [Except.map]

/-! ### Chunks -/

namespace Chunk

theorem length_chunk (kind headerSize : Nat) (body : List UInt8) :
    (Layout.chunk kind headerSize body).length = 8 + body.length := by
  simp only [Layout.chunk, List.length_append, Layout.length_number]

/-- The three fields of a chunk header that stand at an offset are read there. -/
theorem readAt_of_fields {data : ByteArray} {offset : Int} {kind headerSize size : Nat}
    (h : Holds data offset
      (Layout.number 2 kind ++ Layout.number 2 headerSize ++ Layout.number 4 size))
    (hkind : kind < 65536) (size_ge : 8 ≤ size) (hsize : size < 4294967296) :
    readAt data offset =
      .ok { start := offset, kind, headerSize := headerSize % 65536, size, size_ge } := by
  simp only [Holds.append_iff, Layout.length_number, List.length_append] at h
  rcases h with ⟨⟨hfirst, hsecond⟩, hthird⟩
  have hkindRead := hfirst.u16At hkind
  have hheaderRead : Bytes.u16At data (offset + 2) = .ok (headerSize % 65536) := hsecond.numberAt
  have hsizeRead : Bytes.u32At data (offset + 4) = .ok size :=
    (hthird.at_eq (by omega)).u32At hsize
  simp only [readAt, hkindRead, hheaderRead, hsizeRead, bind, Except.bind, size_ge, dite_true]
  rfl

/-- The fields of a chunk that was laid at an offset are read there. -/
theorem readAt_of_holds {data : ByteArray} {offset : Int} {kind headerSize : Nat}
    {body : List UInt8} (h : Holds data offset (Layout.chunk kind headerSize body))
    (hkind : kind < 65536) (hsize : (Layout.chunk kind headerSize body).length < 4294967296) :
    ∃ chunk, readAt data offset = .ok chunk ∧ chunk.start = offset ∧ chunk.kind = kind ∧
      chunk.headerSize = headerSize % 65536 ∧
      chunk.size = (Layout.chunk kind headerSize body).length := by
  rw [length_chunk] at hsize
  have hfields := (Holds.append_iff.mp h).1
  exact ⟨_, readAt_of_fields hfields hkind (Nat.le_add_right ..) hsize, rfl, rfl, rfl,
    (length_chunk ..).symm⟩

/-! A walk takes one chunk after another as long as there is room. -/

theorem visit_walk_of_lt {σ : Type} {data : ByteArray} {room limit offset : Int}
    (hroom : limit < offset + room) (step : σ → Chunk → Decoder σ) (state : σ) :
    (walk data room limit offset).visit step state = pure state := by
  rw [walk, if_neg (by omega)]
  rfl

theorem visit_walk_of_readAt {σ : Type} {data : ByteArray} {room limit offset : Int}
    {chunk : Chunk} (hroom : offset + room ≤ limit) (hread : readAt data offset = .ok chunk)
    (step : σ → Chunk → Decoder σ) (state : σ) :
    (walk data room limit offset).visit step state =
      step state chunk >>= (walk data room limit (offset + chunk.size)).visit step := by
  rw [walk, if_pos hroom, hread]
  simp only [Walk.visit, List.foldlM_cons, bind_assoc]
  rfl

end Chunk

end CompiledResources
