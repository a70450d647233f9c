import CompiledResources.Table.Session

/-!
Streams however they are cut. What has been taken after some blocks depends on their bytes alone, so
a stream is read like its bytes in one piece: a table that is all there is parsed as if it had come
in memory, and otherwise the error counts the bytes that came.
-/

namespace CompiledResources

namespace Intake

/-- What has been taken when these bytes have come, in whatever blocks. -/
def ofReceived (received : ByteArray) : Intake :=
  match Bytes.u32At received 4 with
  | .error _ => .prologue received
  | .ok declared =>
    if declared < 12 then .refused declared
    else if declared ≤ received.size then .complete (received.extract 0 declared)
    else .body declared received

/-- Eight bytes are enough to read the declared size. -/
theorem exists_declared {received : ByteArray} (hlong : prologueSize ≤ received.size) :
    ∃ declared, Bytes.u32At received 4 = .ok declared := by
  apply Bytes.exists_numberAt
  unfold Bytes.Fits prologueSize at *
  omega

/-- Bytes that come later do not change the declared size. -/
theorem declared_append {received : ByteArray} {declared : Nat}
    (hread : Bytes.u32At received 4 = .ok declared) (more : ByteArray) :
    Bytes.u32At (received ++ more) 4 = .ok declared := by
  rw [Bytes.u32At, Bytes.numberAt_append (Bytes.fits_of_numberAt hread).1]
  exact hread

/-- Fewer are not. -/
theorem not_declared {received : ByteArray} (hshort : received.size < prologueSize) :
    ∃ fault, Bytes.u32At received 4 = .error fault := by
  cases hread : Bytes.u32At received 4 with
  | error fault => exact ⟨fault, rfl⟩
  | ok declared =>
    have hfits := (Bytes.fits_of_numberAt hread).1
    unfold Bytes.Fits prologueSize at *
    omega

theorem ofReceived_of_short {received : ByteArray} (hshort : received.size < prologueSize) :
    ofReceived received = .prologue received := by
  obtain ⟨fault, hread⟩ := not_declared hshort
  rw [ofReceived, hread]

theorem ofReceived_of_declared {received : ByteArray} {declared : Nat}
    (hread : Bytes.u32At received 4 = .ok declared) :
    ofReceived received =
      if declared < 12 then .refused declared
      else if declared ≤ received.size then .complete (received.extract 0 declared)
      else .body declared received := by
  rw [ofReceived, hread]

theorem extract_of_size_le {bytes : ByteArray} {count : Nat} (hle : bytes.size ≤ count) :
    bytes.extract 0 count = bytes := by
  rw [← Nat.max_eq_left hle, ByteArray.extract_zero_max_size]

/-- Topping up to a number of bytes takes that many of all bytes. -/
theorem append_missing {taken : ByteArray} {count : Nat} (hmissing : taken.size ≤ count)
    (block : ByteArray) :
    taken ++ block.extract 0 (count - taken.size) = (taken ++ block).extract 0 count := by
  rw [ByteArray.extract_append, Nat.zero_sub, extract_of_size_le hmissing]

theorem takeBody_eq {declared : Nat} {taken : ByteArray} (hmissing : taken.size < declared)
    (block : ByteArray) :
    takeBody declared taken block =
      if declared ≤ (taken ++ block).size then .complete ((taken ++ block).extract 0 declared)
      else .body declared (taken ++ block) := by
  have hsize : ((taken ++ block).extract 0 declared).size = min declared (taken ++ block).size := by
    rw [ByteArray.size_extract, Nat.sub_zero]
  rw [takeBody, append_missing (Nat.le_of_lt hmissing), hsize]
  split
  next hend => rw [if_pos (hend ▸ Nat.min_le_right ..)]
  next hend =>
    have hpart : ¬ declared ≤ (taken ++ block).size := fun hle => hend (Nat.min_eq_left hle)
    rw [if_neg hpart, extract_of_size_le (Nat.le_of_not_le hpart)]

theorem takePrologue_eq {taken : ByteArray} (hmissing : taken.size < prologueSize)
    (block : ByteArray) : takePrologue taken block = ofReceived (taken ++ block) := by
  let front := (taken ++ block).extract 0 prologueSize
  let rest := block.extract (prologueSize - taken.size) block.size
  have hfront : taken ++ block.extract 0 (prologueSize - taken.size) = front :=
    append_missing (Nat.le_of_lt hmissing) block
  by_cases hshort : (taken ++ block).size < prologueSize
  · have hall : front = taken ++ block := extract_of_size_le (Nat.le_of_lt hshort)
    obtain ⟨fault, hread⟩ := not_declared hshort
    rw [takePrologue, hfront, hall, ofReceived_of_short hshort]
    simp only [hread]
  · have hsplit : front ++ rest = taken ++ block := by
      rw [← hfront, ByteArray.append_assoc, ByteArray.extract_append_extract, Nat.zero_min,
        extract_of_size_le (Nat.le_max_right ..)]
    have hsize : front.size = prologueSize := by
      rw [ByteArray.size_extract, Nat.sub_zero]
      exact Nat.min_eq_left (Nat.le_of_not_lt hshort)
    obtain ⟨declared, hread⟩ : ∃ declared, Bytes.u32At front 4 = .ok declared :=
      exists_declared (Nat.le_of_eq hsize.symm)
    have hread' : Bytes.u32At (taken ++ block) 4 = .ok declared := by
      rw [← hsplit]
      exact declared_append hread rest
    rw [takePrologue, hfront, ofReceived_of_declared hread']
    simp only [hread]
    split
    next => rfl
    next hlarge =>
      have hbody : front.size < declared := by
        unfold prologueSize at hsize
        omega
      exact (takeBody_eq hbody rest).trans (by rw [hsplit])

/-- A block takes what the bytes before it leave to what they leave together with its own. -/
theorem take_ofReceived (received block : ByteArray) :
    (ofReceived received).take block = ofReceived (received ++ block) := by
  by_cases hshort : received.size < prologueSize
  · rw [ofReceived_of_short hshort]
    exact takePrologue_eq hshort block
  · obtain ⟨declared, hread⟩ := exists_declared (Nat.le_of_not_lt hshort)
    rw [ofReceived_of_declared hread, ofReceived_of_declared (declared_append hread block)]
    split
    next => rfl
    next =>
      split
      next hend =>
        have hend' : declared ≤ (received ++ block).size := by
          rw [ByteArray.size_append]
          omega
        have htable : (received ++ block).extract 0 declared = received.extract 0 declared := by
          rw [ByteArray.extract_append, Nat.sub_eq_zero_of_le hend, Nat.zero_sub,
            ByteArray.extract_same,
            ByteArray.append_empty]
        rw [if_pos hend', htable]
        rfl
      next hpart => exact takeBody_eq (Nat.lt_of_not_le hpart) block

end Intake

/-- All bytes of a stream. -/
def ByteStream.received (stream : ByteStream) : ByteArray :=
  stream.blocks.foldl (fun received block => received ++ block) .empty

/-- The blocks leave what their bytes leave, and the cuts between them do not matter. -/
theorem ByteStream.gather_eq (stream : ByteStream) :
    stream.gather = (Intake.ofReceived stream.received).finish stream.failure := by
  have hblocks (blocks : List ByteArray) (received : ByteArray) :
      blocks.foldl Intake.take (Intake.ofReceived received) =
        Intake.ofReceived (blocks.foldl (fun received block => received ++ block) received) := by
    induction blocks generalizing received with
    | nil => rfl
    | cons block rest ih => rw [List.foldl_cons, List.foldl_cons, Intake.take_ofReceived, ih]
  have hstart : Intake.prologue .empty = Intake.ofReceived .empty :=
    (Intake.ofReceived_of_short (by decide)).symm
  rw [gather, hstart, hblocks]
  rfl

/-- Loading a stream into an empty table. As long as fewer than eight bytes come, these are
wanted; of more, the fifth to eighth declare the size of the table. A size below twelve is refused.
When all of the table comes, whatever else there is, it is loaded like bytes in memory. When it does
not, the table stays empty: the error of a stream that ends counts its bytes, and that of one that
fails is the failure. -/
theorem Session.perform_stream (session : Session) (name : Text) (stream : ByteStream)
    (hempty : (session.table name).isReady = false) :
    let received : ByteArray := stream.received
    let reply : Outcome Unit × Session := session.perform name (.load (.stream stream))
    let unchanged (error : TableError) : Outcome Unit × Session :=
      ({ result := .error error }, session)
    let brokenOff (expected : Nat) : Outcome Unit × Session :=
      match stream.failure with
      | none => unchanged (.unreadable (.streamEnded received.size expected))
      | some (.known error) => unchanged error
      | some (.other message) => unchanged (.unreadable (.streamFailed message))
    (received.size < 8 → reply = brokenOff 8) ∧
      (8 ≤ received.size → ∃ declared, Bytes.u32At received 4 = .ok declared ∧
        (declared < 12 →
          reply = unchanged (.fault (.layout (.tableTooSmall declared) 0))) ∧
        (12 ≤ declared → declared ≤ received.size →
          reply = session.perform name (.load (.bytes (received.extract 0 declared)))) ∧
        (12 ≤ declared → received.size < declared → reply = brokenOff declared)) := by
  intro received reply unchanged brokenOff
  have hfailed (error : TableError) (hgather : stream.gather = .error error) :
      reply = unchanged error := by
    have hnext : session.next name (.load (.stream stream)) = { result := .error error } := by
      rw [next, Table.load, Table.parseStream, if_neg (by simp [hempty]), hgather]
    change session.perform name _ = _
    rw [perform, hnext]
  have hbroken (expected : Nat)
      (hgather : stream.gather =
        .error (StreamFailure.toError received.size expected stream.failure)) :
      reply = brokenOff expected := by
    rw [hfailed _ hgather]
    simp only [brokenOff]
    cases stream.failure with
    | none => rfl
    | some failure => cases failure <;> rfl
  refine ⟨fun hshort => hbroken 8 ?_, fun hlong => ?_⟩
  · rw [ByteStream.gather_eq, Intake.ofReceived_of_short hshort]
    rfl
  · obtain ⟨declared, hread⟩ := Intake.exists_declared hlong
    refine ⟨declared, hread, fun hsmall => hfailed _ ?_, fun hlarge hend => ?_,
      fun hlarge hpart => hbroken declared ?_⟩
    · rw [ByteStream.gather_eq, Intake.ofReceived_of_declared hread, if_pos hsmall]
      rfl
    · have hgather : stream.gather = .ok (received.extract 0 declared) := by
        rw [ByteStream.gather_eq, Intake.ofReceived_of_declared hread,
          if_neg (Nat.not_lt_of_le hlarge), if_pos hend]
        rfl
      have hnext : session.next name (.load (.stream stream)) =
          session.next name (.load (.bytes (received.extract 0 declared))) := by
        rw [next, next, Table.load, Table.load, Table.parseStream, if_neg (by simp [hempty]),
          hgather]
      change session.perform name _ = _
      rw [perform, perform, hnext]
    · rw [ByteStream.gather_eq, Intake.ofReceived_of_declared hread,
        if_neg (Nat.not_lt_of_le hlarge), if_neg (Nat.not_le_of_lt hpart)]
      rfl

/-- A table of twelve bytes with three more behind it, cut in its header and just behind it, with an
empty block between, from a stream that fails in the end. -/
def ByteStream.overrun : ByteStream where
  blocks := [⟨#[2, 0, 12, 0, 12]⟩, ⟨#[]⟩, ⟨#[0, 0, 0]⟩, ⟨#[0, 0, 0, 0, 1, 2, 3]⟩]
  failure := some (.other "connection lost")

theorem Session.perform_stream_overrun :
    (Session.table [] "app").isReady = false ∧
      Session.perform [] "app" (.load (.stream ByteStream.overrun)) =
        Session.perform [] "app"
          (.load (.bytes ⟨#[2, 0, 12, 0, 12, 0, 0, 0, 0, 0, 0, 0]⟩)) := by
  have hempty : (Session.table [] "app").isReady = false := rfl
  have hsize : ByteStream.overrun.received.size = 15 := rfl
  have htwelve : Bytes.u32At ByteStream.overrun.received 4 = .ok 12 := by rfl
  obtain ⟨-, hlong⟩ := Session.perform_stream [] "app" ByteStream.overrun hempty
  obtain ⟨declared, hread, -, hwhole, -⟩ := hlong (by rw [hsize]; decide)
  obtain rfl : 12 = declared := Except.ok.inj (htwelve.symm.trans hread)
  exact ⟨hempty, hwhole (Nat.le_refl 12) (by rw [hsize]; decide)⟩

end CompiledResources
