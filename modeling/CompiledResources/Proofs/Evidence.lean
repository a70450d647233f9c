import CompiledResources.Contents.Decoding
import CompiledResources.Proofs.Composition

/-!
Every step of decoding is composed of the operations of a decoder, and the bytes at the offset of a
broken rule or of a refused feature show what is wrong there. All other faults are faults of the
layout, which reads give.
-/

namespace CompiledResources

/-- The bytes at the offset of a broken rule or of a refused feature show what is wrong. -/
def Fault.ShownBy (data : ByteArray) : Fault → Prop
  | .violation .typeSpecIdNotZero offset | .violation .typeIdNotZero offset =>
    Bytes.u8At data offset = .ok 0
  | .violation .typeSpecReservedZero offset | .violation .valueReservedZero offset =>
    ∃ reserved, Bytes.u8At data offset = .ok reserved ∧ reserved ≠ 0
  | .violation .typeFlagsKnown offset =>
    ∃ flags, Bytes.u8At data offset = .ok flags ∧ 1 < flags
  | .violation .typeReservedZero offset =>
    ∃ reserved, Bytes.u16At data offset = .ok reserved ∧ reserved ≠ 0
  | .violation (.stated _) _ => False
  | .unsupported .shortOffsets offset =>
    ∃ flags, Bytes.u8At data offset = .ok flags ∧ TypeHeader.hasShortOffsets flags = true
  | .layout _ _ => True

/-! ### Reads -/

/-- A result whose faults, if it is one, are faults of the layout. -/
def ReadsLayout {α : Type} (result : Except Fault α) : Prop :=
  ∀ fault, result = .error fault → ∃ error offset, fault = .layout error offset

namespace ReadsLayout

variable {α β : Type}

theorem pure (a : α) : ReadsLayout (Pure.pure a : Except Fault α) := by
  intro fault h
  cases h

theorem throw (error : LayoutError) (offset : Int) :
    ReadsLayout (MonadExcept.throw (.layout error offset) : Except Fault α) := by
  intro fault h
  cases h
  exact ⟨error, offset, rfl⟩

theorem bind {result : Except Fault α} {next : α → Except Fault β} (hresult : ReadsLayout result)
    (hnext : ∀ a, ReadsLayout (next a)) : ReadsLayout (result >>= next) := by
  intro fault h
  cases result with
  | ok a => exact hnext a fault h
  | error cause =>
    cases h
    exact hresult _ rfl

theorem map {result : Except Fault α} (f : α → β) (hresult : ReadsLayout result) :
    ReadsLayout (result.map f) := by
  intro fault h
  cases result with
  | ok a => cases h
  | error cause =>
    cases h
    exact hresult _ rfl

theorem collectFrom {item : Nat → Except Fault α} (hitem : ∀ i, ReadsLayout (item i))
    (count index : Nat) (found : Array α) :
    ReadsLayout (CompiledResources.collectFrom item count index found) := by
  induction count generalizing index found with
  | zero => exact pure found
  | succ count ih =>
    intro fault h
    rw [CompiledResources.collectFrom] at h
    cases hread : item index with
    | ok a => exact ih _ _ fault (by simpa [hread] using h)
    | error cause =>
      rw [hread] at h
      cases h
      exact hitem index _ hread

theorem collect {item : Nat → Except Fault α} (hitem : ∀ i, ReadsLayout (item i)) (count : Nat) :
    ReadsLayout (collect count item) :=
  map _ (collectFrom hitem count 0 #[])

theorem bytesAt (data : ByteArray) (offset : Int) (width : Nat) :
    ReadsLayout (Bytes.bytesAt data offset width) := by
  unfold Bytes.bytesAt
  split
  · exact pure _
  · exact throw _ _

theorem numberAt (width : Nat) (data : ByteArray) (offset : Int) :
    ReadsLayout (Bytes.numberAt width data offset) :=
  map _ (bytesAt data offset width)

/-- A guard that raises a fault of the layout may stand before any read. -/
theorem guard {c : Prop} [Decidable c] {error : LayoutError} {offset : Int}
    {rest : Except Fault α} (hrest : ReadsLayout rest) :
    ReadsLayout (if c then (do (MonadExcept.throw (.layout error offset) : Except Fault Unit); rest)
      else rest) := by
  split
  · exact throw error offset
  · exact hrest

theorem chunk (data : ByteArray) (offset : Int) : ReadsLayout (Chunk.readAt data offset) := by
  refine bind (numberAt _ _ _) fun kind => bind (numberAt _ _ _) fun headerSize =>
    bind (numberAt _ _ _) fun size => ?_
  split
  · exact pure _
  · exact throw _ _

theorem walk (data : ByteArray) (room limit offset : Int) {fault : Fault}
    (h : (Chunk.walk data room limit offset).fault = some fault) :
    ∃ error place, fault = .layout error place := by
  fun_induction Chunk.walk data room limit offset with
  | case1 offset hroom chunk hread rest ih => exact ih h
  | case2 offset hroom cause hread =>
    cases h
    exact chunk data offset _ hread
  | case3 offset hroom => cases h

theorem tableHeader (data : ByteArray) : ReadsLayout (TableHeader.read data) :=
  bind (chunk _ _) fun _ => guard (guard (bind (numberAt _ _ _) fun _ => pure _))

theorem packageHeader (data : ByteArray) (chunk : Chunk) :
    ReadsLayout (PackageHeader.read data chunk) :=
  bind (numberAt _ _ _) fun _ => bind (collect (fun _ => numberAt _ _ _) _) fun _ =>
    bind (numberAt _ _ _) fun _ => bind (numberAt _ _ _) fun _ =>
      bind (numberAt _ _ _) fun _ => bind (numberAt _ _ _) fun _ => pure _

theorem poolHeader (data : ByteArray) (chunk : Chunk) : ReadsLayout (PoolHeader.read data chunk) :=
  bind (numberAt _ _ _) fun _ => bind (numberAt _ _ _) fun _ => bind (numberAt _ _ _) fun _ =>
    bind (numberAt _ _ _) fun _ => bind (numberAt _ _ _) fun _ => pure _

theorem utf16 (data : ByteArray) (offset : Int) : ReadsLayout (StringPool.utf16At data offset) := by
  refine bind (numberAt _ _ _) fun length => ?_
  split
  · exact pure _
  · exact bind (bytesAt _ _ _) fun _ => pure _

theorem utf8 (data : ByteArray) (offset : Int) : ReadsLayout (StringPool.utf8At data offset) :=
  bind (numberAt _ _ _) fun _ => bind (bytesAt _ _ _) fun _ => pure _

theorem poolString (data : ByteArray) (header : PoolHeader) (ordinal : Nat) :
    ReadsLayout (StringPool.stringOf data header ordinal) := by
  refine bind (numberAt _ _ _) fun place => ?_
  dsimp only
  split
  · exact bind (utf8 _ _) fun _ => pure _
  · exact bind (utf16 _ _) fun _ => pure _

theorem pool (data : ByteArray) (chunk : Chunk) : ReadsLayout (StringPool.read data chunk) :=
  bind (poolHeader _ _) fun _ => bind (collect (poolString _ _) _) fun _ => pure _

theorem poolAt (data : ByteArray) (offset : Int) (purpose : Text) :
    ReadsLayout (StringPool.readAt data offset purpose) :=
  bind (chunk _ _) fun _ => guard (pool _ _)

theorem chars (data : ByteArray) (offset : Int) (width : Nat) :
    ReadsLayout (Qualifiers.charsAt data offset width) :=
  map _ (bytesAt _ _ _)

theorem places (data : ByteArray) (header : TypeHeader) :
    ReadsLayout (EntryPlace.readAll data header) := by
  refine bind (collect (fun slot => ?_) _) fun _ => pure _
  split
  · exact bind (numberAt _ _ _) fun _ => bind (numberAt _ _ _) fun _ => pure _
  · exact bind (numberAt _ _ _) fun _ => pure _

theorem qualifiersBase (data : ByteArray) (offset : Int) (size : Nat) :
    ReadsLayout (Qualifiers.readBase data offset size) :=
  bind (numberAt _ _ _) fun _ => bind (numberAt _ _ _) fun _ => bind (chars _ _ _) fun _ =>
    bind (chars _ _ _) fun _ => bind (numberAt _ _ _) fun _ => bind (numberAt _ _ _) fun _ =>
      bind (numberAt _ _ _) fun _ => bind (numberAt _ _ _) fun _ => bind (numberAt _ _ _) fun _ =>
        bind (numberAt _ _ _) fun _ => bind (numberAt _ _ _) fun _ => bind (numberAt _ _ _) fun _ =>
          bind (numberAt _ _ _) fun _ => bind (numberAt _ _ _) fun _ =>
            bind (numberAt _ _ _) fun _ => pure _

theorem qualifiersScreen (data : ByteArray) (offset : Int) (q : Qualifiers) :
    ReadsLayout (Qualifiers.readScreen data offset q) :=
  bind (numberAt _ _ _) fun _ => bind (numberAt _ _ _) fun _ => bind (numberAt _ _ _) fun _ =>
    pure _

theorem qualifiersAvailable (data : ByteArray) (offset : Int) (q : Qualifiers) :
    ReadsLayout (Qualifiers.readAvailable data offset q) :=
  bind (numberAt _ _ _) fun _ => bind (numberAt _ _ _) fun _ => pure _

theorem qualifiersScript (data : ByteArray) (offset : Int) (q : Qualifiers) :
    ReadsLayout (Qualifiers.readScript data offset q) :=
  bind (chars _ _ _) fun _ => pure _

theorem qualifiersVariant (data : ByteArray) (offset : Int) (q : Qualifiers) :
    ReadsLayout (Qualifiers.readVariant data offset q) :=
  bind (chars _ _ _) fun _ => pure _

end ReadsLayout

/-! ### Steps -/

open Decoder

theorem TypeSpec.composed_read (data : ByteArray) (chunk : Chunk) :
    Composed (Fault.ShownBy data) (TypeSpec.read data chunk) := by
  refine .read (ReadsLayout.numberAt _ _ _) fun id hid => .bind (.check fun hbroken => ?_) fun _ =>
    .read (ReadsLayout.numberAt _ _ _) fun reserved hreserved => .bind (.check fun hbroken => ?_)
      fun _ => .read (ReadsLayout.numberAt _ _ _) fun _ _ =>
        .read (ReadsLayout.numberAt _ _ _) fun _ _ => .pure _
  · obtain rfl : id = 0 := by simpa using hbroken
    exact hid
  · exact ⟨reserved, hreserved, by simpa using hbroken⟩

theorem Qualifiers.composed_passTrailing {shown : Fault → Prop} (data : ByteArray) (offset : Int)
    (size : Nat) : Composed shown (Qualifiers.passTrailing data offset size) := by
  refine .read (ReadsLayout.bytesAt _ _ _) fun trailing _ => ?_
  split
  · exact .note _ (by simp [Notice.level])
  · exact .pure ()

/-- Each stage of a record ends it or goes on to the next. -/
theorem Qualifiers.composed_readAt {shown : Fault → Prop} (data : ByteArray) (offset : Int) :
    Composed shown (Qualifiers.readAt data offset) := by
  refine .read (ReadsLayout.numberAt _ _ _) fun size _ =>
    .read (ReadsLayout.qualifiersBase _ _ _) fun base _ => .ite (.pure _) ?_
  refine .read (ReadsLayout.qualifiersScreen _ _ _) fun screen _ => .ite (.pure _) ?_
  refine .read (ReadsLayout.qualifiersAvailable _ _ _) fun available _ => .ite (.pure _) ?_
  refine .read (ReadsLayout.qualifiersScript _ _ _) fun script _ => .ite (.pure _) ?_
  refine .read (ReadsLayout.qualifiersVariant _ _ _) fun variant _ => .ite (.pure _) ?_
  exact .bind (composed_passTrailing data offset size) fun _ => .pure _

theorem TypeHeader.composed_read (data : ByteArray) (chunk : Chunk) :
    Composed (Fault.ShownBy data) (TypeHeader.read data chunk) := by
  refine .read (ReadsLayout.numberAt _ _ _) fun id hid => .bind (.check fun hbroken => ?_) fun _ =>
    .read (ReadsLayout.numberAt _ _ _) fun flags hflags =>
      .guard (fun hshort => .unsupported _ _ ⟨flags, hflags, hshort⟩) ?_
  · obtain rfl : id = 0 := by simpa using hbroken
    exact hid
  · refine .bind (.check fun hbroken => ⟨flags, hflags, by simpa using hbroken⟩) fun _ =>
      .read (ReadsLayout.numberAt _ _ _) fun reserved hreserved =>
        .bind (.check fun hbroken => ⟨reserved, hreserved, by simpa using hbroken⟩) fun _ =>
          .read (ReadsLayout.numberAt _ _ _) fun _ _ =>
            .read (ReadsLayout.numberAt _ _ _) fun _ _ =>
              .bind (Qualifiers.composed_readAt data _) fun _ => .pure _

theorem ValueRecord.composed_readAt (data : ByteArray) (offset : Int) :
    Composed (Fault.ShownBy data) (ValueRecord.readAt data offset) := by
  refine .read (ReadsLayout.numberAt _ _ _) fun size _ => .ite (.pure none) ?_
  refine .read (ReadsLayout.numberAt _ _ _) fun reserved hreserved =>
    .bind (.check fun hbroken => ⟨reserved, hreserved, by simpa using hbroken⟩) fun _ =>
      .read (ReadsLayout.numberAt _ _ _) fun _ _ => .read (ReadsLayout.numberAt _ _ _) fun _ _ =>
        .pure _

theorem EntryHeader.composed_noteFlags {shown : Fault → Prop} (flags : Nat) :
    Composed shown (EntryHeader.noteFlags flags) := by
  have hcompact : Composed shown
      (if EntryHeader.isCompact flags then noteOnce "compact" .compactEntry else pure ()) :=
    .ite (.noteOnce _ _ (by simp [Notice.level])) (.pure ())
  exact .ite (.bind (.noteOnce _ _ (by simp [Notice.level])) fun _ => hcompact) hcompact

theorem EntryHeader.composed_readAt {shown : Fault → Prop} (data : ByteArray) (offset : Int) :
    Composed shown (EntryHeader.readAt data offset) := by
  refine .read (ReadsLayout.numberAt _ _ _) fun size _ =>
    .read (ReadsLayout.numberAt _ _ _) fun flags _ =>
      .read (ReadsLayout.numberAt _ _ _) fun key _ =>
        .bind (composed_noteFlags flags) fun _ => .ite ?_ (.ite ?_ (.pure _))
  · exact .bind (.note _ (by simp [Notice.level])) fun _ => .pure _
  · exact .read (ReadsLayout.numberAt _ _ _) fun _ _ =>
      .read (ReadsLayout.numberAt _ _ _) fun _ _ => .pure _

theorem Entry.composed_readRecords (context : Entry.Context) (data : ByteArray) (offset : Int)
    (count index : Nat) (bag : Bag) :
    Composed (Fault.ShownBy data) (Entry.readRecords context data offset count index bag) := by
  induction count generalizing index bag with
  | zero => exact .pure _
  | succ count ih =>
    refine .read (ReadsLayout.numberAt _ _ _) fun name _ =>
      .bind (ValueRecord.composed_readAt data _) fun record => ?_
    cases record with
    | none => exact .pure _
    | some record =>
      dsimp only
      split
      · exact ih _ _
      · exact .bind (.note _ (by simp [Notice.level])) fun _ => ih _ _

theorem Entry.composed_readValue (context : Entry.Context) (data : ByteArray)
    (header : EntryHeader) (offset : Int) :
    Composed (Fault.ShownBy data) (Entry.readValue context data header offset) := by
  refine .ite (.bind (composed_readRecords context data offset _ _ _) fun result => ?_)
    (.bind (ValueRecord.composed_readAt data offset) fun record => ?_)
  · cases result <;> exact .pure _
  · cases record <;> exact .pure _

theorem PackageScope.composed_readEntry (scope : PackageScope) (typeId : Nat) (place : EntryPlace) :
    Composed (Fault.ShownBy scope.data) (scope.readEntry typeId place) := by
  refine .bind (EntryHeader.composed_readAt scope.data _) fun header => ?_
  cases header with
  | none => exact .pure none
  | some header =>
    refine .bind (Entry.composed_readValue _ scope.data header _) fun result => ?_
    cases result with
    | ok value => exact .pure _
    | error refusal => exact .bind (.note _ (by simp [Notice.level])) fun _ => .pure none

theorem PackageScope.composed_readEntries (scope : PackageScope) (typeId : Nat)
    (places : List EntryPlace) :
    Composed (Fault.ShownBy scope.data) (scope.readEntries typeId places) :=
  .bind (.mapM (scope.composed_readEntry typeId) places) fun _ => .pure _

theorem OpenPackage.composed_declare (scope : PackageScope) (state : OpenPackage) (chunk : Chunk) :
    Composed (Fault.ShownBy scope.data) (OpenPackage.declare scope state chunk) := by
  refine .bind (TypeSpec.composed_read scope.data chunk) fun spec => ?_
  exact .ite (.bind (.note _ (by simp [Notice.level])) fun _ => .pure _) (.pure _)

theorem OpenPackage.composed_fill (scope : PackageScope) (state : OpenPackage) (chunk : Chunk) :
    Composed (Fault.ShownBy scope.data) (OpenPackage.fill scope state chunk) := by
  refine .bind (TypeHeader.composed_read scope.data chunk) fun header =>
    .guard (fun _ => .layout _ _) ?_
  exact .read (ReadsLayout.places _ _) fun places _ =>
    .bind (scope.composed_readEntries header.id places) fun _ => .pure _

theorem OpenPackage.composed_enter (scope : PackageScope) (state : OpenPackage) (chunk : Chunk) :
    Composed (Fault.ShownBy scope.data) (OpenPackage.enter scope state chunk) :=
  .ite (composed_declare scope state chunk) (.ite (composed_fill scope state chunk) (.pure state))

theorem Package.composed_noteSummary {shown : Fault → Prop} (package : Package) :
    Composed shown package.noteSummary :=
  .forM (fun _ => .note _ (by simp [Notice.level])) package.types

theorem Chunk.composed_visit {shown : Fault → Prop} {σ : Type} {step : σ → Chunk → Decoder σ}
    (hstep : ∀ state chunk, Composed shown (step state chunk)) (data : ByteArray)
    (room limit offset : Int) (state : σ) :
    Composed shown ((Chunk.walk data room limit offset).visit step state) := by
  refine .bind (.foldlM hstep _ state) fun final => ?_
  split
  next fault hfault =>
    obtain ⟨error, place, rfl⟩ := ReadsLayout.walk data room limit offset hfault
    exact .layout error place
  next => exact .pure final

/-- A walk that succeeds is the run of its chunks. -/
theorem Chunk.run_foldlM_of_visit {σ : Type} {walk : Chunk.Walk} {step : σ → Chunk → Decoder σ}
    {state final : σ} {policy : Policy} {journal after : Journal}
    (h : run (walk.visit step state) policy journal = (.ok final, after)) :
    run (walk.chunks.foldlM step state) policy journal = (.ok final, after) := by
  obtain ⟨last, between, hfold, hend⟩ := exists_of_run_bind h
  cases hfault : walk.fault with
  | none =>
    rw [hfault] at hend
    cases hend
    exact hfold
  | some fault =>
    rw [hfault] at hend
    cases hend

theorem OpenTable.composed_addStrings {shown : Fault → Prop} (data : ByteArray)
    (state : OpenTable) (chunk : Chunk) :
    Composed shown (OpenTable.addStrings data state chunk) :=
  .read (ReadsLayout.pool data chunk) fun _ _ => .pure _

theorem OpenTable.composed_addPackage (data : ByteArray) (state : OpenTable) (chunk : Chunk) :
    Composed (Fault.ShownBy data) (OpenTable.addPackage data state chunk) := by
  refine .read (ReadsLayout.packageHeader data chunk) fun header _ =>
    .bind (.note _ (by simp [Notice.level])) fun _ => ?_
  refine .read (ReadsLayout.poolAt data _ _) fun typePool _ =>
    .read (ReadsLayout.poolAt data _ _) fun keyPool _ => ?_
  let scope : PackageScope := {
    data, packageId := header.id, typeNames := typePool.strings, keyNames := keyPool.strings
    strings := state.contents.strings }
  exact .bind (Chunk.composed_visit (OpenPackage.composed_enter scope) data _ _ _ _) fun final =>
    .bind (Package.composed_noteSummary _) fun _ => .pure _

theorem OpenTable.composed_enter (data : ByteArray) (state : OpenTable) (chunk : Chunk) :
    Composed (Fault.ShownBy data) (OpenTable.enter data state chunk) :=
  .ite (composed_addStrings data state chunk)
    (.ite (composed_addPackage data state chunk) (.pure state))

/-- All of decoding is composed of the operations of a decoder. -/
theorem Contents.composed_decode (data : ByteArray) :
    Composed (Fault.ShownBy data) (Contents.decode data) := by
  refine .read (ReadsLayout.tableHeader data) fun header _ =>
    .bind (.note _ (by simp [Notice.level])) fun _ => .guard (fun _ => .layout _ _) ?_
  exact .bind (Chunk.composed_visit (OpenTable.composed_enter data) data _ _ _ _) fun _ => .pure _

end CompiledResources
