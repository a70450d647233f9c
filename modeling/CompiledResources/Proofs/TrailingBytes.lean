import CompiledResources.Proofs.Evidence
import CompiledResources.Proofs.Histories
import CompiledResources.Proofs.StreamCuts

/-!
Bytes behind a table. Only a fault of the layout can have to do with where a buffer ends: decoding
that comes to anything else comes to the same, with the same notices, when more bytes follow. So the
bytes of a stream that is parsed with success are parsed alike when all of them are in memory.
-/

namespace CompiledResources

/-! ### Reads of more bytes -/

/-- What the first read gives, the second gives too. -/
def ReadsAlso {α : Type} (result longer : Except Fault α) : Prop :=
  ∀ a, result = .ok a → longer = .ok a

namespace ReadsAlso

variable {α β : Type}

theorem refl (result : Except Fault α) : ReadsAlso result result :=
  fun _ h => h

theorem bind {result longer : Except Fault α} {next next' : α → Except Fault β}
    (hresult : ReadsAlso result longer) (hnext : ∀ a, ReadsAlso (next a) (next' a)) :
    ReadsAlso (result >>= next) (longer >>= next') := by
  intro b h
  cases result with
  | ok a =>
    rw [hresult a rfl]
    exact hnext a b h
  | error fault => cases h

theorem map {result longer : Except Fault α} (f : α → β) (hresult : ReadsAlso result longer) :
    ReadsAlso (result.map f) (longer.map f) := by
  intro b h
  cases result with
  | ok a =>
    rw [hresult a rfl]
    exact h
  | error fault => cases h

theorem ite {c : Prop} [Decidable c] {first first' second second' : Except Fault α}
    (hfirst : ReadsAlso first first') (hsecond : ReadsAlso second second') :
    ReadsAlso (if c then first else second) (if c then first' else second') := by
  split
  · exact hfirst
  · exact hsecond

theorem collectFrom {item item' : Nat → Except Fault α} (hitem : ∀ i, ReadsAlso (item i) (item' i))
    (count index : Nat) (found : Array α) :
    ReadsAlso (CompiledResources.collectFrom item count index found)
      (CompiledResources.collectFrom item' count index found) := by
  induction count generalizing index found with
  | zero => exact refl _
  | succ count ih =>
    intro all h
    rw [CompiledResources.collectFrom] at h ⊢
    cases hread : item index with
    | ok a =>
      rw [hread] at h
      rw [hitem index a hread]
      exact ih _ _ all h
    | error fault =>
      rw [hread] at h
      cases h

theorem collect {item item' : Nat → Except Fault α} (hitem : ∀ i, ReadsAlso (item i) (item' i))
    (count : Nat) :
    ReadsAlso (CompiledResources.collect count item) (CompiledResources.collect count item') :=
  map _ (collectFrom hitem count 0 #[])

variable (data more : ByteArray)

theorem bytesAt (offset : Int) (width : Nat) :
    ReadsAlso (Bytes.bytesAt data offset width) (Bytes.bytesAt (data ++ more) offset width) := by
  intro bytes h
  rw [Bytes.bytesAt_append (Bytes.fits_of_bytesAt h).1 more, h]

theorem numberAt (width : Nat) (offset : Int) :
    ReadsAlso (Bytes.numberAt width data offset) (Bytes.numberAt width (data ++ more) offset) :=
  map _ (bytesAt data more offset width)

theorem chunk (offset : Int) :
    ReadsAlso (Chunk.readAt data offset) (Chunk.readAt (data ++ more) offset) :=
  bind (numberAt _ _ _ _) fun _ => bind (numberAt _ _ _ _) fun _ =>
    bind (numberAt _ _ _ _) fun _ => refl _

theorem tableHeader : ReadsAlso (TableHeader.read data) (TableHeader.read (data ++ more)) :=
  bind (chunk data more 0) fun _ => ite (refl _) <| ite (refl _) <|
    bind (numberAt _ _ _ _) fun _ => refl _

theorem packageHeader (chunk : Chunk) :
    ReadsAlso (PackageHeader.read data chunk) (PackageHeader.read (data ++ more) chunk) :=
  bind (numberAt _ _ _ _) fun _ => bind (collect (fun _ => numberAt _ _ _ _) _) fun _ =>
    bind (numberAt _ _ _ _) fun _ => bind (numberAt _ _ _ _) fun _ =>
      bind (numberAt _ _ _ _) fun _ => bind (numberAt _ _ _ _) fun _ => refl _

theorem poolHeader (chunk : Chunk) :
    ReadsAlso (PoolHeader.read data chunk) (PoolHeader.read (data ++ more) chunk) :=
  bind (numberAt _ _ _ _) fun _ => bind (numberAt _ _ _ _) fun _ =>
    bind (numberAt _ _ _ _) fun _ => bind (numberAt _ _ _ _) fun _ =>
      bind (numberAt _ _ _ _) fun _ => refl _

theorem utf16 (offset : Int) :
    ReadsAlso (StringPool.utf16At data offset) (StringPool.utf16At (data ++ more) offset) :=
  bind (numberAt _ _ _ _) fun _ => ite (refl _) (bind (bytesAt _ _ _ _) fun _ => refl _)

theorem utf8 (offset : Int) :
    ReadsAlso (StringPool.utf8At data offset) (StringPool.utf8At (data ++ more) offset) :=
  bind (numberAt _ _ _ _) fun _ => bind (bytesAt _ _ _ _) fun _ => refl _

theorem poolString (header : PoolHeader) (ordinal : Nat) :
    ReadsAlso (StringPool.stringOf data header ordinal)
      (StringPool.stringOf (data ++ more) header ordinal) :=
  bind (numberAt _ _ _ _) fun _ => ite (bind (utf8 _ _ _) fun _ => refl _)
    (bind (utf16 _ _ _) fun _ => refl _)

theorem pool (chunk : Chunk) :
    ReadsAlso (StringPool.read data chunk) (StringPool.read (data ++ more) chunk) :=
  bind (poolHeader _ _ _) fun header => bind (collect (poolString _ _ header) _) fun _ => refl _

theorem poolAt (offset : Int) (purpose : Text) :
    ReadsAlso (StringPool.readAt data offset purpose)
      (StringPool.readAt (data ++ more) offset purpose) :=
  bind (chunk _ _ _) fun _ => ite (refl _) (pool _ _ _)

theorem chars (offset : Int) (width : Nat) :
    ReadsAlso (Qualifiers.charsAt data offset width)
      (Qualifiers.charsAt (data ++ more) offset width) :=
  map _ (bytesAt _ _ _ _)

theorem qualifiersBase (offset : Int) (size : Nat) :
    ReadsAlso (Qualifiers.readBase data offset size)
      (Qualifiers.readBase (data ++ more) offset size) :=
  bind (numberAt _ _ _ _) fun _ => bind (numberAt _ _ _ _) fun _ => bind (chars _ _ _ _) fun _ =>
    bind (chars _ _ _ _) fun _ => bind (numberAt _ _ _ _) fun _ => bind (numberAt _ _ _ _) fun _ =>
      bind (numberAt _ _ _ _) fun _ => bind (numberAt _ _ _ _) fun _ =>
        bind (numberAt _ _ _ _) fun _ => bind (numberAt _ _ _ _) fun _ =>
          bind (numberAt _ _ _ _) fun _ => bind (numberAt _ _ _ _) fun _ =>
            bind (numberAt _ _ _ _) fun _ => bind (numberAt _ _ _ _) fun _ =>
              bind (numberAt _ _ _ _) fun _ => refl _

theorem qualifiersScreen (offset : Int) (q : Qualifiers) :
    ReadsAlso (Qualifiers.readScreen data offset q)
      (Qualifiers.readScreen (data ++ more) offset q) :=
  bind (numberAt _ _ _ _) fun _ => bind (numberAt _ _ _ _) fun _ =>
    bind (numberAt _ _ _ _) fun _ => refl _

theorem qualifiersAvailable (offset : Int) (q : Qualifiers) :
    ReadsAlso (Qualifiers.readAvailable data offset q)
      (Qualifiers.readAvailable (data ++ more) offset q) :=
  bind (numberAt _ _ _ _) fun _ => bind (numberAt _ _ _ _) fun _ => refl _

theorem qualifiersScript (offset : Int) (q : Qualifiers) :
    ReadsAlso (Qualifiers.readScript data offset q)
      (Qualifiers.readScript (data ++ more) offset q) :=
  bind (chars _ _ _ _) fun _ => refl _

theorem qualifiersVariant (offset : Int) (q : Qualifiers) :
    ReadsAlso (Qualifiers.readVariant data offset q)
      (Qualifiers.readVariant (data ++ more) offset q) :=
  bind (chars _ _ _ _) fun _ => refl _

theorem places (header : TypeHeader) :
    ReadsAlso (EntryPlace.readAll data header) (EntryPlace.readAll (data ++ more) header) := by
  refine bind (collect (fun slot => ?_) _) fun _ => refl _
  split
  · exact bind (numberAt _ _ _ _) fun _ => bind (numberAt _ _ _ _) fun _ => refl _
  · exact bind (numberAt _ _ _ _) fun _ => refl _

end ReadsAlso

/-- A walk through more bytes finds the same chunks, and finds others behind them only where the
walk through fewer was cut short. -/
theorem Chunk.walk_append (data more : ByteArray) (room limit offset : Int) :
    Chunk.walk (data ++ more) room limit offset = Chunk.walk data room limit offset ∨
      ∃ fault rest, (Chunk.walk data room limit offset).fault = some fault ∧
        (Chunk.walk (data ++ more) room limit offset).chunks =
          (Chunk.walk data room limit offset).chunks ++ rest := by
  fun_induction Chunk.walk data room limit offset with
  | case1 offset hroom chunk hread rest ih =>
    rw [Chunk.walk, if_pos hroom, ReadsAlso.chunk data more offset chunk hread]
    dsimp only
    rcases ih with hsame | ⟨fault, others, hfault, hchunks⟩
    · exact Or.inl (by rw [hsame])
    · exact Or.inr ⟨fault, others, hfault, congrArg (chunk :: ·) hchunks⟩
  | case2 offset hroom fault hread => exact Or.inr ⟨fault, _, rfl, rfl⟩
  | case3 offset hroom => exact Or.inl (by rw [Chunk.walk, if_neg hroom])

/-! ### Steps over more bytes -/

namespace Decoder

/-- Unless the first step ends with a fault of the layout, the second comes to the same. -/
def Outlasts {α : Type} (step longer : Decoder α) : Prop :=
  ∀ policy journal, (∃ error offset, (run step policy journal).1 = .error (.layout error offset)) ∨
    run longer policy journal = run step policy journal

namespace Outlasts

variable {α β σ : Type}

theorem refl (step : Decoder α) : Outlasts step step :=
  fun _ _ => Or.inr rfl

theorem layout (error : LayoutError) (offset : Int) (longer : Decoder α) :
    Outlasts (throw (.layout error offset)) longer :=
  fun _ _ => Or.inl ⟨error, offset, rfl⟩

theorem bind {step longer : Decoder α} {next next' : α → Decoder β} (hstep : Outlasts step longer)
    (hnext : ∀ a, Outlasts (next a) (next' a)) :
    Outlasts (step >>= next) (longer >>= next') := by
  intro policy journal
  cases hrun : run step policy journal with
  | mk result after =>
    rcases hstep policy journal with ⟨error, offset, hlayout⟩ | hsame
    · obtain rfl : result = .error (.layout error offset) := by simpa [hrun] using hlayout
      exact Or.inl ⟨error, offset, by rw [run_bind_of_error hrun]⟩
    · rw [hrun] at hsame
      cases result with
      | ok a =>
        rw [run_bind_of_ok hrun, run_bind_of_ok hsame]
        exact hnext a policy after
      | error fault => exact Or.inr (by rw [run_bind_of_error hrun, run_bind_of_error hsame])

/-- A read that fails ends with a fault of the layout, and then the longer step may do anything. -/
theorem read {result longer : Except Fault α} {next next' : α → Decoder β}
    (hlayout : ReadsLayout result) (hresult : ReadsAlso result longer)
    (hnext : ∀ a, Outlasts (next a) (next' a)) :
    Outlasts (ofExcept result >>= next) (ofExcept longer >>= next') := by
  cases result with
  | ok a =>
    rw [hresult a rfl]
    exact hnext a
  | error fault =>
    obtain ⟨error, offset, rfl⟩ := hlayout fault rfl
    exact layout error offset _

theorem number {data : ByteArray} (more : ByteArray) {width : Nat} {offset : Int}
    {next next' : Nat → Decoder β} (hnext : ∀ n, Outlasts (next n) (next' n)) :
    Outlasts (ofExcept (Bytes.numberAt width data offset) >>= next)
      (ofExcept (Bytes.numberAt width (data ++ more) offset) >>= next') :=
  read (ReadsLayout.numberAt width data offset) (ReadsAlso.numberAt data more width offset) hnext

theorem ite {c : Prop} [Decidable c] {first first' second second' : Decoder α}
    (hfirst : Outlasts first first') (hsecond : Outlasts second second') :
    Outlasts (if c then first else second) (if c then first' else second') := by
  split
  · exact hfirst
  · exact hsecond

/-- A guard that raises a fault may stand before any step. -/
theorem guard {c : Prop} [Decidable c] {fault : Fault} {rest rest' : Decoder α}
    (hrest : Outlasts rest rest') :
    Outlasts (if c then (do (throw fault : Decoder Unit); rest) else rest)
      (if c then (do (throw fault : Decoder Unit); rest') else rest') :=
  ite (bind (refl _) fun _ => hrest) hrest

theorem foldlM {step longer : σ → α → Decoder σ}
    (hstep : ∀ state a, Outlasts (step state a) (longer state a)) (items : List α) (state : σ) :
    Outlasts (items.foldlM step state) (items.foldlM longer state) := by
  induction items generalizing state with
  | nil => exact refl _
  | cons item rest ih =>
    rw [List.foldlM_cons, List.foldlM_cons]
    exact bind (hstep state item) ih

theorem mapM {step longer : α → Decoder β} (hstep : ∀ a, Outlasts (step a) (longer a))
    (items : List α) : Outlasts (items.mapM step) (items.mapM longer) := by
  induction items with
  | nil => exact refl _
  | cons item rest ih =>
    rw [List.mapM_cons, List.mapM_cons]
    exact bind (hstep item) fun b => bind ih fun found => refl _

/-- A walk that is cut short ends with a fault of the layout, so what a longer walk finds behind
does not matter. -/
theorem visit {step longer : σ → Chunk → Decoder σ}
    (hstep : ∀ state chunk, Outlasts (step state chunk) (longer state chunk))
    (data more : ByteArray) (room limit offset : Int) (state : σ) :
    Outlasts ((Chunk.walk data room limit offset).visit step state)
      ((Chunk.walk (data ++ more) room limit offset).visit longer state) := by
  rcases Chunk.walk_append data more room limit offset with hsame | ⟨fault, rest, hfault, hchunks⟩
  · rw [hsame]
    exact bind (foldlM hstep _ state) fun _ => refl _
  · obtain ⟨error, place, rfl⟩ := ReadsLayout.walk data room limit offset hfault
    rw [Chunk.Walk.visit, Chunk.Walk.visit, hchunks, List.foldlM_append, bind_assoc, hfault]
    exact bind (foldlM hstep _ state) fun _ => layout error place _

end Outlasts
end Decoder

/-! ### The steps of decoding -/

open Decoder

variable (data more : ByteArray)

theorem TypeSpec.outlasts_read (chunk : Chunk) :
    Outlasts (TypeSpec.read data chunk) (TypeSpec.read (data ++ more) chunk) :=
  .number more fun _ => .bind (.refl _) fun _ => .number more fun _ => .bind (.refl _) fun _ =>
    .number more fun _ => .number more fun _ => .refl _

theorem Qualifiers.outlasts_passTrailing (offset : Int) (size : Nat) :
    Outlasts (Qualifiers.passTrailing data offset size)
      (Qualifiers.passTrailing (data ++ more) offset size) :=
  .read (ReadsLayout.bytesAt _ _ _) (ReadsAlso.bytesAt _ _ _ _) fun _ => .refl _

/-- Each stage of a record ends it or goes on to the next. -/
theorem Qualifiers.outlasts_readAt (offset : Int) :
    Outlasts (Qualifiers.readAt data offset) (Qualifiers.readAt (data ++ more) offset) := by
  refine .number more fun size => .read (ReadsLayout.qualifiersBase _ _ _)
    (ReadsAlso.qualifiersBase _ _ _ _) fun base => .ite (.refl _) ?_
  refine .read (ReadsLayout.qualifiersScreen _ _ _) (ReadsAlso.qualifiersScreen _ _ _ _)
    fun screen => .ite (.refl _) ?_
  refine .read (ReadsLayout.qualifiersAvailable _ _ _) (ReadsAlso.qualifiersAvailable _ _ _ _)
    fun available => .ite (.refl _) ?_
  refine .read (ReadsLayout.qualifiersScript _ _ _) (ReadsAlso.qualifiersScript _ _ _ _)
    fun script => .ite (.refl _) ?_
  refine .read (ReadsLayout.qualifiersVariant _ _ _) (ReadsAlso.qualifiersVariant _ _ _ _)
    fun variant => .ite (.refl _) ?_
  exact .bind (outlasts_passTrailing data more offset size) fun _ => .refl _

theorem TypeHeader.outlasts_read (chunk : Chunk) :
    Outlasts (TypeHeader.read data chunk) (TypeHeader.read (data ++ more) chunk) := by
  refine .number more fun id => .bind (.refl _) fun _ => .number more fun flags => .guard ?_
  refine .bind (.refl _) fun _ => .number more fun reserved => .bind (.refl _) fun _ => ?_
  exact .number more fun entryCount => .number more fun entriesStart =>
    .bind (Qualifiers.outlasts_readAt data more _) fun _ => .refl _

theorem ValueRecord.outlasts_readAt (offset : Int) :
    Outlasts (ValueRecord.readAt data offset) (ValueRecord.readAt (data ++ more) offset) :=
  .number more fun _ => .ite (.refl _) <| .number more fun _ => .bind (.refl _) fun _ =>
    .number more fun _ => .number more fun _ => .refl _

theorem EntryHeader.outlasts_readAt (offset : Int) :
    Outlasts (EntryHeader.readAt data offset) (EntryHeader.readAt (data ++ more) offset) := by
  refine .number more fun size => .number more fun flags => .number more fun key =>
    .bind (.refl _) fun _ => .ite (.refl _) (.ite ?_ (.refl _))
  exact .number more fun parent => .number more fun count => .refl _

theorem Entry.outlasts_readRecords (context : Entry.Context) (offset : Int) (count index : Nat)
    (bag : Bag) :
    Outlasts (Entry.readRecords context data offset count index bag)
      (Entry.readRecords context (data ++ more) offset count index bag) := by
  induction count generalizing index bag with
  | zero => exact .refl _
  | succ count ih =>
    refine .number more fun name => .bind (ValueRecord.outlasts_readAt data more _) fun record => ?_
    cases record with
    | none => exact .refl _
    | some record =>
      dsimp only
      split
      · exact ih _ _
      · exact .bind (.refl _) fun _ => ih _ _

theorem Entry.outlasts_readValue (context : Entry.Context) (header : EntryHeader) (offset : Int) :
    Outlasts (Entry.readValue context data header offset)
      (Entry.readValue context (data ++ more) header offset) :=
  .ite (.bind (outlasts_readRecords data more context offset _ _ _) fun _ => .refl _)
    (.bind (ValueRecord.outlasts_readAt data more offset) fun _ => .refl _)

/-- The scope of a package chunk in more bytes. -/
def PackageScope.extend (scope : PackageScope) (more : ByteArray) : PackageScope :=
  { scope with data := scope.data ++ more }

namespace PackageScope

variable (scope : PackageScope)

theorem outlasts_readEntry (typeId : Nat) (place : EntryPlace) :
    Outlasts (scope.readEntry typeId place) ((scope.extend more).readEntry typeId place) := by
  refine .bind (EntryHeader.outlasts_readAt scope.data more _) fun header => ?_
  cases header with
  | none => exact .refl _
  | some header =>
    exact .bind (Entry.outlasts_readValue scope.data more _ header _) fun _ => .refl _

theorem outlasts_readEntries (typeId : Nat) (places : List EntryPlace) :
    Outlasts (scope.readEntries typeId places) ((scope.extend more).readEntries typeId places) :=
  .bind (.mapM (scope.outlasts_readEntry more typeId) places) fun _ => .refl _

end PackageScope

theorem OpenPackage.outlasts_declare (scope : PackageScope) (state : OpenPackage) (chunk : Chunk) :
    Outlasts (OpenPackage.declare scope state chunk)
      (OpenPackage.declare (scope.extend more) state chunk) :=
  .bind (TypeSpec.outlasts_read scope.data more chunk) fun _ => .refl _

theorem OpenPackage.outlasts_fill (scope : PackageScope) (state : OpenPackage) (chunk : Chunk) :
    Outlasts (OpenPackage.fill scope state chunk)
      (OpenPackage.fill (scope.extend more) state chunk) :=
  .bind (TypeHeader.outlasts_read scope.data more chunk) fun header => .guard <|
    .read (ReadsLayout.places _ _) (ReadsAlso.places _ _ _) fun places =>
      .bind (scope.outlasts_readEntries more header.id places) fun _ => .refl _

theorem OpenPackage.outlasts_enter (scope : PackageScope) (state : OpenPackage) (chunk : Chunk) :
    Outlasts (OpenPackage.enter scope state chunk)
      (OpenPackage.enter (scope.extend more) state chunk) :=
  .ite (outlasts_declare more scope state chunk)
    (.ite (outlasts_fill more scope state chunk) (.refl _))

theorem OpenTable.outlasts_addPackage (state : OpenTable) (chunk : Chunk) :
    Outlasts (OpenTable.addPackage data state chunk)
      (OpenTable.addPackage (data ++ more) state chunk) := by
  refine .read (ReadsLayout.packageHeader data chunk) (ReadsAlso.packageHeader data more chunk)
    fun header => .bind (.refl _) fun _ => ?_
  refine .read (ReadsLayout.poolAt data _ _) (ReadsAlso.poolAt data more _ _) fun typePool =>
    .read (ReadsLayout.poolAt data _ _) (ReadsAlso.poolAt data more _ _) fun keyPool => ?_
  let scope : PackageScope := {
    data, packageId := header.id, typeNames := typePool.strings, keyNames := keyPool.strings
    strings := state.contents.strings }
  exact .bind (.visit (OpenPackage.outlasts_enter more scope) data more _ _ _ _) fun _ => .refl _

theorem OpenTable.outlasts_enter (state : OpenTable) (chunk : Chunk) :
    Outlasts (OpenTable.enter data state chunk) (OpenTable.enter (data ++ more) state chunk) :=
  .ite (.read (ReadsLayout.pool data chunk) (ReadsAlso.pool data more chunk) fun _ => .refl _)
    (.ite (outlasts_addPackage data more state chunk) (.refl _))

theorem Contents.outlasts_decode :
    Outlasts (Contents.decode data) (Contents.decode (data ++ more)) := by
  refine .read (ReadsLayout.tableHeader data) (ReadsAlso.tableHeader data more) fun header =>
    .bind (.refl _) fun _ => ?_
  have hwalk := Outlasts.visit (OpenTable.outlasts_enter data more) data more 8 header.chunk.stop
    header.chunk.headerSize {}
  by_cases hshort : (data.size : Int) < header.chunk.stop
  · rw [if_pos hshort]
    exact .layout _ _ _
  · have hlong : ¬ ((data ++ more).size : Int) < header.chunk.stop := by
      rw [ByteArray.size_append]
      omega
    rw [if_neg hshort, if_neg hlong]
    exact .bind hwalk fun _ => .refl _

/-! ### Tables -/

/-- A table that is parsed with success is parsed alike with more bytes behind it. -/
theorem Table.parse_append {table next : Table} {data : ByteArray}
    (h : (table.parse data).result = .ok next) (more : ByteArray) :
    table.parse (data ++ more) = table.parse data := by
  obtain ⟨hready, contents, journal, hrun, -⟩ := exists_of_parse h
  have hlong : (Contents.decode (data ++ more)).run table.policy = (.ok contents, journal) := by
    rcases Contents.outlasts_decode data more table.policy {} with ⟨_, _, hlayout⟩ | hsame
    · rw [hrun] at hlayout
      cases hlayout
    · exact hsame.trans hrun
  simp only [parse, hready, hlong, hrun]

/-- A table that a stream gives is what its bytes start with. -/
theorem ByteStream.received_of_gather {stream : ByteStream} {data : ByteArray}
    (h : stream.gather = .ok data) : ∃ more, stream.received = data ++ more := by
  rw [gather_eq, Intake.ofReceived] at h
  split at h
  · cases h
  next declared _ =>
    split at h
    · cases h
    · split at h
      next hend =>
        obtain rfl : stream.received.extract 0 declared = data := Except.ok.inj h
        refine ⟨stream.received.extract declared stream.received.size, ?_⟩
        rw [ByteArray.extract_append_extract, Nat.zero_min, Nat.max_eq_right hend,
          Intake.extract_of_size_le (Nat.le_refl _)]
      · cases h

/-- What a stream parses to, all of its bytes parse to. -/
theorem Table.parse_received {table next : Table} {stream : ByteStream}
    (h : (table.parseStream stream).result = .ok next) :
    table.parse stream.received = table.parseStream stream := by
  rw [parseStream] at h ⊢
  split at h
  · cases h
  next hready =>
    rw [if_neg hready]
    cases hgather : stream.gather with
    | error error =>
      rw [hgather] at h
      cases h
    | ok data =>
      rw [hgather] at h
      obtain ⟨more, hreceived⟩ := ByteStream.received_of_gather hgather
      rw [hreceived, parse_append h more]

/-- Bytes behind a table do not matter. Decoding that succeeds, or ends with a broken rule or a
refused feature, has the same outcome and the same notices when any bytes follow, under either
policy. So when a stream is loaded with success, however it is cut, its bytes give the same table
with the same notices when they are loaded at once, be it from memory or from a file. -/
theorem Session.perform_load_received :
    (∀ (data more : ByteArray) (policy : Policy),
      let outcome : Except Fault Contents × Journal := (Contents.decode data).run policy
      (∀ error offset, outcome.1 ≠ .error (.layout error offset)) →
        (Contents.decode (data ++ more)).run policy = outcome) ∧
      ∀ (session : Session) (name : Text) (stream : ByteStream),
        let reply : Outcome Unit × Session := session.perform name (.load (.stream stream))
        reply.1.result = .ok () →
          session.perform name (.load (.bytes stream.received)) = reply ∧
            ∀ path, session.perform name (.load (.file path (.ok stream.received))) = reply := by
  constructor
  · intro data more policy outcome hlayout
    rcases Contents.outlasts_decode data more policy {} with ⟨error, offset, hfault⟩ | hsame
    · exact absurd hfault (hlayout error offset)
    · exact hsame
  · intro session name stream reply hreply
    have hparse : (session.table name).parse stream.received =
        (session.table name).parseStream stream := by
      cases hresult : ((session.table name).parseStream stream).result with
      | ok next => exact Table.parse_received hresult
      | error error =>
        have hnext : (session.next name (.load (.stream stream))).result = .error error := hresult
        simp [reply, perform, hnext] at hreply
    have hbytes : session.next name (.load (.bytes stream.received)) =
        session.next name (.load (.stream stream)) := hparse
    have hfile (path : Text) : session.next name (.load (.file path (.ok stream.received))) =
        session.next name (.load (.stream stream)) := hparse
    exact ⟨by simp only [reply, perform, hbytes], fun path => by simp only [reply, perform, hfile]⟩

theorem Session.perform_load_received_overrun :
    let table : ByteArray := ⟨#[2, 0, 12, 0, 12, 0, 0, 0, 0, 0, 0, 0]⟩
    let more : ByteArray := ⟨#[1, 2, 3]⟩
    (Contents.decode (table ++ more)).run .strict = (Contents.decode table).run .strict ∧
      Session.perform [] "app" (.load (.bytes ByteStream.overrun.received)) =
        Session.perform [] "app" (.load (.stream ByteStream.overrun)) := by
  intro table more
  obtain ⟨hdecode, hload⟩ := Session.perform_load_received
  have hok : ((Contents.decode table).run .strict).1.isOk = true := by decide +kernel
  have hloaded : (Session.perform [] "app" (.load (.stream ByteStream.overrun))).1.result.isOk =
      true := by decide +kernel
  refine ⟨hdecode table more .strict fun error offset hfault => ?_,
    (hload [] "app" ByteStream.overrun ?_).1⟩
  · rw [hfault] at hok
    cases hok
  · generalize (Session.perform [] "app" (.load (.stream ByteStream.overrun))).1.result = result
      at hloaded
    cases result with
    | ok => rfl
    | error error => cases hloaded

end CompiledResources
