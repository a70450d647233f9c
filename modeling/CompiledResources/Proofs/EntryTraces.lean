import CompiledResources.Proofs.Visits

/-!
The entries that a run of decoding comes to, in their order, each with the journal that it is read
with. A trace follows the steps of decoding chunk by chunk and stops where they stop, so it has the
entries of a run that fails as well as those of one that succeeds. A run is a course from journal to
journal: between two entries of its trace it gives no notices but ordinary ones.
-/

namespace CompiledResources

open Decoder

/-! ### Entries on the way -/

/-- An entry that decoding comes to, with the journal that it is read with. -/
structure EntryReading where
  scope : PackageScope
  typeId : Nat
  place : EntryPlace
  journal : Journal

/-- The journal that the entry leaves, whether it is read with success or not. -/
def EntryReading.after (reading : EntryReading) (policy : Policy) : Journal :=
  (run (reading.scope.readEntry reading.typeId reading.place) policy reading.journal).2

/-- The entries that a step comes to under a policy and from a journal on, in order. -/
abbrev EntryTrace := Policy → Journal → List EntryReading

namespace EntryTrace

variable {α σ : Type}

/-- The trace of a step that comes to no entry. -/
def empty : EntryTrace := fun _ _ => []

/-- The trace of a step, and after it, unless the step fails, the trace of what it hands on. -/
def andThen (step : Decoder α) (here : EntryTrace) (next : α → EntryTrace) : EntryTrace :=
  fun policy journal =>
    here policy journal ++
      match run step policy journal with
      | (.ok a, after) => next a policy after
      | (.error _, _) => []

/-- The trace of a step performed for one item after another. -/
def along (step : σ → α → Decoder σ) (here : σ → α → EntryTrace) : List α → σ → EntryTrace
  | [], _ => empty
  | item :: rest, state => andThen (step state item) (here state item) (along step here rest)

end EntryTrace

/-- The entries at several places, up to the first that ends decoding. -/
def PackageScope.trace (scope : PackageScope) (typeId : Nat) : List EntryPlace → EntryTrace
  | [] => EntryTrace.empty
  | place :: rest =>
    EntryTrace.andThen (scope.readEntry typeId place)
      (fun _ journal => [{ scope, typeId, place, journal }]) fun _ => scope.trace typeId rest

/-- The entries of a type chunk, if its type is declared and its index table can be read. -/
def OpenPackage.trace (scope : PackageScope) (state : OpenPackage) (chunk : Chunk) : EntryTrace :=
  if chunk.kind = Chunk.typeEntries then
    EntryTrace.andThen (TypeHeader.read scope.data chunk) EntryTrace.empty fun header =>
      if header.id ∉ state.declared then EntryTrace.empty
      else
        match EntryPlace.readAll scope.data header with
        | .ok places => scope.trace header.id places
        | .error _ => EntryTrace.empty
  else EntryTrace.empty

/-- The entries of a package chunk, nested chunk by nested chunk. -/
def OpenTable.trace (data : ByteArray) (state : OpenTable) (chunk : Chunk) : EntryTrace :=
  if chunk.kind = Chunk.package then
    match PackageFrame.read data chunk with
    | .ok frame =>
      let scope := frame.scope data state.contents.strings
      EntryTrace.andThen
        (note (.packageStart state.packageChunks frame.header.id frame.header.name))
        EntryTrace.empty fun _ =>
          EntryTrace.along (OpenPackage.enter scope) (OpenPackage.trace scope)
            (frame.nested data chunk).chunks (frame.start state.contents.packages)
    | .error _ => EntryTrace.empty
  else EntryTrace.empty

/-- The entries that decoding a table comes to. -/
def Contents.trace (data : ByteArray) : EntryTrace :=
  match TableHeader.read data with
  | .ok header =>
    if (data.size : Int) < header.chunk.stop then EntryTrace.empty
    else
      EntryTrace.andThen (note (.tableStart header.packageCount)) EntryTrace.empty fun _ =>
        EntryTrace.along (OpenTable.enter data) (OpenTable.trace data)
          (Chunk.walk data 8 header.chunk.stop header.chunk.headerSize).chunks {}
  | .error _ => EntryTrace.empty

/-! ### Courses of a run -/

/-- A way from one journal to another: ordinary notices are added, and the given entries are read
in order, each with the journal as it is then. -/
inductive Course (policy : Policy) : Journal → List EntryReading → Journal → Prop
  | stop (journal : Journal) : Course policy journal [] journal
  | notice {journal last : Journal} {notice : Notice} {readings : List EntryReading}
      (hordinary : notice.isOrdinary = true)
      (hrest : Course policy (journal.noting [notice]) readings last) :
      Course policy journal readings last
  | entry {reading : EntryReading} {last : Journal} {readings : List EntryReading}
      (hrest : Course policy (reading.after policy) readings last) :
      Course policy reading.journal (reading :: readings) last

namespace Course

variable {policy : Policy} {first middle last : Journal} {readings : List EntryReading}

theorem append {more : List EntryReading} (h : Course policy first readings middle)
    (hmore : Course policy middle more last) : Course policy first (readings ++ more) last := by
  induction h with
  | stop journal => exact hmore
  | notice hordinary _ ih => exact .notice hordinary (ih hmore)
  | entry _ ih => exact .entry (ih hmore)

/-- The journal of an entry on the way is where the way up to it leads. -/
theorem split {before behind : List EntryReading} {reading : EntryReading}
    (h : Course policy first (before ++ reading :: behind) last) :
    Course policy first before reading.journal ∧
      Course policy (reading.after policy) behind last := by
  generalize hreadings : before ++ reading :: behind = readings at h
  induction h generalizing before with
  | stop journal => simp at hreadings
  | notice hordinary _ ih =>
    obtain ⟨hbefore, hbehind⟩ := ih hreadings
    exact ⟨.notice hordinary hbefore, hbehind⟩
  | @entry passed last readings hbehind ih =>
    cases before with
    | nil =>
      obtain ⟨rfl, rfl⟩ := List.cons.inj hreadings
      exact ⟨.stop _, hbehind⟩
    | cons head before =>
      obtain ⟨rfl, hrest⟩ := List.cons.inj hreadings
      obtain ⟨hbefore, hbehind⟩ := ih hrest
      exact ⟨.entry hbefore, hbehind⟩

/-- Any number of ordinary notices may be added. -/
theorem noting {added : List Notice} (hadded : ∀ notice ∈ added, notice.isOrdinary = true) :
    Course policy first [] (first.noting added) := by
  induction added generalizing first with
  | nil =>
    rw [Journal.noting_nil]
    exact .stop first
  | cons notice rest ih =>
    obtain ⟨hnotice, hrest⟩ := List.forall_mem_cons.mp hadded
    have hmore : Course policy (first.noting [notice]) [] ((first.noting [notice]).noting rest) :=
      ih hrest
    rw [Journal.noting_noting] at hmore
    exact .notice hnotice hmore

end Course

/-! ### Steps and their traces -/

/-- Every run of the step is a course through the entries of the trace. -/
def EntryTrace.Of {α : Type} (step : Decoder α) (trace : EntryTrace) : Prop :=
  ∀ policy journal, Course policy journal (trace policy journal) (run step policy journal).2

namespace EntryTrace.Of

variable {α β σ : Type}

/-- A step that notes nothing but what is ordinary comes to no entry. -/
theorem quiet {step : Decoder α} (h : Notes Notice.isOrdinary step) : Of step empty := by
  intro policy journal
  obtain ⟨added, hadded, hrun⟩ := h policy journal
  rw [hrun]
  exact .noting hadded

theorem bind {step : Decoder α} {next : α → Decoder β} {here : EntryTrace}
    {there : α → EntryTrace} (hstep : Of step here) (hnext : ∀ a, Of (next a) (there a)) :
    Of (step >>= next) (andThen step here there) := by
  intro policy journal
  have hfirst := hstep policy journal
  rw [andThen]
  cases hrun : run step policy journal with
  | mk result after =>
    rw [hrun] at hfirst
    cases result with
    | ok a =>
      rw [run_bind_of_ok hrun]
      exact hfirst.append (hnext a policy after)
    | error fault =>
      rw [run_bind_of_error hrun, List.append_nil]
      exact hfirst

/-- What comes to no entry may follow a step. -/
theorem andQuiet {step : Decoder α} {next : α → Decoder β} {here : EntryTrace}
    (hstep : Of step here) (hnext : ∀ a, Notes Notice.isOrdinary (next a)) :
    Of (step >>= next) here := by
  intro policy journal
  have hboth := bind hstep (fun a => quiet (hnext a)) policy journal
  have hhere : andThen step here (fun _ => empty) policy journal = here policy journal := by
    rw [andThen]
    split <;> exact List.append_nil _
  rwa [hhere] at hboth

theorem ite {c : Prop} [Decidable c] {first second : Decoder α} {here there : EntryTrace}
    (hfirst : Of first here) (hsecond : Of second there) :
    Of (if c then first else second) (if c then here else there) := by
  split
  · exact hfirst
  · exact hsecond

theorem foldlM {step : σ → α → Decoder σ} {here : σ → α → EntryTrace}
    (hstep : ∀ state a, Of (step state a) (here state a)) (items : List α) (state : σ) :
    Of (items.foldlM step state) (along step here items state) := by
  induction items generalizing state with
  | nil => exact quiet (.pure state)
  | cons item rest ih =>
    rw [List.foldlM_cons]
    exact bind (hstep state item) ih

theorem visit {step : σ → Chunk → Decoder σ} {here : σ → Chunk → EntryTrace}
    (hstep : ∀ state chunk, Of (step state chunk) (here state chunk)) (walk : Chunk.Walk)
    (state : σ) : Of (walk.visit step state) (along step here walk.chunks state) := by
  refine andQuiet (foldlM hstep walk.chunks state) fun final => ?_
  split
  · exact .throw _
  · exact .pure final

end EntryTrace.Of

/-! ### The trace of decoding -/

open EntryTrace

theorem PackageScope.of_mapM_readEntry (scope : PackageScope) (typeId : Nat)
    (places : List EntryPlace) :
    Of (places.mapM (scope.readEntry typeId)) (scope.trace typeId places) := by
  induction places with
  | nil => exact .quiet (.pure [])
  | cons place rest ih =>
    rw [List.mapM_cons]
    have hentry : Of (scope.readEntry typeId place) fun _ journal =>
        [{ scope, typeId, place, journal }] := by
      intro policy journal
      let reading : EntryReading := { scope, typeId, place, journal }
      have hcourse : Course policy reading.journal [reading] (reading.after policy) :=
        .entry (.stop _)
      exact hcourse
    exact .bind hentry fun _ => .andQuiet ih fun _ => .pure _

theorem OpenPackage.of_fill (scope : PackageScope) (state : OpenPackage) (chunk : Chunk)
    (hkind : chunk.kind = Chunk.typeEntries) :
    Of (fill scope state chunk) (trace scope state chunk) := by
  rw [trace, if_pos hkind]
  have hheader := (TypeHeader.plain_read scope.data chunk).ordinary
  refine .bind (.quiet hheader) fun header => .ite (.quiet (.throw_bind _ _)) ?_
  rw [liftM_eq_ofExcept]
  cases EntryPlace.readAll scope.data header with
  | error fault => exact .quiet (.throw fault)
  | ok places =>
    rw [ofExcept_ok, pure_bind]
    exact .andQuiet (.andQuiet (scope.of_mapM_readEntry header.id places) fun _ => .pure _)
      fun _ => .pure _

theorem OpenPackage.of_enter (scope : PackageScope) (state : OpenPackage) (chunk : Chunk) :
    Of (enter scope state chunk) (trace scope state chunk) := by
  have hkinds : Chunk.typeSpec ≠ Chunk.typeEntries := by decide
  unfold enter
  split
  next hspec =>
    rw [trace, if_neg (hspec ▸ hkinds)]
    exact .quiet <| .bind (TypeSpec.plain_read _ _).ordinary fun _ =>
      .ite (.bind (.note rfl) fun _ => .pure _) (.pure _)
  next =>
    split
    next hkind => exact of_fill scope state chunk hkind
    next hkind =>
      rw [trace, if_neg hkind]
      exact .quiet (.pure state)

/-- A package chunk whose frame cannot be read comes to no entry. -/
theorem OpenTable.ordinary_addPackage {data : ByteArray} {chunk : Chunk} {fault : Fault}
    (hframe : PackageFrame.read data chunk = .error fault) (state : OpenTable) :
    Notes Notice.isOrdinary (addPackage data state chunk) := by
  rw [addPackage]
  simp only [liftM_eq_ofExcept]
  cases hheader : PackageHeader.read data chunk with
  | error fault => exact .throw fault
  | ok header =>
    rw [ofExcept_ok, pure_bind]
    refine .bind (.note rfl) fun _ => ?_
    cases htypes : StringPool.readAt data (chunk.start + header.typeStrings)
        "package type strings" with
    | error fault => exact .throw fault
    | ok typePool =>
      cases hkeys : StringPool.readAt data (chunk.start + header.keyStrings)
          "package key strings" with
      | error fault => exact .throw fault
      | ok keyPool =>
        rw [PackageFrame.read_eq_ok hheader htypes hkeys] at hframe
        cases hframe

theorem OpenTable.of_addPackage (data : ByteArray) (state : OpenTable) (chunk : Chunk)
    (hkind : chunk.kind = Chunk.package) :
    Of (addPackage data state chunk) (trace data state chunk) := by
  rw [trace, if_pos hkind]
  cases hframe : PackageFrame.read data chunk with
  | error fault => exact .quiet (ordinary_addPackage hframe state)
  | ok frame =>
    rw [addPackage_eq hframe]
    exact .bind (.quiet (.note rfl)) fun _ =>
      .andQuiet (.visit (OpenPackage.of_enter _) _ _) fun final =>
        .bind final.package.plain_noteSummary.ordinary fun _ => .pure _

theorem OpenTable.of_enter (data : ByteArray) (state : OpenTable) (chunk : Chunk) :
    Of (enter data state chunk) (trace data state chunk) := by
  have hkinds : Chunk.stringPool ≠ Chunk.package := by decide
  unfold enter
  split
  next hpool =>
    rw [trace, if_neg (hpool ▸ hkinds)]
    exact .quiet (.read fun _ => .pure _)
  next =>
    split
    next hkind => exact of_addPackage data state chunk hkind
    next hkind =>
      rw [trace, if_neg hkind]
      exact .quiet (.pure state)

/-- Decoding a table is a course through the entries of its trace. -/
theorem Contents.of_decode (data : ByteArray) : Of (decode data) (trace data) := by
  rw [decode, trace, liftM_eq_ofExcept]
  cases TableHeader.read data with
  | error fault => exact .quiet (.throw fault)
  | ok header =>
    rw [ofExcept_ok, pure_bind]
    dsimp only
    split
    · exact .quiet (.bind (.note rfl) fun _ => .throw_bind _ _)
    · exact .bind (.quiet (.note rfl)) fun _ =>
        .andQuiet (.visit (OpenTable.of_enter data) _ _) fun _ => .pure _

/-! ### Traces of runs that succeed -/

namespace EntryTrace

variable {α σ : Type} {policy : Policy} {journal after : Journal}

theorem andThen_of_ok {step : Decoder α} {here : EntryTrace} {next : α → EntryTrace} {a : α}
    (h : run step policy journal = (.ok a, after)) :
    andThen step here next policy journal = here policy journal ++ next a policy after := by
  rw [andThen, h]

/-- Where each step comes to certain places, a run of steps comes to all of them in order. -/
theorem places_along {ν : Type} {step : σ → α → Decoder σ} {here : σ → α → EntryTrace}
    {one : α → ν → Prop} {places : ν → List EntryPlace}
    (hstep : ∀ state a deed journal next after, one a deed →
      run (step state a) policy journal = (.ok next, after) →
        (here state a policy journal).map EntryReading.place = places deed)
    {items : List α} {deeds : List ν} (hdeeds : List.Forall₂ one items deeds) {state final : σ}
    (h : run (items.foldlM step state) policy journal = (.ok final, after)) :
    (along step here items state policy journal).map EntryReading.place =
      deeds.flatMap places := by
  induction hdeeds generalizing state journal with
  | nil => rfl
  | @cons item deed rest deeds hone _ ih =>
    rw [List.foldlM_cons] at h
    obtain ⟨next, between, hfirst, hrest⟩ := exists_of_run_bind h
    rw [along, andThen_of_ok hfirst, List.map_append, hstep _ _ _ _ _ _ hone hfirst, ih hrest,
      List.flatMap_cons]

end EntryTrace

theorem PackageScope.places_trace {scope : PackageScope} {policy : Policy} {typeId : Nat}
    {places : List EntryPlace} {journal after : Journal} {found : List (Option Resource)}
    (h : run (places.mapM (scope.readEntry typeId)) policy journal = (.ok found, after)) :
    (scope.trace typeId places policy journal).map EntryReading.place = places := by
  induction places generalizing journal found after with
  | nil => rfl
  | cons place rest ih =>
    rw [List.mapM_cons] at h
    obtain ⟨resource, between, hfirst, hrest⟩ := exists_of_run_bind h
    obtain ⟨others, _, hothers, -⟩ := exists_of_run_bind hrest
    rw [trace, andThen_of_ok hfirst, List.map_append, ih hothers]
    rfl

/-- A nested chunk comes to the places of its visit. -/
theorem NestedVisit.Of.places_trace {scope : PackageScope} {policy : Policy} {chunk : Chunk}
    {visit : NestedVisit} (hvisit : Of scope policy chunk visit) {state next : OpenPackage}
    {journal after : Journal}
    (h : run (OpenPackage.enter scope state chunk) policy journal = (.ok next, after)) :
    (OpenPackage.trace scope state chunk policy journal).map EntryReading.place =
      visit.filling?.toList.flatMap Filling.places := by
  cases hvisit with
  | declared hkind hspec =>
    rw [OpenPackage.trace, if_neg (by rw [hkind]; decide)]
    rfl
  | passed hspec htype =>
    rw [OpenPackage.trace, if_neg htype]
    rfl
  | @filled filling hkind hheader hplaces hfound =>
    rw [OpenPackage.enter, if_neg (by rw [hkind]; decide), if_pos hkind] at h
    obtain ⟨header, between, hread, hrest⟩ := exists_of_run_bind h
    have houtcome := (TypeHeader.composed_read scope.data chunk).outcome_eq policy {} journal
    rw [hheader, hread] at houtcome
    obtain rfl := Except.ok.inj houtcome
    rw [OpenPackage.trace, if_pos hkind, andThen_of_ok hread]
    dsimp only at hrest
    split at hrest
    · obtain ⟨_, _, hthrow, -⟩ := exists_of_run_bind hrest
      cases hthrow
    next hdeclared =>
      rw [if_neg hdeclared, hplaces]
      rw [liftM_eq_ofExcept, hplaces, ofExcept_ok, pure_bind] at hrest
      obtain ⟨resources, _, hentries, -⟩ := exists_of_run_bind hrest
      obtain ⟨found, _, hentries, -⟩ := exists_of_run_bind hentries
      simpa [EntryTrace.empty, filling?] using PackageScope.places_trace hentries

theorem OpenPackage.places_along {scope : PackageScope} {policy : Policy} {chunks : List Chunk}
    {visits : List NestedVisit} (hvisits : List.Forall₂ (NestedVisit.Of scope policy) chunks visits)
    {state final : OpenPackage} {journal after : Journal}
    (h : run (chunks.foldlM (enter scope) state) policy journal = (.ok final, after)) :
    (EntryTrace.along (enter scope) (trace scope) chunks state policy journal).map
        EntryReading.place =
      visits.flatMap fun visit => visit.filling?.toList.flatMap Filling.places :=
  EntryTrace.places_along (fun _ _ _ _ _ _ hone hrun => hone.places_trace hrun) hvisits h

/-- A package chunk comes to the places of its type chunks. -/
theorem PackageVisit.Of.places_trace {data : ByteArray} {policy : Policy} {state : OpenTable}
    {chunk : Chunk} {visit : PackageVisit}
    (hvisit : Of data policy state.contents.strings chunk visit)
    (hkind : chunk.kind = Chunk.package) {journal after : Journal} {next : OpenTable}
    (h : run (OpenTable.addPackage data state chunk) policy journal = (.ok next, after)) :
    (OpenTable.trace data state chunk policy journal).map EntryReading.place =
        visit.fillings.flatMap Filling.places ∧
      next.contents.strings = state.contents.strings := by
  rw [OpenTable.addPackage_eq hvisit.frame, run_note_bind] at h
  obtain ⟨final, between, hwalk, hrest⟩ := exists_of_run_bind h
  obtain ⟨_, _, _, hnext⟩ := exists_of_run_bind hrest
  cases hnext
  have hnested := hvisit.nested
  rw [scope, hvisit.strings] at hnested
  refine ⟨?_, rfl⟩
  rw [OpenTable.trace, if_pos hkind, hvisit.frame]
  refine (OpenPackage.places_along hnested (Chunk.run_foldlM_of_visit hwalk)).trans ?_
  rw [fillings, List.filterMap_eq_flatMap_toList, List.flatMap_assoc]

/-- The chunks of a table come to the places of their visits. -/
theorem Visits.places_trace {data : ByteArray} {policy : Policy} {chunks : List Chunk}
    {strings : OrderedMap Int Text} {visits : List PackageVisit}
    (hvisits : Visits data policy chunks strings visits) {state final : OpenTable}
    (hstrings : state.contents.strings = strings) {journal after : Journal}
    (h : run (chunks.foldlM (OpenTable.enter data) state) policy journal = (.ok final, after)) :
    (EntryTrace.along (OpenTable.enter data) (OpenTable.trace data) chunks state policy journal).map
        EntryReading.place =
      (visits.flatMap PackageVisit.fillings).flatMap Filling.places := by
  induction hvisits generalizing state journal with
  | nil => rfl
  | @strings chunk _ _ pool _ hkind hpool _ ih =>
    rw [List.foldlM_cons] at h
    obtain ⟨next, between, hfirst, hrest⟩ := exists_of_run_bind h
    rw [EntryTrace.along, andThen_of_ok hfirst, OpenTable.trace, if_neg (by rw [hkind]; decide)]
    rw [OpenTable.enter, if_pos hkind, OpenTable.addStrings, liftM_eq_ofExcept, hpool] at hfirst
    cases hfirst
    exact ih (by rw [← hstrings]) hrest
  | @package chunk _ _ visit visits hkind hvisit _ ih =>
    rw [List.foldlM_cons] at h
    obtain ⟨next, between, hfirst, hrest⟩ := exists_of_run_bind h
    rw [EntryTrace.along, andThen_of_ok hfirst]
    rw [OpenTable.enter, if_neg (by rw [hkind]; decide), if_pos hkind] at hfirst
    obtain ⟨hplaces, hkept⟩ := PackageVisit.Of.places_trace (hstrings ▸ hvisit) hkind hfirst
    rw [List.map_append, hplaces, ih (hkept.trans hstrings) hrest, List.flatMap_cons,
      List.flatMap_append]
  | @passed chunk _ _ _ hpool hpackage _ ih =>
    rw [List.foldlM_cons] at h
    obtain ⟨next, between, hfirst, hrest⟩ := exists_of_run_bind h
    rw [EntryTrace.along, andThen_of_ok hfirst, OpenTable.trace, if_neg hpackage]
    rw [OpenTable.enter, if_neg hpool, if_neg hpackage] at hfirst
    cases hfirst
    exact ih hstrings hrest

/-- A run that succeeds comes to every entry that the index tables of its visits locate, and to no
other, in their order. -/
theorem Contents.places_trace {data : ByteArray} {policy : Policy} {journal after : Journal}
    {contents : Contents} (h : run (decode data) policy journal = (.ok contents, after)) :
    ∃ header visits, TableHeader.read data = .ok header ∧
      Visits data policy (Chunk.walk data 8 header.chunk.stop header.chunk.headerSize).chunks []
        visits ∧
      (trace data policy journal).map EntryReading.place =
        (visits.flatMap PackageVisit.fillings).flatMap Filling.places := by
  obtain ⟨header, visits, hheader, hvisits, -⟩ := Contents.exists_visits h
  refine ⟨header, visits, hheader, hvisits, ?_⟩
  rw [decode, liftM_eq_ofExcept, hheader, ofExcept_ok, pure_bind, run_note_bind] at h
  rw [trace, hheader]
  split at h
  · obtain ⟨_, _, hthrow, -⟩ := exists_of_run_bind h
    cases hthrow
  next hstop =>
    obtain ⟨final, between, hwalk, -⟩ := exists_of_run_bind h
    dsimp only
    rw [if_neg hstop]
    exact hvisits.places_trace rfl (Chunk.run_foldlM_of_visit hwalk)

end CompiledResources
