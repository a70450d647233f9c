import CompiledResources.Proofs.Visits

/-!
Types and the type specs that declare them. A type chunk is accepted exactly when a type spec of its
id comes before it in the same package chunk, whatever other package chunks declare, and its
resources go to the type of that id and of the name that the type name pool of its own package chunk
gives the id.
-/

namespace CompiledResources

namespace Keyed

variable {α κ : Type} [DecidableEq κ] {key : α → κ} {k other : κ} {change : α → α} {fresh : α}
  {p : α → Prop} {rows : List α}

/-- What holds of the row of a key holds of it after an upsert that keeps it. -/
theorem exists_find?_upsert (hkey : ∀ row, key row = k → key (change row) = k)
    (hfresh : key fresh = k) (hchange : ∀ row, p row → p (change row))
    (h : ∃ row, find? key other rows = some row ∧ p row) :
    ∃ row, find? key other (upsert key k change fresh rows) = some row ∧ p row := by
  obtain ⟨row, hrow, hp⟩ := h
  by_cases heq : other = k
  · subst heq
    exact ⟨change row, by rw [find?_upsert_self key hkey hfresh, hrow]; rfl, hchange row hp⟩
  · exact ⟨row, by rw [find?_upsert_of_ne key hkey hfresh heq, hrow], hp⟩

/-- What every changed row and the fresh one meet holds of the row of the key after the upsert. -/
theorem exists_find?_upsert_self (hkey : ∀ row, key row = k → key (change row) = k)
    (hfresh : key fresh = k) (hchange : ∀ row, p (change row)) (hp : p fresh) :
    ∃ row, find? key k (upsert key k change fresh rows) = some row ∧ p row := by
  rw [find?_upsert_self key hkey hfresh]
  cases find? key k rows with
  | none => exact ⟨fresh, rfl, hp⟩
  | some row => exact ⟨change row, rfl, hchange row⟩

end Keyed

open Keyed Decoder

/-! ### Where resources are found again -/

/-- Under the qualifiers, the resources of the type contain the given ones one behind another. -/
def TypeGroup.Stores (group : TypeGroup) (qualifiers : Qualifiers) (resources : List Resource) :
    Prop :=
  ∃ variant, group.variant? qualifiers = some variant ∧ resources <:+: variant.resources

/-- The type of a key in the package stores the resources. -/
def Package.Stores (package : Package) (type : Int × Text) (qualifiers : Qualifiers)
    (resources : List Resource) : Prop :=
  ∃ group, find? TypeGroup.key type package.types = some group ∧
    group.Stores qualifiers resources

/-- The package of a key stores the resources. -/
def Package.StoredIn (packages : List Package) (package type : Int × Text)
    (qualifiers : Qualifiers) (resources : List Resource) : Prop :=
  ∃ found, find? Package.key package packages = some found ∧
    found.Stores type qualifiers resources

section

variable {qualifiers : Qualifiers} {resources : List Resource}

theorem TypeGroup.stores_add (group : TypeGroup) (qualifiers : Qualifiers)
    (resources : List Resource) : (group.add qualifiers resources).Stores qualifiers resources :=
  exists_find?_upsert_self (fun _ hkey => hkey) rfl
    (fun variant => (List.suffix_append variant.resources resources).isInfix)
    List.infix_rfl

theorem TypeGroup.Stores.add {group : TypeGroup} (h : group.Stores qualifiers resources)
    (others : Qualifiers) (added : List Resource) :
    (group.add others added).Stores qualifiers resources :=
  exists_find?_upsert (fun _ hkey => hkey) rfl
    (fun variant hinfix => hinfix.trans (List.prefix_append variant.resources added).isInfix) h

theorem Package.stores_add (package : Package) (id : Int) (name : Text) (qualifiers : Qualifiers)
    (resources : List Resource) :
    (package.add id name qualifiers resources).Stores (id, name) qualifiers resources :=
  exists_find?_upsert_self (fun _ hkey => hkey) rfl
    (fun group => group.stores_add qualifiers resources)
    (TypeGroup.stores_add { id, name } qualifiers resources)

variable {type : Int × Text}

theorem Package.Stores.add {package : Package} (h : package.Stores type qualifiers resources)
    (id : Int) (name : Text) (others : Qualifiers) (added : List Resource) :
    (package.add id name others added).Stores type qualifiers resources :=
  exists_find?_upsert (fun _ hkey => hkey) rfl (fun _ hgroup => hgroup.add others added) h

theorem Package.Stores.declare {package : Package} (h : package.Stores type qualifiers resources)
    (id : Int) (name : Text) : (package.declare id name).Stores type qualifiers resources :=
  exists_find?_upsert (fun _ hkey => hkey) rfl (fun _ hgroup => hgroup) h

/-- Nested chunks take nothing away. -/
theorem Package.Stores.perform {package : Package} (h : package.Stores type qualifiers resources)
    (scope : PackageScope) (visits : List NestedVisit) :
    (visits.foldl (NestedVisit.perform scope) package).Stores type qualifiers resources := by
  induction visits generalizing package with
  | nil => exact h
  | cons visit rest ih =>
    cases visit with
    | declared id => exact ih (h.declare _ _)
    | filled filling => exact ih (h.add _ _ _ _)
    | passed => exact ih h

/-- Nested chunks leave the id and the name of the package. -/
theorem NestedVisit.key_foldl (scope : PackageScope) (visits : List NestedVisit)
    (package : Package) : (visits.foldl (perform scope) package).key = package.key := by
  induction visits generalizing package with
  | nil => rfl
  | cons visit rest ih => rw [List.foldl_cons, ih, (visit.placed_perform scope package).1]

/-- Package chunks take nothing away. -/
theorem Package.StoredIn.enter {packages : List Package} {package : Int × Text}
    (h : StoredIn packages package type qualifiers resources) (data : ByteArray)
    (visits : List PackageVisit) :
    StoredIn (visits.foldl (PackageVisit.enter data) packages) package type qualifiers
      resources := by
  induction visits generalizing packages with
  | nil => exact h
  | cons visit rest ih =>
    refine ih (exists_find?_upsert (fun row hrow => ?_) ?_ (fun row hrow => hrow.perform _ _) h)
    · exact (NestedVisit.key_foldl _ _ row).trans hrow
    · exact NestedVisit.key_foldl _ _ visit.frame.fresh

end

/-! ### Declared ids -/

/-- The chunk is a type spec of the id. -/
def Chunk.Declares (data : ByteArray) (id : Nat) (chunk : Chunk) : Prop :=
  chunk.kind = Chunk.typeSpec ∧ Bytes.u8At data (chunk.start + 8) = .ok id

instance (data : ByteArray) (id : Nat) (chunk : Chunk) : Decidable (chunk.Declares data id) :=
  decidable_of_iff
    (chunk.kind = Chunk.typeSpec ∧ (Bytes.u8At data (chunk.start + 8)).toOption = some id) (by
      rw [Chunk.Declares]
      cases Bytes.u8At data (chunk.start + 8) with
      | error fault => simp [Except.toOption]
      | ok n => simp [Except.toOption])

theorem TypeSpec.ensures_id (data : ByteArray) (chunk : Chunk) :
    Ensures (TypeSpec.read data chunk) fun spec =>
      Bytes.u8At data (chunk.start + 8) = .ok spec.id :=
  .read fun _ hid => .after fun _ => .after fun _ => .after fun _ => .after fun _ =>
    .after fun _ => .pure hid

namespace OpenPackage

variable (scope : PackageScope)

/-- A nested chunk adds the id that it declares, if it declares one. -/
theorem ensures_declared (state : OpenPackage) (chunk : Chunk) :
    Ensures (enter scope state chunk) fun next =>
      ∀ id, id ∈ next.declared ↔ id ∈ state.declared ∨ chunk.Declares scope.data id := by
  unfold enter
  split
  next hkind =>
    refine .bind (TypeSpec.ensures_id _ _) fun spec hspec => ?_
    have hdeclared (id : Nat) : id ∈ spec.id :: state.declared ↔
        id ∈ state.declared ∨ chunk.Declares scope.data id := by
      have hid : chunk.Declares scope.data id ↔ id = spec.id := by
        constructor
        · rintro ⟨-, hread⟩
          exact Except.ok.inj (hread.symm.trans hspec)
        · rintro rfl
          exact ⟨hkind, hspec⟩
      rw [hid, List.mem_cons, or_comm]
    exact .ite (.after fun _ => .pure hdeclared) (.pure hdeclared)
  next hkind =>
    have hsame (id : Nat) : id ∈ state.declared ↔
        id ∈ state.declared ∨ chunk.Declares scope.data id :=
      ⟨.inl, fun h => h.resolve_right fun hdeclares => hkind hdeclares.1⟩
    have hthrow (fault : Fault) : Ensures (throw fault : Decoder PUnit) fun _ => False :=
      .throw fault
    exact .ite (.after fun header => .ite (.bind (hthrow _) fun _ => False.elim)
      (.after fun _ => .after fun _ => .pure hsame)) (.pure hsame)

/-- A run over nested chunks declares the ids of the type specs among them. -/
theorem ensures_declared_foldlM (chunks : List Chunk) (state : OpenPackage) :
    Ensures (chunks.foldlM (enter scope) state) fun final =>
      ∀ id, id ∈ final.declared ↔
        id ∈ state.declared ∨ ∃ chunk ∈ chunks, chunk.Declares scope.data id := by
  induction chunks generalizing state with
  | nil => exact .pure fun id => by simp
  | cons chunk rest ih =>
    rw [List.foldlM_cons]
    refine .bind (ensures_declared scope state chunk) fun next hnext => ?_
    intro policy journal final after hrun id
    rw [ih next policy journal final after hrun id, hnext id, List.exists_mem_cons_iff, or_assoc]

end OpenPackage

/-! ### Runs up to a chunk -/

namespace Decoder

variable {α β σ : Type} {policy : Policy} {fault : Fault}

theorem outcome_bind_error {step : Decoder α} {next : α → Decoder β} {journal : Journal}
    (h : (run step policy journal).1 = .error fault) :
    (run (step >>= next) policy journal).1 = .error fault := by
  cases hrun : run step policy journal with
  | mk result after =>
    rw [hrun] at h
    obtain rfl : result = .error fault := h
    rw [run_bind_of_error hrun]

variable {shown : Fault → Prop} {step : σ → α → Decoder σ} {before behind : List α} {item : α}
  {state middle : σ}

/-- A run of steps ends with the fault of the first one that fails. -/
theorem Composed.outcome_foldlM_error (hstep : ∀ state item, Composed shown (step state item))
    (hbefore : (run (before.foldlM step state) policy).1 = .ok middle)
    (hitem : (run (step middle item) policy).1 = .error fault) (journal : Journal) :
    (run ((before ++ item :: behind).foldlM step state) policy journal).1 = .error fault := by
  have hrest (middle : σ) : Composed shown ((item :: behind).foldlM step middle) :=
    .foldlM hstep _ _
  have hall : Composed shown (before.foldlM step state) := .foldlM hstep _ _
  rw [List.foldlM_append, outcome_bind hrest, hall.outcome_eq policy journal {}, hbefore]
  change (run ((item :: behind).foldlM step middle) policy).1 = _
  rw [List.foldlM_cons]
  exact outcome_bind_error hitem

/-- A run of steps that succeeds passes through the state before each of them. -/
theorem Composed.exists_of_foldlM_ok (hstep : ∀ state item, Composed shown (step state item))
    (hbefore : (run (before.foldlM step state) policy).1 = .ok middle) {journal after : Journal}
    {final : σ}
    (h : run ((before ++ item :: behind).foldlM step state) policy journal = (.ok final, after)) :
    ∃ next start between, run (step middle item) policy start = (.ok next, between) ∧
      run (behind.foldlM step next) policy between = (.ok final, after) := by
  have hall : Composed shown (before.foldlM step state) := .foldlM hstep _ _
  have hsame := hall.outcome_eq policy journal {}
  rw [List.foldlM_append] at h
  obtain ⟨middle', start, hfirst, hrest⟩ := exists_of_run_bind h
  rw [hfirst, hbefore] at hsame
  obtain rfl := Except.ok.inj hsame
  rw [List.foldlM_cons] at hrest
  obtain ⟨next, between, hnext, hfinal⟩ := exists_of_run_bind hrest
  exact ⟨next, start, between, hnext, hfinal⟩

end Decoder

namespace OpenPackage

variable {scope : PackageScope} {policy : Policy} {state : OpenPackage} {chunk : Chunk}
  {header : TypeHeader}

/-- A type chunk whose type is not declared ends decoding at its start. -/
theorem outcome_fill_of_not_mem
    (hheader : (run (TypeHeader.read scope.data chunk) policy).1 = .ok header)
    (hid : header.id ∉ state.declared) :
    (run (fill scope state chunk) policy).1 =
      .error (.layout (.undeclaredType header.id) chunk.start) := by
  cases hrun : run (TypeHeader.read scope.data chunk) policy with
  | mk result after =>
    rw [hrun] at hheader
    obtain rfl : result = .ok header := hheader
    rw [fill, run_bind_of_ok hrun, if_pos hid]
    rfl

/-- A type chunk whose type is declared adds the resources of its entries to it. -/
theorem outcome_fill_of_mem
    (hheader : (run (TypeHeader.read scope.data chunk) policy).1 = .ok header)
    (hid : header.id ∈ state.declared) (journal : Journal) :
    (run (fill scope state chunk) policy journal).1 = (do
      let places ← EntryPlace.readAll scope.data header
      let resources ← (run (scope.readEntries header.id places) policy).1
      return { state with
        package := state.package.add header.id (scope.typeName header.id) header.qualifiers
          resources }) := by
  have hread : Composed (Fault.ShownBy scope.data) (TypeHeader.read scope.data chunk) :=
    TypeHeader.composed_read _ _
  have hsame := hread.outcome_eq policy journal {}
  cases hrun : run (TypeHeader.read scope.data chunk) policy journal with
  | mk result after =>
    rw [hrun, hheader] at hsame
    obtain rfl : result = .ok header := hsame
    rw [fill, run_bind_of_ok hrun, if_neg (not_not_intro hid), liftM_eq_ofExcept]
    cases EntryPlace.readAll scope.data header with
    | error fault => rfl
    | ok places =>
      have hlast (resources : List Resource) : Composed (Fault.ShownBy scope.data)
          (pure { state with
            package := state.package.add header.id (scope.typeName header.id) header.qualifiers
              resources } : Decoder OpenPackage) := .pure _
      rw [ofExcept_ok, pure_bind, Composed.outcome_bind hlast,
        (scope.composed_readEntries header.id places).outcome_eq policy after {}]
      rfl

end OpenPackage

theorem eq_take_cons_drop {α : Type} {items : List α} {i : Nat} {item : α}
    (h : items[i]? = some item) : items = items.take i ++ item :: items.drop (i + 1) := by
  obtain ⟨hi, rfl⟩ := List.getElem?_eq_some_iff.mp h
  rw [← List.drop_eq_getElem_cons hi, List.take_append_drop]

/-- A chunk nested in a package chunk, with decoding come up to it: the chunks of the table before
the package chunk are decoded, its frame is read, and the nested chunks before are decoded. -/
structure Reached (data : ByteArray) (policy : Policy) where
  header : TableHeader
  before : List Chunk
  package : Chunk
  behind : List Chunk
  state : OpenTable
  frame : PackageFrame
  earlier : List Chunk
  inner : Chunk
  later : List Chunk
  opened : OpenPackage
  header_read : TableHeader.read data = .ok header
  fits : header.chunk.stop ≤ data.size
  chunks_eq : (Chunk.walk data 8 header.chunk.stop header.chunk.headerSize).chunks =
    before ++ package :: behind
  state_eq : (run (before.foldlM (OpenTable.enter data) {}) policy).1 = .ok state
  package_kind : package.kind = Chunk.package
  frame_read : PackageFrame.read data package = .ok frame
  nested_eq : (frame.nested data package).chunks = earlier ++ inner :: later
  opened_eq : (run (earlier.foldlM
    (OpenPackage.enter (frame.scope data state.contents.strings))
    (frame.start state.contents.packages)) policy).1 = .ok opened

namespace Reached

/-- Nested chunk number `j` of chunk number `i` of a table, when decoding comes up to it. -/
def at? (data : ByteArray) (policy : Policy) (i j : Nat) : Option (Reached data policy) :=
  match header_read : TableHeader.read data with
  | .error _ => none
  | .ok header =>
    let chunks := (Chunk.walk data 8 header.chunk.stop header.chunk.headerSize).chunks
    match state_eq : (run ((chunks.take i).foldlM (OpenTable.enter data) {}) policy).1,
      hpackage : chunks[i]? with
    | .ok state, some package =>
      match frame_read : PackageFrame.read data package with
      | .error _ => none
      | .ok frame =>
        let nested := (frame.nested data package).chunks
        match opened_eq : (run ((nested.take j).foldlM
            (OpenPackage.enter (frame.scope data state.contents.strings))
            (frame.start state.contents.packages)) policy).1,
          hinner : nested[j]? with
        | .ok opened, some inner =>
          if h : header.chunk.stop ≤ data.size ∧ package.kind = Chunk.package then
            some {
              header, before := chunks.take i, package, behind := chunks.drop (i + 1), state, frame
              earlier := nested.take j, inner, later := nested.drop (j + 1), opened
              header_read, fits := h.1, chunks_eq := eq_take_cons_drop hpackage, state_eq
              package_kind := h.2, frame_read, nested_eq := eq_take_cons_drop hinner, opened_eq }
          else none
        | _, _ => none
    | _, _ => none

variable {data : ByteArray} {policy : Policy} (reached : Reached data policy)

/-- What the chunk refers to. -/
def scope : PackageScope := reached.frame.scope data reached.state.contents.strings

/-- The ids declared so far are those of the type specs before in the same package chunk. -/
theorem mem_declared_iff (id : Nat) :
    id ∈ reached.opened.declared ↔ ∃ spec ∈ reached.earlier, spec.Declares data id := by
  have hdeclared := OpenPackage.ensures_declared_foldlM reached.scope reached.earlier
    (reached.frame.start reached.state.contents.packages)
  have hopened := reached.opened_eq
  cases hrun : run (reached.earlier.foldlM (OpenPackage.enter reached.scope)
      (reached.frame.start reached.state.contents.packages)) policy with
  | mk result after =>
    rw [scope] at hrun
    rw [hrun] at hopened
    obtain rfl : result = .ok reached.opened := hopened
    rw [hdeclared policy {} reached.opened after hrun id]
    simp [PackageFrame.start, scope, PackageFrame.scope]

/-- A fault of the chunk is the fault of the whole table. -/
theorem outcome_of_error {fault : Fault}
    (h : (run (OpenPackage.enter reached.scope reached.opened reached.inner) policy).1 =
      .error fault) :
    (run (Contents.decode data) policy).1 = .error fault := by
  have hnested (journal : Journal) : (run ((reached.frame.nested data reached.package).visit
      (OpenPackage.enter reached.scope) (reached.frame.start reached.state.contents.packages))
      policy journal).1 = .error fault := by
    apply outcome_bind_error
    rw [reached.nested_eq]
    exact Composed.outcome_foldlM_error (OpenPackage.composed_enter reached.scope)
      reached.opened_eq h journal
  have hpackage : (run (OpenTable.enter data reached.state reached.package) policy).1 =
      .error fault := by
    rw [OpenTable.enter, if_neg (by rw [reached.package_kind]; decide),
      if_pos reached.package_kind, OpenTable.addPackage_eq reached.frame_read, run_note_bind]
    exact outcome_bind_error (hnested _)
  rw [Contents.decode, liftM_eq_ofExcept, reached.header_read, ofExcept_ok, pure_bind,
    run_note_bind, if_neg (Int.not_lt.mpr reached.fits)]
  apply outcome_bind_error
  apply outcome_bind_error
  rw [reached.chunks_eq]
  exact Composed.outcome_foldlM_error (OpenTable.composed_enter data) reached.state_eq hpackage _

/-- What the package has once the chunk is decoded, it has after the last nested chunk. -/
theorem stores_of_visit {type : Int × Text} {qualifiers : Qualifiers} {resources : List Resource}
    (hstores : ∀ journal next after,
      run (OpenPackage.enter reached.scope reached.opened reached.inner) policy journal =
        (.ok next, after) → next.package.Stores type qualifiers resources)
    {journal after : Journal} {built : OpenPackage}
    (h : run ((reached.frame.nested data reached.package).visit (OpenPackage.enter reached.scope)
      (reached.frame.start reached.state.contents.packages)) policy journal = (.ok built, after)) :
    built.package.key = reached.frame.key ∧ built.package.Stores type qualifiers resources := by
  constructor
  · obtain ⟨_, ⟨visits, _, hbuilt, _⟩, _⟩ := OpenPackage.logs_visit _ _ _ _ _ _ _ h
    rw [hbuilt, NestedVisit.key_foldl, PackageFrame.start]
    cases hfind : find? Package.key reached.frame.key reached.state.contents.packages with
    | none => rfl
    | some known => exact key_of_find? hfind
  · have hchunks := Chunk.run_foldlM_of_visit h
    rw [reached.nested_eq] at hchunks
    obtain ⟨next, start, between, hinner, hlater⟩ := Composed.exists_of_foldlM_ok
      (OpenPackage.composed_enter reached.scope) reached.opened_eq hchunks
    have hrest := Logs.foldlM (OpenPackage.logs_enter reached.scope policy) reached.later next
    obtain ⟨_, ⟨visits, _, hbuilt, _⟩, _⟩ := hrest between built after hlater
    rw [hbuilt]
    exact (hstores start next between hinner).perform _ visits

/-- What the package has once the chunk is decoded, the package of the whole table has. -/
theorem storedIn_of_decode {type : Int × Text} {qualifiers : Qualifiers}
    {resources : List Resource}
    (hstores : ∀ journal next after,
      run (OpenPackage.enter reached.scope reached.opened reached.inner) policy journal =
        (.ok next, after) → next.package.Stores type qualifiers resources)
    {contents : Contents} {after : Journal}
    (h : run (Contents.decode data) policy = (.ok contents, after)) :
    Package.StoredIn contents.packages reached.frame.key type qualifiers resources := by
  rw [Contents.decode, liftM_eq_ofExcept, reached.header_read, ofExcept_ok, pure_bind,
    run_note_bind, if_neg (Int.not_lt.mpr reached.fits)] at h
  obtain ⟨final, finished, hvisit, hcontents⟩ := exists_of_run_bind h
  cases hcontents
  have hchunks := Chunk.run_foldlM_of_visit hvisit
  rw [reached.chunks_eq] at hchunks
  obtain ⟨next, start, between, hpackage, hbehind⟩ :=
    Composed.exists_of_foldlM_ok (OpenTable.composed_enter data) reached.state_eq hchunks
  -- the package chunk itself, up to the summary of its package
  have hnext : Package.StoredIn next.contents.packages reached.frame.key type qualifiers
      resources := by
    rw [OpenTable.enter, if_neg (by rw [reached.package_kind]; decide),
      if_pos reached.package_kind, OpenTable.addPackage_eq reached.frame_read,
      run_note_bind] at hpackage
    obtain ⟨built, summing, hnested, hrest⟩ := exists_of_run_bind hpackage
    obtain ⟨_, _, _, hreturn⟩ := exists_of_run_bind hrest
    cases hreturn
    obtain ⟨hkey, hbuilt⟩ := reached.stores_of_visit hstores hnested
    exact exists_find?_upsert_self (fun _ _ => hkey) hkey (fun _ => hbuilt) hbuilt
  obtain ⟨_, ⟨visits, _, hpackages, _⟩, _⟩ :=
    OpenTable.logs_foldlM policy data reached.behind next between final _ hbehind
  rw [hpackages]
  exact hnext.enter data visits

/-- The name that a type id has in a package chunk is the entry of its type name pool before that
number, or stands for none when there is no such entry. -/
theorem typeName_cases (id : Nat) :
    (0 < id ∧ reached.frame.typePool.strings[id - 1]? = some (reached.scope.typeName id)) ∨
      ((id = 0 ∨ reached.frame.typePool.strings.length < id) ∧
        reached.scope.typeName id = "<INVALID TYPE>") := by
  by_cases hzero : id = 0
  · subst hzero
    exact .inr ⟨.inl rfl, rfl⟩
  · have hname : reached.scope.typeName id =
        (reached.frame.typePool.strings[id - 1]?).getD PackageScope.unnamedType := by
      rw [PackageScope.typeName, PackageScope.typeName?, if_neg hzero]
      rfl
    rw [hname]
    cases hentry : reached.frame.typePool.strings[id - 1]? with
    | none =>
      have hle := List.getElem?_eq_none_iff.mp hentry
      exact .inr ⟨.inr (by omega), rfl⟩
    | some name => exact .inl ⟨by omega, rfl⟩

/-- Type ids resolve only within their own package chunk. A type chunk is accepted when a type spec
of its id comes before it in the same package chunk, whatever else declares the id, and its
resources go to the type of that id and of the name that this package chunk gives the id; without
such a type spec, decoding ends at the start of the chunk. -/
theorem outcome_typeChunk {header : TypeHeader} (hkind : reached.inner.kind = Chunk.typeEntries)
    (hheader : (run (TypeHeader.read data reached.inner) policy).1 = .ok header) :
    ∃ name,
      ((0 < header.id ∧ reached.frame.typePool.strings[header.id - 1]? = some name) ∨
        ((header.id = 0 ∨ reached.frame.typePool.strings.length < header.id) ∧
          name = "<INVALID TYPE>")) ∧
      ((∃ spec ∈ reached.earlier, spec.Declares data header.id) →
        (run (OpenPackage.enter reached.scope reached.opened reached.inner) policy).1 = (do
          let places ← EntryPlace.readAll data header
          let resources ← (run (reached.scope.readEntries header.id places) policy).1
          return { reached.opened with
            package := reached.opened.package.add header.id name header.qualifiers resources }) ∧
        ∀ contents after, run (Contents.decode data) policy = (.ok contents, after) →
          ∃ places resources, EntryPlace.readAll data header = .ok places ∧
            (run (reached.scope.readEntries header.id places) policy).1 = .ok resources ∧
            Package.StoredIn contents.packages reached.frame.key (header.id, name)
              header.qualifiers resources) ∧
      ((¬ ∃ spec ∈ reached.earlier, spec.Declares data header.id) →
        (run (Contents.decode data) policy).1 =
            .error (.layout (.undeclaredType header.id) reached.inner.start) ∧
          (LayoutError.undeclaredType header.id).message =
            "Reference to undeclared type " ++ Numeral.decimal header.id ++ " found") := by
  have hspec : reached.inner.kind ≠ Chunk.typeSpec := by rw [hkind]; decide
  have henter : OpenPackage.enter reached.scope reached.opened reached.inner =
      OpenPackage.fill reached.scope reached.opened reached.inner := by
    rw [OpenPackage.enter, if_neg hspec, if_pos hkind]
  refine ⟨reached.scope.typeName header.id, reached.typeName_cases header.id, fun hdeclared => ?_,
    fun hundeclared => ⟨?_, rfl⟩⟩
  · have hmem := (reached.mem_declared_iff header.id).mpr hdeclared
    have hread : (run (TypeHeader.read reached.scope.data reached.inner) policy).1 = .ok header :=
      hheader
    have hfill (journal : Journal) := OpenPackage.outcome_fill_of_mem hread hmem journal
    refine ⟨by rw [henter]; exact hfill {}, fun contents after hdecode => ?_⟩
    -- a table that is decoded has no fault in the index table or the entries of the chunk
    have hnofault (fault : Fault) :
        (run (OpenPackage.fill reached.scope reached.opened reached.inner) policy).1 ≠
          .error fault := by
      intro hfault
      rw [← henter] at hfault
      have herror := reached.outcome_of_error hfault
      rw [hdecode] at herror
      cases herror
    have hdata : reached.scope.data = data := rfl
    rw [hdata] at hfill
    cases hplaces : EntryPlace.readAll data header with
    | error fault =>
      rw [hplaces] at hfill
      exact absurd (hfill {}) (hnofault fault)
    | ok places =>
      rw [hplaces] at hfill
      cases hresources : (run (reached.scope.readEntries header.id places) policy).1 with
      | error fault =>
        have herror := hfill {}
        simp only [bind, Except.bind, hresources] at herror
        exact absurd herror (hnofault fault)
      | ok resources =>
        refine ⟨places, resources, rfl, hresources, reached.storedIn_of_decode ?_ hdecode⟩
        intro journal next after hrun
        have hnext := hfill journal
        rw [← henter, hrun] at hnext
        simp only [bind, Except.bind, hresources] at hnext
        obtain rfl := Except.ok.inj hnext
        exact Package.stores_add _ _ _ _ _
  · apply reached.outcome_of_error
    rw [henter]
    exact OpenPackage.outcome_fill_of_not_mem hheader fun hmem =>
      hundeclared ((reached.mem_declared_iff header.id).mp hmem)

end Reached

/-- A table with two package chunks of the same id and name. The first one declares the types 1 and
2; the second one declares type 1, under another name, and has a type chunk for both. -/
def Layout.TablePlan.redeclared : Layout.TablePlan :=
  let group (id : Nat) : Layout.NestedPlan := .entries {
    id, slots := 1, entries := [{ number := 0, key := 0, body := .simple ⟨0x10, 5⟩ }] }
  let package (typeNames : List Text) (nested : List Layout.NestedPlan) : Layout.TopPlan :=
    .package { id := 1, name := "app", typeNames, keyNames := ["a"], nested }
  { chunks := [
      package ["one", "other"] [.typeSpec 1 0, .typeSpec 2 0],
      package ["two"] [.typeSpec 1 0, group 1, group 2]] }

/-- The table as bytes. -/
def Layout.TablePlan.redeclaredData : ByteArray :=
  ⟨Layout.TablePlan.redeclared.bytes.toArray⟩

namespace Reached

/-- What is known of a chunk that is reached, in a form that can be computed: its kind and id, the
type name pool of its package chunk, and whether the id is declared before it. -/
def summary (reached : Reached data policy) (id : Nat) : Nat × Option Nat × List Text × Bool :=
  (reached.inner.kind,
    (run (TypeHeader.read data reached.inner) policy).1.toOption.map TypeHeader.id,
    reached.frame.typePool.strings, decide (∃ spec ∈ reached.earlier, spec.Declares data id))

theorem exists_of_summary {i j id : Nat} {names : List Text} {declared : Bool}
    (h : (at? data policy i j).map (summary · id) =
      some (Chunk.typeEntries, some id, names, declared)) :
    ∃ (reached : Reached data policy) (header : TypeHeader),
      reached.inner.kind = Chunk.typeEntries ∧
      (run (TypeHeader.read data reached.inner) policy).1 = .ok header ∧ header.id = id ∧
      reached.frame.typePool.strings = names ∧
      ((∃ spec ∈ reached.earlier, spec.Declares data id) ↔ declared = true) := by
  obtain ⟨reached, -, hsummary⟩ := Option.map_eq_some_iff.mp h
  simp only [summary, Prod.mk.injEq] at hsummary
  obtain ⟨hkind, hid, hnames, hdeclared⟩ := hsummary
  cases hread : (run (TypeHeader.read data reached.inner) policy).1 with
  | error fault =>
    rw [hread] at hid
    cases hid
  | ok header =>
    rw [hread] at hid
    exact ⟨reached, header, hkind, hread, Option.some.inj hid, hnames,
      by rw [← hdeclared, decide_eq_true_iff]⟩

open Layout.TablePlan in
theorem outcome_typeChunk_redeclared :
    (∃ (reached : Reached redeclaredData .strict) (header : TypeHeader),
      (run (TypeHeader.read redeclaredData reached.inner) .strict).1 = .ok header ∧
      header.id = 1 ∧
      (run (OpenPackage.enter reached.scope reached.opened reached.inner) .strict).1 = (do
        let places ← EntryPlace.readAll redeclaredData header
        let resources ← (run (reached.scope.readEntries header.id places) .strict).1
        return { reached.opened with
          package := reached.opened.package.add header.id "two" header.qualifiers resources })) ∧
    ∃ (reached : Reached redeclaredData .strict) (header : TypeHeader),
      (run (TypeHeader.read redeclaredData reached.inner) .strict).1 = .ok header ∧
      header.id = 2 ∧
      (run (Contents.decode redeclaredData) .strict).1 =
        .error (.layout (.undeclaredType 2) reached.inner.start) := by
  have hsummaries : [1, 2].map (fun j => (at? redeclaredData .strict 2 j).map (summary · j)) =
      [some (Chunk.typeEntries, some 1, [.ofString "two"], true),
        some (Chunk.typeEntries, some 2, [.ofString "two"], false)] := by
    decide +kernel
  obtain ⟨hfirst, hrest⟩ := List.cons.inj hsummaries
  obtain ⟨hsecond, -⟩ := List.cons.inj hrest
  constructor
  · obtain ⟨reached, header, hkind, hread, hid, hnames, hdeclared⟩ := exists_of_summary hfirst
    obtain ⟨name, hname, haccepted, -⟩ := reached.outcome_typeChunk hkind hread
    have htwo : name = "two" := by
      rw [hid, hnames] at hname
      rcases hname with ⟨-, hentry⟩ | ⟨hzero | hlong, -⟩
      · exact (Option.some.inj hentry).symm
      · cases hzero
      · exact absurd hlong (by decide)
    rw [htwo, hid] at haccepted
    exact ⟨reached, header, hread, hid, by rw [hid]; exact (haccepted (hdeclared.mpr rfl)).1⟩
  · obtain ⟨reached, header, hkind, hread, hid, -, hdeclared⟩ := exists_of_summary hsecond
    obtain ⟨-, -, -, hrefused⟩ := reached.outcome_typeChunk hkind hread
    rw [hid] at hrefused
    exact ⟨reached, header, hread, hid, (hrefused (mt hdeclared.mp Bool.false_ne_true)).1⟩

end Reached
end CompiledResources
