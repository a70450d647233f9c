import CompiledResources.Layout.Table
import CompiledResources.Proofs.DistinctKeys
import CompiledResources.Proofs.Evidence

/-!
Decoding a package chunk into packages that are there already comes to decoding it alone and merging
the package that it makes. So the packages of a table are the fold of merging over its package
chunks, each decoded alone.
-/

namespace CompiledResources

open Keyed Decoder

/-! ### Building up behind a package -/

/-- Resources may be added to a type before it is merged. -/
theorem TypeGroup.merge_add (first : TypeGroup) {second : TypeGroup} (h : second.DistinctKeys)
    (qualifiers : Qualifiers) (resources : List Resource) :
    first.merge (second.add qualifiers resources) =
      (first.merge second).add qualifiers resources := by
  refine congrArg (fun variants => { first with variants }) ?_
  apply mergeOn_upsert
  · intro variant other
    rfl
  · intro variant
    rfl
  · rfl
  · exact h
  · intro variant other _
    simp [Variant.merge]
  · intro variant
    rfl

/-- A type may be declared before its package is merged. -/
theorem Package.merge_declare (first : Package) {second : Package} (h : second.DistinctKeys)
    (id : Int) (name : Text) :
    first.merge (second.declare id name) = (first.merge second).declare id name := by
  refine congrArg (fun types => { first with types }) ?_
  apply mergeOn_upsert
  · intro group other
    rfl
  · intro group
    rfl
  · rfl
  · exact h.types
  · intro group other _
    rfl
  · intro group
    rfl

/-- Resources may be added to a package before it is merged. -/
theorem Package.merge_add (first : Package) {second : Package} (h : second.DistinctKeys) (id : Int)
    (name : Text) (qualifiers : Qualifiers) (resources : List Resource) :
    first.merge (second.add id name qualifiers resources) =
      (first.merge second).add id name qualifiers resources := by
  refine congrArg (fun types => { first with types }) ?_
  apply mergeOn_upsert
  · intro group other
    rfl
  · intro group
    rfl
  · rfl
  · exact h.types
  · intro group other hother
    exact TypeGroup.merge_add group (h.groups other hother) qualifiers resources
  · intro group
    exact TypeGroup.merge_add group (TypeGroup.distinctKeys_empty id name) qualifiers resources

/-- The state of a package chunk whose package is built up behind another one. -/
def OpenPackage.behind (first : Package) (state : OpenPackage) : OpenPackage :=
  { state with package := first.merge state.package }

/-- A nested chunk does behind another package what it does on its own. -/
theorem OpenPackage.enter_behind (scope : PackageScope) (first : Package) {state : OpenPackage}
    (h : state.package.DistinctKeys) (chunk : Chunk) :
    OpenPackage.enter scope (state.behind first) chunk =
      OpenPackage.behind first <$> OpenPackage.enter scope state chunk := by
  unfold OpenPackage.enter
  split
  · simp only [OpenPackage.declare, OpenPackage.behind, map_bind, map_pure,
      apply_ite (Functor.map (OpenPackage.behind first)), Package.merge_declare first h]
  · split
    · simp only [OpenPackage.fill, OpenPackage.behind, map_bind, map_pure,
        apply_ite (Functor.map (OpenPackage.behind first)), Package.merge_add first h]
      rfl
    · rfl

/-- A walk does behind another package what it does on its own. -/
theorem OpenPackage.visit_behind (scope : PackageScope) (first : Package) {state : OpenPackage}
    (h : state.package.DistinctKeys) (walk : Chunk.Walk) :
    walk.visit (OpenPackage.enter scope) (state.behind first) =
      OpenPackage.behind first <$> walk.visit (OpenPackage.enter scope) state := by
  have hchunks (chunks : List Chunk) (state : OpenPackage) (h : state.package.DistinctKeys) :
      chunks.foldlM (OpenPackage.enter scope) (state.behind first) =
        OpenPackage.behind first <$> chunks.foldlM (OpenPackage.enter scope) state := by
    induction chunks generalizing state with
    | nil => rfl
    | cons chunk rest ih =>
      have hkept := OpenPackage.ensures_enter scope state.package.key state chunk ⟨h, rfl⟩
      rw [List.foldlM_cons, List.foldlM_cons, OpenPackage.enter_behind scope first h, bind_map_left,
        map_bind]
      exact hkept.bind_congr fun next hnext => ih next hnext.1
  rw [Chunk.Walk.visit, Chunk.Walk.visit, hchunks _ _ h, bind_map_left, map_bind]
  cases walk.fault with
  | none => rfl
  | some fault => rfl

/-! ### Package chunks decoded alone -/

/-- The packages that a package chunk makes on its own, with given global strings. -/
def Chunk.packagesAlone (data : ByteArray) (policy : Policy) (strings : OrderedMap Int Text)
    (chunk : Chunk) : Except Fault (List Package) :=
  ((OpenTable.addPackage data { contents := { strings } } chunk).run policy).1.map
    fun state => state.contents.packages

/-- The packages that the package chunks among `chunks` make on their own, each with the global
strings of the pools before it. -/
def Contents.packagesAlone (data : ByteArray) (policy : Policy) :
    List Chunk → OrderedMap Int Text → Except Fault (List Package)
  | [], _ => .ok []
  | chunk :: rest, strings =>
    if chunk.kind = Chunk.stringPool then do
      let pool ← StringPool.read data chunk
      let pairs := pool.strings.zipIdx.map fun pair => ((pair.2 : Int), pair.1)
      packagesAlone data policy rest (strings.putAll pairs)
    else if chunk.kind = Chunk.package then do
      let alone ← chunk.packagesAlone data policy strings
      let others ← packagesAlone data policy rest strings
      return alone ++ others
    else packagesAlone data policy rest strings

/-- What follows the nested chunks of a package chunk only notes a summary. -/
theorem OpenPackage.outcome_summarised {β : Type} (scope : PackageScope) (room limit offset : Int)
    (state : OpenPackage) (finish : OpenPackage → β) (policy : Policy) (journal : Journal) :
    (run (do
        let final ← (Chunk.walk scope.data room limit offset).visit (OpenPackage.enter scope) state
        final.package.noteSummary
        return finish final) policy journal).1 =
      (run ((Chunk.walk scope.data room limit offset).visit (OpenPackage.enter scope) state)
        policy).1.map finish := by
  have hnested : Composed (Fault.ShownBy scope.data)
      ((Chunk.walk scope.data room limit offset).visit (OpenPackage.enter scope) state) :=
    Chunk.composed_visit (OpenPackage.composed_enter scope) _ _ _ _ _
  have hsummary (final : OpenPackage) : Composed (Fault.ShownBy scope.data)
      (do final.package.noteSummary; return finish final) :=
    .bind (Package.composed_noteSummary _) fun _ => .pure _
  rw [Composed.outcome_bind hsummary, hnested.outcome_eq policy journal {}]
  cases (run ((Chunk.walk scope.data room limit offset).visit (OpenPackage.enter scope) state)
    policy).1 with
  | error fault => rfl
  | ok final =>
    have hnoted : Yields final.package.noteSummary () := .forM (fun _ => .note _) _
    exact hnoted.bind (.pure (finish final)) policy {}

/-- The package of the key of `built` among `packages`, with `built` merged into it. -/
def Package.within (packages : List Package) (built : Package) : Package :=
  match find? Package.key built.key packages with
  | some known => known.merge built
  | none => built

/-- Putting a merged package back in the place of its key merges it into the packages. -/
theorem Package.upsert_within (packages : List Package) (built : Package) :
    upsert Package.key built.key (fun _ => built.within packages) (built.within packages)
      packages = Package.mergeAll packages [built] := by
  cases hfind : find? Package.key built.key packages with
  | none =>
    have hnew : built.key ∉ packages.map Package.key := find?_eq_none_iff.mp hfind
    rw [Package.within, hfind, upsert_of_not_mem hnew]
    exact (upsert_of_not_mem hnew).symm
  | some known =>
    rw [Package.within, hfind]
    exact upsert_congr hfind rfl

/-- A walk that starts from the package of a key among `packages` ends with what it builds up on
its own, merged into that package. -/
theorem OpenPackage.outcome_within (scope : PackageScope) (policy : Policy) (walk : Chunk.Walk)
    (packages : List Package) (id : Int) (name : Text) :
    (run (walk.visit (OpenPackage.enter scope)
        { package := (find? Package.key (id, name) packages).getD { id, name } }) policy).1 =
    (run (walk.visit (OpenPackage.enter scope) { package := { id, name } }) policy).1.map
      fun built => { built with package := built.package.within packages } := by
  let fresh : OpenPackage := { package := { id, name } }
  have hfresh : fresh.package.DistinctKeys := Package.distinctKeys_empty id name
  have hkept : Ensures (walk.visit (OpenPackage.enter scope) fresh) fun built =>
      built.package.DistinctKeys ∧ built.package.key = (id, name) :=
    Chunk.ensures_visit (OpenPackage.ensures_enter scope (id, name)) walk ⟨hfresh, rfl⟩
  -- Both walks fail alike; where they succeed, the key says which case of `within` applies.
  cases hfind : find? Package.key (id, name) packages with
  | none =>
    rw [Option.getD_none]
    cases hrun : run (walk.visit (OpenPackage.enter scope) fresh) policy with
    | mk result after =>
      cases result with
      | error fault => rfl
      | ok built =>
        have hkey : built.package.key = (id, name) := (hkept _ _ _ _ hrun).2
        simp only [Except.map, Package.within, hkey, hfind]
  | some known =>
    rw [Option.getD_some]
    have hbehind := OpenPackage.visit_behind scope known hfresh walk
    rw [show ({ package := known } : OpenPackage) = fresh.behind known from rfl, hbehind, run_map]
    cases hrun : run (walk.visit (OpenPackage.enter scope) fresh) policy with
    | mk result after =>
      cases result with
      | error fault => rfl
      | ok built =>
        have hkey : built.package.key = (id, name) := (hkept _ _ _ _ hrun).2
        simp only [Except.map, Package.within, hkey, hfind, OpenPackage.behind]

/-- Once the header and the pools of a package chunk are read, its nested chunks are decoded on
their own, and what they make is merged into the packages that are there. -/
theorem OpenTable.outcome_of_pools {data : ByteArray} {chunk : Chunk} {header : PackageHeader}
    {typePool keyPool : StringPool} (hheader : PackageHeader.read data chunk = .ok header)
    (htypes : StringPool.readAt data (chunk.start + header.typeStrings) "package type strings" =
      .ok typePool)
    (hkeys : StringPool.readAt data (chunk.start + header.keyStrings) "package key strings" =
      .ok keyPool)
    (policy : Policy) (state : OpenTable) (journal : Journal) :
    let scope : PackageScope := {
      data, packageId := header.id, typeNames := typePool.strings, keyNames := keyPool.strings
      strings := state.contents.strings }
    let walk := Chunk.walk data 1 chunk.stop keyPool.header.chunk.stop
    ((OpenTable.addPackage data state chunk).run policy journal).1 =
      (run (walk.visit (OpenPackage.enter scope)
          { package := { id := header.id, name := header.name } }) policy).1.map fun built =>
        { contents := { state.contents with
            packages := Package.mergeAll state.contents.packages [built.package] }
          packageChunks := state.packageChunks + 1 } := by
  intro scope walk
  let known := find? Package.key ((header.id : Int), header.name) state.contents.packages
  have hvisit : ((OpenTable.addPackage data state chunk).run policy journal).1 =
      (run (walk.visit (OpenPackage.enter scope)
          { package := known.getD { id := header.id, name := header.name } }) policy).1.map
        fun final =>
          { contents := { state.contents with
              packages := upsert Package.key ((header.id : Int), header.name)
                (fun _ => final.package) final.package state.contents.packages }
            packageChunks := state.packageChunks + 1 } := by
    simp only [OpenTable.addPackage, liftM_eq_ofExcept, hheader, htypes, hkeys, ofExcept_ok,
      pure_bind, run_note_bind]
    apply OpenPackage.outcome_summarised scope
  have hkept : Ensures (walk.visit (OpenPackage.enter scope)
      { package := { id := header.id, name := header.name } }) fun built =>
      built.package.DistinctKeys ∧ built.package.key = ((header.id : Int), header.name) :=
    Chunk.ensures_visit (OpenPackage.ensures_enter scope _) walk
      ⟨Package.distinctKeys_empty _ _, rfl⟩
  rw [hvisit, OpenPackage.outcome_within scope policy walk]
  cases hrun : run (walk.visit (OpenPackage.enter scope)
      { package := { id := header.id, name := header.name } }) policy with
  | mk result after =>
    cases result with
    | error fault => rfl
    | ok built =>
      have hkey := (hkept _ _ _ _ hrun).2
      have hplaced := Package.upsert_within state.contents.packages built.package
      rw [hkey] at hplaced
      simp only [Except.map, hplaced]

/-- Decoding a package chunk into packages that are there merges what it makes on its own. -/
theorem OpenTable.outcome_addPackage (data : ByteArray) (policy : Policy) (state : OpenTable)
    (chunk : Chunk) (journal : Journal) :
    ((OpenTable.addPackage data state chunk).run policy journal).1 =
      (chunk.packagesAlone data policy state.contents.strings).map fun alone =>
        { contents := { state.contents with
            packages := Package.mergeAll state.contents.packages alone }
          packageChunks := state.packageChunks + 1 } := by
  unfold Chunk.packagesAlone
  cases hheader : PackageHeader.read data chunk with
  | error fault => simp only [OpenTable.addPackage, liftM_eq_ofExcept, hheader]; rfl
  | ok header =>
    cases htypes : StringPool.readAt data (chunk.start + header.typeStrings)
        "package type strings" with
    | error fault =>
      simp only [OpenTable.addPackage, liftM_eq_ofExcept, run_bind, run_ofExcept, run_note,
        hheader, htypes]
      rfl
    | ok typePool =>
      cases hkeys : StringPool.readAt data (chunk.start + header.keyStrings)
          "package key strings" with
      | error fault =>
        simp only [OpenTable.addPackage, liftM_eq_ofExcept, run_bind, run_ofExcept, run_note,
          hheader, htypes, hkeys]
        rfl
      | ok keyPool =>
        have houtcome (state : OpenTable) (journal : Journal) :=
          OpenTable.outcome_of_pools hheader htypes hkeys policy state journal
        rw [houtcome, houtcome]
        cases (run _ policy).1 with
        | error fault => rfl
        | ok built => rfl

/-- A package chunk makes one package on its own. -/
theorem Chunk.length_packagesAlone {data : ByteArray} {policy : Policy}
    {strings : OrderedMap Int Text} {chunk : Chunk} {alone : List Package}
    (h : chunk.packagesAlone data policy strings = .ok alone) : alone.length = 1 := by
  have hone : Ensures (OpenTable.addPackage data { contents := { strings } } chunk) fun next =>
      next.contents.packages.length = 1 :=
    .after fun header => .after fun _ => .after fun typePool => .after fun keyPool =>
      .after fun final => .after fun _ => .pure rfl
  unfold Chunk.packagesAlone at h
  cases hrun : (OpenTable.addPackage data { contents := { strings } } chunk).run policy with
  | mk result after =>
    rw [hrun] at h
    cases result with
    | error fault => cases h
    | ok state =>
      obtain rfl := Except.ok.inj h
      exact hone _ _ _ _ hrun

/-- As many packages come of package chunks on their own as there are package chunks. -/
theorem Contents.length_packagesAlone {data : ByteArray} {policy : Policy} {chunks : List Chunk}
    {strings : OrderedMap Int Text} {alone : List Package}
    (h : Contents.packagesAlone data policy chunks strings = .ok alone) :
    alone.length = chunks.countP (·.kind = Chunk.package) := by
  induction chunks generalizing strings alone with
  | nil =>
    obtain rfl := Except.ok.inj h
    rfl
  | cons chunk rest ih =>
    rw [Contents.packagesAlone] at h
    split at h
    next hpool =>
      have hkind : chunk.kind ≠ Chunk.package := by rw [hpool]; decide
      obtain ⟨pool, -, h⟩ := exists_of_bind_eq_ok h
      rw [List.countP_cons_of_neg (by simpa using hkind)]
      exact ih h
    next =>
      split at h
      next hpackage =>
        obtain ⟨first, hfirst, h⟩ := exists_of_bind_eq_ok h
        obtain ⟨others, hothers, h⟩ := exists_of_bind_eq_ok h
        cases h
        rw [List.length_append, Chunk.length_packagesAlone hfirst, ih hothers,
          List.countP_cons_of_pos (by simpa using hpackage), Nat.add_comm]
      next hother =>
        rw [List.countP_cons_of_neg (by simpa using hother)]
        exact ih h

/-- Whatever the packages there were, a run over the chunks of a table merges into them what the
package chunks make on their own, and fails where one of these fails. -/
theorem OpenTable.outcome_foldlM (data : ByteArray) (policy : Policy) (chunks : List Chunk)
    (state : OpenTable) (journal : Journal) :
    ((chunks.foldlM (OpenTable.enter data) state).run policy journal).1.map
        (fun final => final.contents.packages) =
      (Contents.packagesAlone data policy chunks state.contents.strings).map
        (Package.mergeAll state.contents.packages) := by
  induction chunks generalizing state journal with
  | nil => rfl
  | cons chunk rest ih =>
    have hrest (next : OpenTable) : Composed (Fault.ShownBy data)
        (rest.foldlM (OpenTable.enter data) next) :=
      .foldlM (fun state chunk => OpenTable.composed_enter data state chunk) rest next
    rw [List.foldlM_cons, Composed.outcome_bind hrest, Contents.packagesAlone, OpenTable.enter]
    split
    next =>
      rw [OpenTable.addStrings, liftM_eq_ofExcept]
      cases hread : StringPool.read data chunk with
      | error fault => rfl
      | ok pool => exact ih _ _
    next =>
      split
      next =>
        rw [OpenTable.outcome_addPackage]
        cases hfirst : chunk.packagesAlone data policy state.contents.strings with
        | error fault => rfl
        | ok first =>
          refine (ih _ _).trans ?_
          cases Contents.packagesAlone data policy rest state.contents.strings with
          | error fault => rfl
          | ok others =>
            let known := state.contents.packages
            have happend : Package.mergeAll (Package.mergeAll known first) others =
                Package.mergeAll known (first ++ others) := List.foldl_append.symm
            exact congrArg Except.ok happend
      next => exact ih _ _

/-- The packages of decoded contents are those that the package chunks make on their own, merged one
after another. -/
theorem Contents.packages_of_decode {data : ByteArray} {policy : Policy} {journal after : Journal}
    {contents : Contents}
    (h : (Contents.decode data).run policy journal = (.ok contents, after)) :
    ∃ header alone, TableHeader.read data = .ok header ∧
      let chunks := (Chunk.walk data 8 header.chunk.stop header.chunk.headerSize).chunks
      Contents.packagesAlone data policy chunks [] = .ok alone ∧
      alone.length = chunks.countP (·.kind = Chunk.package) ∧
      contents.packages = Package.mergeAll [] alone := by
  rw [Contents.decode, liftM_eq_ofExcept] at h
  cases hheader : TableHeader.read data with
  | error fault =>
    rw [hheader] at h
    cases h
  | ok header =>
    rw [hheader, ofExcept_ok, pure_bind, run_note_bind] at h
    split at h
    next => cases h
    next =>
      let walk := Chunk.walk data 8 header.chunk.stop header.chunk.headerSize
      obtain ⟨visited, _, hvisit, hcontents⟩ := exists_of_run_bind h
      obtain ⟨final, _, hfold, hfinal⟩ := exists_of_run_bind hvisit
      obtain rfl : final = visited := by
        cases hfault : walk.fault with
        | none =>
          rw [hfault] at hfinal
          cases hfinal
          rfl
        | some fault =>
          rw [hfault] at hfinal
          cases hfinal
      cases hcontents
      have hmerged := OpenTable.outcome_foldlM data policy walk.chunks {}
        { journal with notices := journal.notices.push (.tableStart header.packageCount) }
      rw [hfold] at hmerged
      cases halone : Contents.packagesAlone data policy walk.chunks [] with
      | error fault => simp [halone, Except.map] at hmerged
      | ok alone =>
        have hpackages : final.contents.packages = Package.mergeAll [] alone := by
          simpa [halone, Except.map] using hmerged
        exact ⟨header, alone, rfl, halone, Contents.length_packagesAlone halone, hpackages⟩

/-- A table with two package chunks of the same id and name, and the same entry in both. -/
def Layout.TablePlan.twice : Layout.TablePlan :=
  let group : Layout.TypePlan := {
    id := 1, slots := 1, entries := [{ number := 0, key := 0, body := .simple ⟨0x10, 5⟩ }] }
  let package : Layout.PackagePlan := {
    id := 127, name := "app", typeNames := ["id"], keyNames := ["a"]
    nested := [.typeSpec 1 1, .entries group] }
  { chunks := [.package package, .package package] }

theorem Contents.packages_of_decode_twice :
    let data : ByteArray := ⟨Layout.TablePlan.twice.bytes.toArray⟩
    ∃ contents after, (Contents.decode data).run .strict = (.ok contents, after) ∧
      ∃ header alone, TableHeader.read data = .ok header ∧
        let chunks := (Chunk.walk data 8 header.chunk.stop header.chunk.headerSize).chunks
        Contents.packagesAlone data .strict chunks [] = .ok alone ∧
        alone.length = chunks.countP (·.kind = Chunk.package) ∧
        contents.packages = Package.mergeAll [] alone := by
  intro data
  have hok : ((Contents.decode data).run .strict).1.toOption.isSome = true := by decide +kernel
  cases hrun : (Contents.decode data).run .strict with
  | mk result after =>
    rw [hrun] at hok
    cases result with
    | error fault => cases hok
    | ok contents => exact ⟨contents, after, rfl, Contents.packages_of_decode hrun⟩

end CompiledResources
