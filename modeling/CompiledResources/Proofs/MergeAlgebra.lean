import CompiledResources.Proofs.StoredIds

/-!
Merging as an operation on the contents of tables: it may be grouped either way, and the contents of
a table chunk without nested chunks change nothing when they are merged in, and become those that
are merged into them.
-/

namespace CompiledResources

open Keyed

/-! ### Grouping, level by level -/

theorem Variant.merge_assoc (first second third : Variant) :
    (first.merge second).merge third = first.merge (second.merge third) := by
  simp only [merge, List.append_assoc]

theorem TypeGroup.merge_assoc (first : TypeGroup) {second : TypeGroup}
    (hsecond : second.DistinctKeys) (third : TypeGroup) :
    (first.merge second).merge third = first.merge (second.merge third) := by
  have hvariants : mergeOn Variant.qualifiers Variant.merge
      (mergeOn Variant.qualifiers Variant.merge first.variants second.variants) third.variants =
        mergeOn Variant.qualifiers Variant.merge first.variants
          (mergeOn Variant.qualifiers Variant.merge second.variants third.variants) := by
    apply mergeOn_assoc_of_assoc _ _ hsecond
    · intro variant other
      rfl
    · exact Variant.merge_assoc
  simp only [merge, hvariants]

theorem Package.merge_assoc (first : Package) {second third : Package}
    (hsecond : second.DistinctKeys) (hthird : third.DistinctKeys) :
    (first.merge second).merge third = first.merge (second.merge third) := by
  have htypes : mergeOn TypeGroup.key TypeGroup.merge
      (mergeOn TypeGroup.key TypeGroup.merge first.types second.types) third.types =
        mergeOn TypeGroup.key TypeGroup.merge first.types
          (mergeOn TypeGroup.key TypeGroup.merge second.types third.types) := by
    apply mergeOn_assoc _ _ _ hsecond.types hsecond.groups hthird.groups
    · intro group other
      rfl
    · intro group other hgroup _
      exact TypeGroup.distinctKeys_merge hgroup other
    · intro first second third hsecond _
      exact first.merge_assoc hsecond third
  simp only [merge, htypes]

theorem OrderedMap.putAll_assoc {κ υ : Type} [DecidableEq κ] (first : OrderedMap κ υ)
    {second : OrderedMap κ υ} (hsecond : second.keys.Nodup) (third : OrderedMap κ υ) :
    (first.putAll second).putAll third = first.putAll (second.putAll third) := by
  simp only [putAll_eq_mergeOn]
  apply mergeOn_assoc_of_assoc _ _ hsecond
  · intro row pair
    rfl
  · intro first second third
    rfl

/-- Three contents may be merged in either grouping. -/
theorem Contents.merge_assoc (first : Contents) {second third : Contents}
    (hsecond : second.DistinctKeys) (hthird : third.DistinctKeys) :
    (first.merge second).merge third = first.merge (second.merge third) := by
  have hpackages : Package.mergeAll (Package.mergeAll first.packages second.packages)
      third.packages =
        Package.mergeAll first.packages (Package.mergeAll second.packages third.packages) := by
    apply mergeOn_assoc _ _ _ hsecond.packages hsecond.parts hthird.parts
    · intro package other
      rfl
    · intro package other
      exact Package.distinctKeys_merge
    · intro first second third
      exact first.merge_assoc
  simp only [merge, hpackages, OrderedMap.putAll_assoc first.strings hsecond.strings]

/-! ### Contents that change nothing -/

theorem Contents.merge_empty (contents : Contents) : contents.merge {} = contents :=
  rfl

theorem Contents.empty_merge {contents : Contents} (h : contents.DistinctKeys) :
    ({} : Contents).merge contents = contents := by
  have hpackages : Package.mergeAll [] contents.packages = contents.packages :=
    mergeOn_of_distinct h.packages
  have hstrings : OrderedMap.putAll [] contents.strings = contents.strings :=
    OrderedMap.putAll_of_nodup h.strings
  simp only [merge, hpackages, hstrings]

/-- A table chunk without nested chunks has empty contents. -/
theorem Contents.ensures_decode_of_no_chunks {data : ByteArray} {header : TableHeader}
    (hheader : TableHeader.read data = .ok header)
    (hnone : (Chunk.walk data 8 header.chunk.stop header.chunk.headerSize).chunks = []) :
    Decoder.Ensures (Contents.decode data) fun contents => contents = {} := by
  refine .read fun found hfound => .after fun _ => ?_
  obtain rfl : header = found := Except.ok.inj (hheader.symm.trans hfound)
  have hwalk : Decoder.Ensures ((Chunk.walk data 8 header.chunk.stop header.chunk.headerSize).visit
      (OpenTable.enter data) {}) fun final => final.contents = {} := by
    rw [Chunk.Walk.visit, hnone]
    have hstart : Decoder.Ensures (pure {}) fun final : OpenTable => final.contents = {} :=
      .pure rfl
    refine .bind hstart fun final hfinal => ?_
    split
    · exact .throw _
    · exact .pure hfinal
  refine .ite (.after fun _ => ?_) ?_ <;> exact .bind hwalk fun final hfinal => .pure hfinal

/-! ### Tables of a session -/

/-- Merging one ready table into another merges their contents. -/
theorem Session.perform_merge_of_ready {session : Session} {name other : Text}
    {first second : Contents} (hfirst : (session.table name).contents? = some first)
    (hsecond : (session.table other).contents? = some second) :
    session.perform name (.merge other) =
      ({ result := .ok () }, session.put name
        { session.table name with contents? := some (first.merge second) }) := by
  have hnext : (session.next name (.merge other)).result =
      .ok { session.table name with contents? := some (first.merge second) } := by
    change (session.table name).merge (session.table other) = _
    rw [Table.merge, hfirst, hsecond]
  rw [perform, hnext]
  rfl

/-- Merging a second table into a first and then a third into the first gives the same first table
as merging the third into the second and that into the first. -/
theorem Session.table_merge_assoc {session : Session} {first second third : Text}
    {a b c : Contents} (hsecond : second ≠ first) (hthird : third ≠ first)
    (ha : (session.table first).contents? = some a) (hb : (session.table second).contents? = some b)
    (hc : (session.table third).contents? = some c) (hsecondKeys : b.DistinctKeys)
    (hthirdKeys : c.DistinctKeys) :
    let intoFirst := session.perform first (.merge second)
    let oneByOne := intoFirst.2.perform first (.merge third)
    let intoSecond := session.perform second (.merge third)
    let together := intoSecond.2.perform first (.merge second)
    (intoFirst.1.result = .ok () ∧ oneByOne.1.result = .ok ()) ∧
      (intoSecond.1.result = .ok () ∧ together.1.result = .ok ()) ∧
        (oneByOne.2.table first).contents?.isSome = true ∧
          oneByOne.2.table first = together.2.table first := by
  intro intoFirst oneByOne intoSecond together
  have hintoFirst : intoFirst = _ := perform_merge_of_ready ha hb
  have hintoSecond : intoSecond = _ := perform_merge_of_ready hb hc
  have hab : (intoFirst.2.table first).contents? = some (a.merge b) := by
    rw [hintoFirst, table_put_self]
  have hthirdKept : (intoFirst.2.table third).contents? = some c := by
    rw [hintoFirst, table_put_of_ne _ hthird, hc]
  have hfirstKept : intoSecond.2.table first = session.table first := by
    rw [hintoSecond, table_put_of_ne _ hsecond.symm]
  have hbc : (intoSecond.2.table second).contents? = some (b.merge c) := by
    rw [hintoSecond, table_put_self]
  have honeByOne : oneByOne = _ := perform_merge_of_ready hab hthirdKept
  have htogether : together = _ := perform_merge_of_ready (hfirstKept ▸ ha) hbc
  have hleft : oneByOne.2.table first =
      { session.table first with contents? := some ((a.merge b).merge c) } := by
    rw [honeByOne, table_put_self, hintoFirst, table_put_self]
  have hright : together.2.table first =
      { session.table first with contents? := some (a.merge (b.merge c)) } := by
    rw [htogether, table_put_self, hfirstKept]
  refine ⟨⟨?_, ?_⟩, ⟨?_, ?_⟩, ?_, ?_⟩
  · rw [hintoFirst]
  · rw [honeByOne]
  · rw [hintoSecond]
  · rw [htogether]
  · rw [hleft]
    rfl
  · rw [hleft, hright, a.merge_assoc hsecondKeys hthirdKeys]

/-- Merging a table with empty contents into another changes nothing, and merging the other into it
gives it the contents of the other. -/
theorem Session.table_merge_empty {session : Session} {name other : Text} {contents : Contents}
    (hready : (session.table name).contents? = some contents) (hkeys : contents.DistinctKeys)
    (hempty : (session.table other).contents? = some {}) :
    let mergedIn := session.perform name (.merge other)
    let filled := session.perform other (.merge name)
    (mergedIn.1.result = .ok () ∧ mergedIn.2.table name = session.table name) ∧
      filled.1.result = .ok () ∧ (filled.2.table other).contents? = some contents := by
  intro mergedIn filled
  have hmergedIn : mergedIn = _ := perform_merge_of_ready hready hempty
  have hfilled : filled = _ := perform_merge_of_ready hempty hready
  rw [Contents.merge_empty, ← hready] at hmergedIn
  rw [Contents.empty_merge hkeys] at hfilled
  refine ⟨⟨?_, ?_⟩, ?_, ?_⟩
  · rw [hmergedIn]
  · rw [hmergedIn, table_put_self]
  · rw [hfilled]
  · rw [hfilled, table_put_self]

/-! ### Copies of a table -/

namespace Session

/-- A table chunk without nested chunks. -/
def bare : ByteArray := ⟨#[2, 0, 12, 0, 12, 0, 0, 0, 0, 0, 0, 0]⟩

theorem read_bare : TableHeader.read bare =
    .ok { chunk := ⟨0, Chunk.table, 12, 12, by decide⟩, packageCount := 0 } :=
  rfl

theorem walk_bare : (Chunk.walk bare 8 12 12).chunks = [] := by
  rw [Chunk.walk, if_neg (by decide)]

theorem parse_bare : (Table.parse {} bare).result = .ok { contents? := some {} } := by
  have hok : (Table.parse {} bare).result.isOk = true := by decide +kernel
  cases hparsed : (Table.parse {} bare).result with
  | error error =>
    rw [hparsed] at hok
    cases hok
  | ok table =>
    obtain ⟨-, contents, journal, hrun, rfl⟩ := Table.exists_of_parse hparsed
    obtain rfl := Contents.ensures_decode_of_no_chunks read_bare walk_bare _ _ _ _ hrun
    rfl

/-- Puts a table without nested chunks under a name. -/
def setBare : Event := .action (.createFrom .strict (.bytes bare))

/-- Puts a table under a name that only another table is merged into. -/
def copyOf (name other : Text) : List (Text × Event) :=
  [(name, setBare), (name, .action (.merge other))]

theorem after_setBare (session : Session) (name : Text) :
    session.after name setBare = session.put name { contents? := some {} } := by
  have hnext : (session.next name (.createFrom .strict (.bytes bare))).result =
      .ok { contents? := some {} } := parse_bare
  rw [setBare, after, perform, hnext]

theorem afterAll_append (session : Session) (first second : List (Text × Event)) :
    session.afterAll (first ++ second) = (session.afterAll first).afterAll second :=
  List.foldl_append

theorem afterAll_copyOf (session : Session) {name other : Text} {contents : Contents}
    (hne : other ≠ name) (hready : (session.table other).contents? = some contents) :
    let copied := session.afterAll (copyOf name other)
    (copied.table name).contents? = some (({} : Contents).merge contents) ∧
      ∀ third, third ≠ name → copied.table third = session.table third := by
  let started : Session := session.put name { contents? := some {} }
  have hname : (started.table name).contents? = some {} := by rw [table_put_self]
  have hother : (started.table other).contents? = some contents := by
    rw [table_put_of_ne _ hne, hready]
  have hcopied : session.afterAll (copyOf name other) = started.put name
      { started.table name with contents? := some (({} : Contents).merge contents) } := by
    change (session.after name setBare).after name (.action (.merge other)) = _
    rw [after_setBare, after, perform_merge_of_ready hname hother]
  rw [hcopied]
  constructor
  · rw [table_put_self]
  · intro third hthird
    rw [table_put_of_ne _ hthird, table_put_of_ne _ hthird]

/-- The history of a table with two packages, of two copies of it, and of one without packages. -/
def copies : List (Text × Event) :=
  let bareOnly : List (Text × Event) := [("none", setBare)]
  neighbours ++ (copyOf "copy" "both" ++ (copyOf "more" "both" ++ bareOnly))

theorem tables_copies :
    let session := afterAll [] copies
    ∃ contents, (session.table "both").contents? = some contents ∧
      (session.table "copy").contents? = some (({} : Contents).merge contents) ∧
      (session.table "more").contents? = some (({} : Contents).merge contents) ∧
      session.table "none" = { contents? := some {} } := by
  obtain ⟨contents, -, -, -, -, hboth, -⟩ := packages_neighbours
  rw [copies, afterAll_append, afterAll_append, afterAll_append]
  generalize afterAll [] neighbours = session at hboth ⊢
  have hcopyNe : ("both" : Text) ≠ "copy" := by decide
  have hmoreNe : ("both" : Text) ≠ "more" := by decide
  obtain ⟨hcopy, hkept⟩ := afterAll_copyOf session hcopyNe hboth
  rw [← hkept "both" hcopyNe] at hboth
  generalize session.afterAll (copyOf "copy" "both") = copied at hcopy hboth ⊢
  obtain ⟨hmore, hkept⟩ := afterAll_copyOf copied hmoreNe hboth
  have hnone (last : Session) : last.afterAll [("none", setBare)] =
      last.put "none" { contents? := some {} } := after_setBare last "none"
  rw [hnone]
  refine ⟨contents, ?_, ?_, ?_, ?_⟩
  · rw [table_put_of_ne _ (by decide), hkept _ (by decide), hboth]
  · rw [table_put_of_ne _ (by decide), hkept _ (by decide), hcopy]
  · rw [table_put_of_ne _ (by decide), hmore]
  · rw [table_put_self]

/-- Merging is associative and has an identity. Of three ready tables of a session, however it came
about: merging the second into the first and then the third into the first succeeds and gives the
same first table, its packages, types, variants, resources and strings in the same order, as merging
the third into the second and then that into the first. And a table that was parsed from a table
chunk without nested chunks leaves a table that it is merged into as it was, and gets the contents
of a table that is merged into it. -/
theorem merge_laws_afterAll (events : List (Text × Event)) {first second third : Text}
    {a b c : Contents} (hsecond : second ≠ first) (hthird : third ≠ first)
    (ha : (Session.table (afterAll [] events) first).contents? = some a)
    (hb : (Session.table (afterAll [] events) second).contents? = some b)
    (hc : (Session.table (afterAll [] events) third).contents? = some c) :
    let session := afterAll [] events
    let intoFirst := session.perform first (.merge second)
    let oneByOne := intoFirst.2.perform first (.merge third)
    let intoSecond := session.perform second (.merge third)
    let together := intoSecond.2.perform first (.merge second)
    ((intoFirst.1.result = .ok () ∧ oneByOne.1.result = .ok ()) ∧
      (intoSecond.1.result = .ok () ∧ together.1.result = .ok ()) ∧
        (oneByOne.2.table first).contents?.isSome = true ∧
          oneByOne.2.table first = together.2.table first) ∧
      ∀ (name : Text) (policy : Policy) (data : ByteArray) (header : TableHeader),
        TableHeader.read data = .ok header →
          (Chunk.walk data 8 header.chunk.stop header.chunk.headerSize).chunks = [] →
            (Table.parse { policy } data).result = .ok (session.table name) →
              let mergedIn := session.perform first (.merge name)
              let filled := session.perform name (.merge first)
              (mergedIn.1.result = .ok () ∧ mergedIn.2.table first = session.table first) ∧
                filled.1.result = .ok () ∧ (filled.2.table name).contents? = some a := by
  intro session intoFirst oneByOne intoSecond together
  have hkeys : session.Meets Contents.DistinctKeys :=
    meets_afterAll Contents.lasting_distinctKeys meets_nil events
  constructor
  · exact table_merge_assoc hsecond hthird ha hb hc (hkeys second b hb) (hkeys third c hc)
  · intro name policy data header hheader hnone hparsed
    obtain ⟨-, contents, journal, hrun, htable⟩ := Table.exists_of_parse hparsed
    obtain rfl : contents = {} :=
      Contents.ensures_decode_of_no_chunks hheader hnone _ _ _ _ hrun
    exact table_merge_empty ha (hkeys first a ha) (by rw [htable])

theorem merge_laws_afterAll_copies :
    let session := afterAll [] copies
    let oneByOne := ((session.perform "both" (.merge "copy")).2.perform "both" (.merge "more")).2
    let together := ((session.perform "copy" (.merge "more")).2.perform "both" (.merge "copy")).2
    let mergedIn := (session.perform "both" (.merge "none")).2
    let filled := (session.perform "none" (.merge "both")).2
    (oneByOne.table "both").contents?.isSome = true ∧
      oneByOne.table "both" = together.table "both" ∧
        mergedIn.table "both" = session.table "both" ∧
          (filled.table "none").contents? = (session.table "both").contents? := by
  obtain ⟨contents, hboth, hcopy, hmore, hnone⟩ := tables_copies
  obtain ⟨⟨-, -, hsome, hassoc⟩, hidentity⟩ :=
    merge_laws_afterAll copies (by decide) (by decide) hboth hcopy hmore
  have hparsed : (Table.parse {} bare).result =
      .ok (Session.table (afterAll [] copies) "none") := by
    rw [hnone, parse_bare]
  obtain ⟨⟨-, hmergedIn⟩, -, hfilled⟩ :=
    hidentity "none" .strict bare _ read_bare walk_bare hparsed
  exact ⟨hsome, hassoc, hmergedIn, by rw [hfilled, hboth]⟩

end Session
end CompiledResources
