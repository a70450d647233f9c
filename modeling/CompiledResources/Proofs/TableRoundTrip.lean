import CompiledResources.Proofs.Grouping

/-!
Whole tables from their bytes: decoding gives the contents of what is kept of a plan, whatever
chunks of other kinds stand between the ones that are taken in.
-/

namespace CompiledResources

open Decoder

namespace Layout

/-- The kinds of the chunks that are taken in at the level of a table. -/
def topKinds : List Nat := [Chunk.stringPool, Chunk.package]

/-- The chunk has room for what it holds, or is passed over. -/
def TopPlan.Storable : TopPlan → Prop
  | .package plan => plan.Storable
  | .foreign chunk => chunk.PassedOver topKinds

/-- The table has room for what it holds: all sizes fit in 32 bits, and its parts have room. -/
structure TablePlan.Storable (plan : TablePlan) : Prop where
  size : plan.bytes.length < 4294967296
  strings : ∀ t ∈ plan.strings, Poolable plan.utf8 t
  leading : ∀ chunk ∈ plan.leading, chunk.PassedOver topKinds
  chunks : ∀ top ∈ plan.chunks, top.Storable

instance (top : TopPlan) : Decidable top.Storable :=
  match top with
  | .package plan => inferInstanceAs (Decidable plan.Storable)
  | .foreign chunk => inferInstanceAs (Decidable (chunk.PassedOver topKinds))

instance (plan : TablePlan) : Decidable plan.Storable :=
  decidable_of_iff
    (plan.bytes.length < 4294967296 ∧ (∀ t ∈ plan.strings, Poolable plan.utf8 t) ∧
      (∀ chunk ∈ plan.leading, chunk.PassedOver topKinds) ∧ ∀ top ∈ plan.chunks, top.Storable)
    ⟨fun ⟨size, strings, leading, chunks⟩ => ⟨size, strings, leading, chunks⟩,
      fun h => ⟨h.size, h.strings, h.leading, h.chunks⟩⟩

end Layout

/-! ### The global strings -/

theorem numbered_zipIdx (strings : List Text) (start ordinal : Nat) :
    OrderedMap.get? ((strings.zipIdx start).map fun pair => ((pair.2 : Int), pair.1))
      ((start + ordinal : Nat) : Int) = strings[ordinal]? := by
  induction strings generalizing start ordinal with
  | nil => rfl
  | cons t rest ih =>
    cases ordinal with
    | zero => simp [OrderedMap.get?, Keyed.find?]
    | succ ordinal =>
      have hplace : start + 1 + ordinal = start + (ordinal + 1) := by omega
      have hne : Prod.fst ((start : Int), t) ≠ ((start + (ordinal + 1) : Nat) : Int) := by
        simp only [ne_eq]
        omega
      rw [List.getElem?_cons_succ, ← ih (start + 1) ordinal, hplace, List.zipIdx_cons,
        List.map_cons, OrderedMap.get?, Keyed.find?_cons_of_ne hne]
      rfl

/-- The global string of an ordinal is the string at that place. -/
theorem numbered_numbered (strings : List Text) : Numbered (Layout.numbered strings) strings := by
  intro ordinal
  have hstart := numbered_zipIdx strings 0 ordinal
  rwa [Nat.zero_add] at hstart

theorem putAll_numbered (strings : List Text) :
    OrderedMap.putAll [] (Layout.numbered strings) = Layout.numbered strings := by
  have hkeys : (Layout.numbered strings).map Prod.fst =
      (strings.zipIdx.map Prod.snd).map fun ordinal : Nat => (ordinal : Int) := by
    rw [Layout.numbered, List.map_map, List.map_map]
    rfl
  apply OrderedMap.putAll_of_nodup
  rw [List.nil_append, hkeys, List.zipIdx_map_snd]
  refine List.Pairwise.map _ (fun first second hne heq => hne ?_) List.nodup_range'
  exact Int.ofNat.inj heq

/-! ### The chunks of a table -/

section

variable {data : ByteArray}

/-- A chunk of a table that is passed over is found where it stands and changes nothing. -/
theorem OpenTable.enter_foreign {offset : Int} {foreign : Layout.ForeignChunk}
    (h : Holds data offset foreign.bytes) (hforeign : foreign.PassedOver Layout.topKinds)
    (hsize : foreign.bytes.length < 4294967296) (state : OpenTable) :
    ∃ chunk, Chunk.readAt data offset = .ok chunk ∧ chunk.size = foreign.bytes.length ∧
      OpenTable.enter data state chunk = pure state := by
  rcases hforeign with ⟨hbound, hkinds⟩
  obtain ⟨chunk, hread, rfl, hkind, -, hlength⟩ := Chunk.readAt_of_holds h hbound hsize
  rw [← hkind] at hkinds
  have hpool : chunk.kind ≠ Chunk.stringPool := List.ne_of_not_mem_cons hkinds
  have hpackage : chunk.kind ≠ Chunk.package :=
    List.ne_of_not_mem_cons (List.not_mem_of_not_mem_cons hkinds)
  refine ⟨chunk, hread, hlength, ?_⟩
  rw [OpenTable.enter, if_neg hpool, if_neg hpackage]

theorem Layout.ForeignChunk.length_bytes (foreign : Layout.ForeignChunk) :
    8 ≤ foreign.bytes.length := by
  rw [bytes, Chunk.length_chunk]
  exact Nat.le_add_right ..

/-- A walk gets past chunks that are passed over. -/
theorem OpenTable.visit_leading {leading : List Layout.ForeignChunk} {offset limit : Int}
    (h : Holds data offset (leading.flatMap Layout.ForeignChunk.bytes))
    (hlimit : offset + (leading.flatMap Layout.ForeignChunk.bytes).length ≤ limit)
    (hsize : (leading.flatMap Layout.ForeignChunk.bytes).length < 4294967296)
    (hleading : ∀ chunk ∈ leading, chunk.PassedOver Layout.topKinds) (state : OpenTable) :
    (Chunk.walk data 8 limit offset).visit (OpenTable.enter data) state =
      (Chunk.walk data 8 limit
        (offset + (leading.flatMap Layout.ForeignChunk.bytes).length)).visit
          (OpenTable.enter data) state := by
  induction leading generalizing offset with
  | nil =>
    rw [List.flatMap_nil, List.length_nil, Int.natCast_zero, Int.add_zero]
  | cons foreign rest ih =>
    have hlength := foreign.length_bytes
    rw [List.forall_mem_cons] at hleading
    rw [List.flatMap_cons, List.length_append] at hlimit hsize
    rw [List.flatMap_cons, Holds.append_iff] at h
    obtain ⟨chunk, hread, hchunk, henter⟩ :=
      OpenTable.enter_foreign h.1 hleading.1 (by omega) state
    have hrest := ih h.2 (by omega) (by omega) hleading.2
    rw [Chunk.visit_walk_of_readAt (by omega) hread, henter, pure_bind, hchunk, hrest,
      List.flatMap_cons, List.length_append, Int.natCast_add, Int.add_assoc]

theorem Layout.TopPlan.length_bytes (top : Layout.TopPlan) : 8 ≤ top.bytes.length := by
  cases top <;> simp only [bytes, packageChunk, ForeignChunk.bytes, Chunk.length_chunk] <;> omega

/-- The packages that chunks of a table make on their own, one for each package chunk. -/
def Layout.packagesOf (texts : List Text) (tops : List Layout.TopPlan) : List Package :=
  tops.filterMap fun
    | .package plan => some (plan.kept.package texts)
    | .foreign _ => none

/-- A chunk of a table behind its global strings is found where it stands, and merges what it
amounts to into the packages. -/
theorem OpenTable.yields_enter {texts : List Text} {offset : Int} {top : Layout.TopPlan}
    (h : Holds data offset top.bytes) (hsize : top.bytes.length < 4294967296)
    (htop : top.Storable) (state : OpenTable) (hstrings : Numbered state.contents.strings texts) :
    ∃ chunk next, Chunk.readAt data offset = .ok chunk ∧ chunk.size = top.bytes.length ∧
      Yields (OpenTable.enter data state chunk) next ∧
      next.contents = { state.contents with
        packages := Package.mergeAll state.contents.packages
          (Layout.packagesOf texts [top]) } := by
  cases top with
  | package plan =>
    obtain ⟨chunk, hread, rfl, hkind, -, hlength⟩ := Chunk.readAt_of_holds h (by decide) hsize
    have hadd := OpenTable.yields_addPackage h htop hlength hsize state hstrings
    have hpool : chunk.kind ≠ Chunk.stringPool := by
      rw [hkind]
      decide
    let next : OpenTable := {
      contents := { state.contents with
        packages := Package.mergeAll state.contents.packages [plan.kept.package texts] }
      packageChunks := state.packageChunks + 1 }
    refine ⟨chunk, next, hread, hlength, ?_, rfl⟩
    rw [OpenTable.enter, if_neg hpool, if_pos hkind]
    exact hadd
  | foreign foreign =>
    obtain ⟨chunk, hread, hlength, henter⟩ := OpenTable.enter_foreign h htop hsize state
    refine ⟨chunk, state, hread, hlength, ?_, rfl⟩
    rw [henter]
    exact .pure state

/-- A walk over the chunks behind the global strings merges the packages of the package chunks, one
after another. -/
theorem OpenTable.yields_visit {texts : List Text} {tops : List Layout.TopPlan}
    {offset limit : Int} (h : Holds data offset (tops.flatMap Layout.TopPlan.bytes))
    (hlimit : offset + (tops.flatMap Layout.TopPlan.bytes).length = limit)
    (hsize : (tops.flatMap Layout.TopPlan.bytes).length < 4294967296)
    (htops : ∀ top ∈ tops, top.Storable) (state : OpenTable)
    (hstrings : Numbered state.contents.strings texts) :
    ∃ final, Yields ((Chunk.walk data 8 limit offset).visit (OpenTable.enter data) state) final ∧
      final.contents = { state.contents with
        packages := Package.mergeAll state.contents.packages
          (Layout.packagesOf texts tops) } := by
  induction tops generalizing offset state with
  | nil =>
    refine ⟨state, ?_, rfl⟩
    rw [Chunk.visit_walk_of_lt (by simp only [List.flatMap_nil, List.length_nil] at hlimit; omega)]
    exact .pure state
  | cons top rest ih =>
    have hlength := top.length_bytes
    rw [List.forall_mem_cons] at htops
    rw [List.flatMap_cons, List.length_append] at hlimit hsize
    rw [List.flatMap_cons, Holds.append_iff] at h
    obtain ⟨chunk, next, hread, hchunk, henter, hnext⟩ :=
      OpenTable.yields_enter h.1 (by omega) htops.1 state hstrings
    have hnextStrings : Numbered next.contents.strings texts := by
      rw [hnext]
      exact hstrings
    obtain ⟨final, hvisit, hfinal⟩ := ih h.2 (by omega) (by omega) htops.2 next hnextStrings
    refine ⟨final, ?_, ?_⟩
    · rw [Chunk.visit_walk_of_readAt (by omega) hread, hchunk]
      exact .bind henter hvisit
    · have hsplit : Layout.packagesOf texts (top :: rest) =
          Layout.packagesOf texts [top] ++ Layout.packagesOf texts rest :=
        List.filterMap_append (l := [top])
      rw [hfinal, hnext, hsplit]
      simp only [Package.mergeAll, Keyed.mergeOn, List.foldl_append]

theorem Layout.packagesOf_chunks (plan : Layout.TablePlan) :
    Layout.packagesOf plan.kept.strings plan.chunks =
      plan.kept.packages.map (Layout.PackagePlan.package plan.kept.strings) := by
  rw [packagesOf, TablePlan.packages, List.map_filterMap, TablePlan.kept, List.filterMap_map]
  congr 1
  funext top
  cases top <;> rfl

theorem Layout.declaredFirst_map_kept {declared : List Nat} {nested : List Layout.NestedPlan}
    (h : Layout.DeclaredFirst declared nested) :
    Layout.DeclaredFirst declared (nested.map Layout.NestedPlan.kept) := by
  induction nested generalizing declared with
  | nil => trivial
  | cons first rest ih =>
    cases first with
    | typeSpec id entryCount => exact ih h
    | entries plan => exact ⟨h.1, ih h.2⟩
    | foreign chunk => exact ih h

/-- In what is kept of a table, each type chunk still comes behind a type spec of its id. -/
theorem Layout.TablePlan.Storable.declaredFirst {plan : Layout.TablePlan} (h : plan.Storable) :
    ∀ package ∈ plan.kept.packages, Layout.DeclaredFirst [] package.nested := by
  intro package hpackage
  obtain ⟨top, htop, hsome⟩ := List.mem_filterMap.mp hpackage
  obtain ⟨original, horiginal, rfl⟩ := List.mem_map.mp htop
  cases original with
  | package whole =>
    obtain rfl := Option.some.inj hsome
    exact Layout.declaredFirst_map_kept (h.chunks _ horiginal).declared
  | foreign chunk => cases hsome

/-- The global strings are taken in from their pool. -/
theorem OpenTable.enter_strings {offset : Int} {utf8 : Bool} {strings : List Text}
    (h : Holds data offset (Layout.stringPool utf8 strings))
    (hsize : (Layout.stringPool utf8 strings).length < 4294967296)
    (hstrings : ∀ t ∈ strings, Layout.Poolable utf8 t) :
    ∃ chunk, Chunk.readAt data offset = .ok chunk ∧
      chunk.size = (Layout.stringPool utf8 strings).length ∧
      OpenTable.enter data {} chunk = pure {
        contents := { strings := Layout.numbered (strings.map (Layout.keptString utf8)) } } := by
  obtain ⟨chunk, hread, rfl, hkind, hlength⟩ := StringPool.chunk_of_holds h hsize
  refine ⟨chunk, hread, hlength, ?_⟩
  have hpool := StringPool.read_of_holds h hsize hstrings
  let kept := strings.map (Layout.keptString utf8)
  have hnumbered : OrderedMap.putAll [] (kept.zipIdx.map fun pair => ((pair.2 : Int), pair.1)) =
      Layout.numbered kept := putAll_numbered kept
  rw [OpenTable.enter, if_pos hkind]
  simp only [OpenTable.addStrings, hpool, liftM_eq_ofExcept, ofExcept_ok, pure_bind, kept,
    hnumbered]

/-- The three parts of a table behind its header, each where it stands. -/
theorem Layout.TablePlan.parts_of_holds {plan : Layout.TablePlan} (h : Holds data 0 plan.bytes) :
    Holds data 12 (plan.leading.flatMap Layout.ForeignChunk.bytes) ∧
      Holds data (12 + (plan.leading.flatMap Layout.ForeignChunk.bytes).length)
        (Layout.stringPool plan.utf8 plan.strings) ∧
      Holds data (12 + (plan.leading.flatMap Layout.ForeignChunk.bytes).length +
          (Layout.stringPool plan.utf8 plan.strings).length)
        (plan.chunks.flatMap Layout.TopPlan.bytes) := by
  simp only [Layout.TablePlan.bytes, Layout.chunk, Holds.append_iff, List.length_append,
    Layout.length_number, and_assoc] at h
  rcases h with ⟨-, -, -, -, hleading, hpool, htops⟩
  exact ⟨hleading.at_eq (by omega), hpool.at_eq (by omega), htops.at_eq (by omega)⟩

theorem Layout.TablePlan.length_bytes (plan : Layout.TablePlan) :
    plan.bytes.length = 12 + (plan.leading.flatMap Layout.ForeignChunk.bytes).length +
      (Layout.stringPool plan.utf8 plan.strings).length +
      (plan.chunks.flatMap Layout.TopPlan.bytes).length := by
  simp only [Layout.TablePlan.bytes, Chunk.length_chunk, List.length_append, Layout.length_number]
  omega

/-- The header of a table is read back, with a chunk that takes in all bytes of the table. -/
theorem TableHeader.read_of_holds {plan : Layout.TablePlan} (h : Holds data 0 plan.bytes)
    (hsize : plan.bytes.length < 4294967296) :
    ∃ header, TableHeader.read data = .ok header ∧ header.chunk.headerSize = 12 ∧
      header.chunk.stop = plan.bytes.length := by
  obtain ⟨chunk, hchunk, hstart, hkind, hheaderSize, hlength⟩ :=
    Chunk.readAt_of_holds h (by decide) hsize
  have hcount : Holds data 8 (Layout.number 4 plan.packages.length) := by
    simp only [Layout.TablePlan.bytes, Layout.chunk, Holds.append_iff, List.length_append,
      Layout.length_number, and_assoc] at h
    rcases h with ⟨-, -, -, hcount, -⟩
    exact hcount
  have hcountRead : Bytes.u32At data 8 = .ok (plan.packages.length % Bytes.capacity 4) :=
    hcount.numberAt
  have hkindOk : ¬ chunk.kind ≠ Chunk.table := not_not_intro hkind
  have hheaderOk : ¬ chunk.headerSize < 12 := by
    rw [hheaderSize]
    decide
  refine ⟨{ chunk, packageCount := plan.packages.length % Bytes.capacity 4 }, ?_, hheaderSize, ?_⟩
  · simp only [TableHeader.read, hchunk, bind, Except.bind, hkindOk, hheaderOk, if_false,
      hcountRead]
    rfl
  · have hstop : chunk.stop = 0 + plan.bytes.length := by rw [Chunk.stop, hstart, hlength]; rfl
    rwa [Int.zero_add] at hstop

/-- A walk over the chunks of a table builds up the contents of what is kept of its plan. -/
theorem OpenTable.yields_visit_table {plan : Layout.TablePlan} (h : Holds data 0 plan.bytes)
    (hplan : plan.Storable) :
    ∃ final, Yields ((Chunk.walk data 8 plan.bytes.length 12).visit (OpenTable.enter data) {})
        final ∧
      final.contents = plan.kept.contents := by
  obtain ⟨hleading, hpool, htops⟩ := Layout.TablePlan.parts_of_holds h
  have hsize := hplan.size
  have hlength := plan.length_bytes
  obtain ⟨chunk, hread, hchunk, henter⟩ :=
    OpenTable.enter_strings hpool (by omega) hplan.strings
  let collected : OpenTable := { contents := { strings := Layout.numbered plan.kept.strings } }
  obtain ⟨final, hvisit, hfinal⟩ := OpenTable.yields_visit htops
    (by omega : _ = (plan.bytes.length : Int)) (by omega) hplan.chunks collected
    (numbered_numbered plan.kept.strings)
  have hpoolLength : 8 ≤ (Layout.stringPool plan.utf8 plan.strings).length := by
    simp only [Layout.stringPool, Chunk.length_chunk]
    omega
  refine ⟨final, ?_, ?_⟩
  · rw [OpenTable.visit_leading hleading (by omega) (by omega) hplan.leading {},
      Chunk.visit_walk_of_readAt (by omega) hread, henter, pure_bind, hchunk]
    exact hvisit
  · have hpackages := Layout.TablePlan.mergeAll_packages plan.kept hplan.declaredFirst
    have hwhole (packages : List Package) (h : packages = plan.kept.contents.packages) :
        { collected.contents with packages } = plan.kept.contents := by
      subst h
      rfl
    rw [hfinal, Layout.packagesOf_chunks]
    exact hwhole _ hpackages

/-- A table that stands at the start of a buffer is decoded as the contents of what is kept of its
plan. -/
theorem Contents.yields_decode {plan : Layout.TablePlan} (h : Holds data 0 plan.bytes)
    (hplan : plan.Storable) : Yields (Contents.decode data) plan.kept.contents := by
  obtain ⟨header, hheader, hheaderSize, hstop⟩ := TableHeader.read_of_holds h hplan.size
  obtain ⟨final, hvisit, hcontents⟩ := OpenTable.yields_visit_table h hplan
  have hfits := h.fits
  unfold Bytes.Fits at hfits
  have hinside : ¬ (data.size : Int) < (plan.bytes.length : Int) := by omega
  have hfirst : (header.chunk.headerSize : Int) = 12 := by
    rw [hheaderSize]
    rfl
  simp only [decode, hheader, liftM_eq_ofExcept, ofExcept_ok, pure_bind, hinside, if_false, hstop,
    hfirst]
  refine .bind (.note _) (.bind hvisit ?_)
  rw [hcontents]
  exact .pure _

end

/-! ### Tables as they are laid out -/

/-- The bytes of a table are decoded as the contents of what is kept of its plan. -/
theorem Contents.exists_run_decode {plan : Layout.TablePlan} (hplan : plan.Storable)
    (policy : Policy) :
    ∃ after, (Contents.decode ⟨plan.bytes.toArray⟩).run policy =
      (.ok plan.kept.contents, after) :=
  ⟨_, Prod.ext (Contents.yields_decode (Holds.all plan.bytes) hplan policy {}) rfl⟩

/-- Under every policy, the bytes of a table are decoded as the contents of what is kept of its
plan, and each global string is what the pool keeps of the one in its place. -/
theorem Layout.TablePlan.decode_bytes {plan : Layout.TablePlan} (hplan : plan.Storable)
    (policy : Policy) (journal : Journal) :
    ((Contents.decode ⟨plan.bytes.toArray⟩).run policy journal).1 = .ok plan.kept.contents ∧
      ∀ ordinal : Nat, plan.kept.contents.strings.get? ordinal =
        plan.strings[ordinal]?.map (Layout.keptString plan.utf8) := by
  constructor
  · exact Contents.yields_decode (Holds.all plan.bytes) hplan policy journal
  · intro ordinal
    have hordinal := numbered_numbered plan.kept.strings ordinal
    rw [TablePlan.kept, List.getElem?_map] at hordinal
    exact hordinal

/-- A table with two package chunks of one id and name, in which each has a dense and a sparse type
chunk, with chunks of an unknown kind in between. -/
def Layout.TablePlan.assorted : Layout.TablePlan :=
  let hello : Layout.TypePlan := {
    id := 1, slots := 2, entries := [{ number := 1, key := 0, body := .simple ⟨3, 0⟩ }] }
  let digits : Layout.TypePlan := {
    id := 2, qualifiers := { size := 36, language := "de", density := 240 }, sparse := true
    slots := 0
    entries := [{ number := 7, key := 1, body := .map 0 [(0, ⟨16, 5⟩), (1, ⟨16, 6⟩)] }] }
  let unknown : Layout.ForeignChunk := { kind := 0x180, headerSize := 8, body := [1, 2, 3] }
  let package : Layout.PackagePlan := {
    id := 127, name := "app ", typeNames := ["string", "array"], keyNames := ["hello", "digits"]
    nested := [.typeSpec 1 2, .foreign unknown, .entries hello, .typeSpec 2 8, .entries digits] }
  { utf8 := true, strings := ["Grüße ", "Hi"], leading := [unknown]
    chunks := [.package package, .foreign unknown, .package package] }

theorem Layout.TablePlan.decode_bytes_assorted :
    Layout.TablePlan.assorted.Storable ∧
      ((Contents.decode ⟨Layout.TablePlan.assorted.bytes.toArray⟩).run .strict).1 =
        .ok Layout.TablePlan.assorted.kept.contents ∧
      ∀ ordinal : Nat, Layout.TablePlan.assorted.kept.contents.strings.get? ordinal =
        Layout.TablePlan.assorted.strings[ordinal]?.map (Layout.keptString true) := by
  have hplan : Layout.TablePlan.assorted.Storable := by decide +kernel
  exact ⟨hplan, Layout.TablePlan.decode_bytes hplan .strict {}⟩

/-- A table with a space before its only string. -/
def Layout.TablePlan.padded : Layout.TablePlan := { strings := [" a"], chunks := [] }

/-- A table with a type chunk whose type no type spec declares. -/
def Layout.TablePlan.undeclared : Layout.TablePlan :=
  let group : Layout.TypePlan := {
    id := 1, slots := 1, entries := [{ number := 0, key := 0, body := .simple ⟨16, 5⟩ }] }
  let package : Layout.PackagePlan := {
    id := 127, name := "app", typeNames := ["id"], keyNames := ["a"], nested := [.entries group] }
  { chunks := [.package package] }

/-- A table with a configuration record that ends inside a group of fields. -/
def Layout.TablePlan.unstaged : Layout.TablePlan :=
  let group : Layout.TypePlan := {
    id := 1, qualifiers := { size := 30 }, slots := 1
    entries := [{ number := 0, key := 0, body := .simple ⟨16, 5⟩ }] }
  let package : Layout.PackagePlan := {
    id := 127, name := "app", typeNames := ["id"], keyNames := ["a"]
    nested := [.typeSpec 1 1, .entries group] }
  { chunks := [.package package] }

/-- Not every table is decoded as the contents of its plan: a pool does not keep a space before a
string, and decoding fails where no type spec declares a type, and where a record ends inside a
group of fields. -/
theorem Layout.TablePlan.decode_bytes_ne_contents :
    let outcome (plan : Layout.TablePlan) :=
      ((Contents.decode ⟨plan.bytes.toArray⟩).run .strict).1
    outcome Layout.TablePlan.padded ≠ .ok Layout.TablePlan.padded.contents ∧
      outcome Layout.TablePlan.undeclared ≠ .ok Layout.TablePlan.undeclared.contents ∧
      outcome Layout.TablePlan.unstaged ≠ .ok Layout.TablePlan.unstaged.contents := by
  intro outcome
  have hfails {plan : Layout.TablePlan} (h : (outcome plan).toOption.isNone = true) :
      outcome plan ≠ .ok plan.contents := by
    intro hok
    rw [hok] at h
    cases h
  refine ⟨?_, hfails (by decide +kernel), hfails (by decide +kernel)⟩
  have hpadded : Layout.TablePlan.padded.Storable := by decide +kernel
  have hkept : outcome Layout.TablePlan.padded = .ok Layout.TablePlan.padded.kept.contents :=
    Contents.yields_decode (Holds.all _) hpadded .strict {}
  intro hok
  rw [hkept] at hok
  have hstrings := congrArg Contents.strings (Except.ok.inj hok)
  exact absurd hstrings (by decide +kernel)

end CompiledResources
