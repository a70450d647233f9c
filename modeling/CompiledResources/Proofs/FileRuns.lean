import CompiledResources.CommandLine

/-!
Runs on the files of a machine. A path is resolved into names that are neither empty nor `.` or
`..`, and these names are what is followed from the root of the files. A run gives an answer exactly
when its query has one and the names of its path lead to a file that is decoded.
-/

namespace CompiledResources

namespace Path

/-! ### Components of a path -/

theorem components_of_not_mem {part : List UInt16} (h : separator ∉ part) :
    components part = [part] := by
  induction part with
  | nil => rfl
  | cons u rest ih =>
    have hu : u ≠ separator := Ne.symm (List.ne_of_not_mem_cons h)
    rw [components, if_neg hu, ih (List.not_mem_of_not_mem_cons h)]

theorem components_append {part : List UInt16} (h : separator ∉ part) (rest : List UInt16) :
    components (part ++ separator :: rest) = part :: components rest := by
  induction part with
  | nil => rfl
  | cons u part ih =>
    have hu : u ≠ separator := Ne.symm (List.ne_of_not_mem_cons h)
    rw [List.cons_append, components, if_neg hu, ih (List.not_mem_of_not_mem_cons h)]

theorem not_mem_of_mem_components {units part : List UInt16} (h : part ∈ components units) :
    separator ∉ part := by
  induction units generalizing part with
  | nil =>
    obtain rfl := List.mem_singleton.mp h
    exact List.not_mem_nil
  | cons u rest ih =>
    rw [components] at h
    by_cases hu : u = separator
    · rw [if_pos hu] at h
      rcases List.mem_cons.mp h with rfl | hrest
      · exact List.not_mem_nil
      · exact ih hrest
    · rw [if_neg hu] at h
      cases hparts : components rest with
      | nil =>
        rw [hparts] at h
        obtain rfl := List.mem_singleton.mp h
        exact fun hmem => hu (List.mem_singleton.mp hmem).symm
      | cons first others =>
        rw [hparts] at h ih
        rcases List.mem_cons.mp h with rfl | hothers
        · exact List.not_mem_cons_of_ne_of_not_mem (Ne.symm hu) (ih List.mem_cons_self)
        · exact ih (List.mem_cons_of_mem first hothers)

/-- Joining names and taking the components again gives the names. -/
theorem components_join {names : List Text} (hne : names ≠ [])
    (h : ∀ name ∈ names, separator ∉ name.units) :
    components (Text.join "/" names).units = names.map Text.units := by
  induction names with
  | nil => exact absurd rfl hne
  | cons name rest ih =>
    obtain ⟨hname, hrest⟩ := List.forall_mem_cons.mp h
    cases rest with
    | nil => exact components_of_not_mem hname
    | cons second others =>
      have hjoin : (Text.join "/" (name :: second :: others)).units =
          name.units ++ separator :: (Text.join "/" (second :: others)).units := by
        rw [Text.join, Text.units_append, Text.units_append, List.append_assoc]
        · rfl
        · simp
      rw [hjoin, components_append hname, ih (List.cons_ne_nil _ _) hrest]
      rfl

/-! ### Resolved paths -/

/-- The names on the way from the root to a path in a directory. -/
def names (directory path : Text) : List Text :=
  let whole := if path.units.head? = some separator then path else directory ++ "/" ++ path
  follow [] ((components whole.units).map Text.mk)

theorem resolve_eq (directory path : Text) :
    resolve directory path = "/" ++ Text.join "/" (names directory path) := rfl

/-- A text that leads from a directory to something in it. -/
structure IsName (name : Text) : Prop where
  plain : separator ∉ name.units
  ne_empty : name ≠ .empty
  ne_here : name ≠ "."
  ne_above : name ≠ ".."

theorem isName_of_mem_follow {parts above : List Text} (habove : ∀ name ∈ above, IsName name)
    (hparts : ∀ part ∈ parts, separator ∉ part.units) :
    ∀ name ∈ follow above parts, IsName name := by
  induction parts generalizing above with
  | nil => exact fun name hname => habove name (List.mem_reverse.mp hname)
  | cons part rest ih =>
    obtain ⟨hpart, hrest⟩ := List.forall_mem_cons.mp hparts
    rw [follow]
    split
    next => exact ih habove hrest
    next hstays =>
      obtain ⟨hempty, hhere⟩ := not_or.mp hstays
      split
      next => exact ih (fun name hname => habove name (List.mem_of_mem_tail hname)) hrest
      next hup =>
        exact ih (List.forall_mem_cons.mpr ⟨⟨hpart, hempty, hhere, hup⟩, habove⟩) hrest

theorem isName_of_mem_names {directory path name : Text} (h : name ∈ names directory path) :
    IsName name := by
  refine isName_of_mem_follow (List.forall_mem_nil IsName) (fun part hpart => ?_) name h
  obtain ⟨units, hunits, rfl⟩ := List.mem_map.mp hpart
  exact not_mem_of_mem_components hunits

end Path

/-- Reading at a resolved path is following its names. -/
theorem FileTree.read_resolve (files : FileTree) (directory path : Text) :
    files.read (Path.resolve directory path) =
      if pathLimit ≤ byteLength (Path.resolve directory path) then .error .nameTooLong
      else files.contentAt (Path.names directory path) := by
  have hname (name : Text) (h : name ∈ Path.names directory path) : Path.IsName name :=
    Path.isName_of_mem_names h
  have hunits : (Path.resolve directory path).units =
      Path.separator :: (Text.join "/" (Path.names directory path)).units :=
    congrArg Text.units (Path.resolve_eq directory path)
  have hne : Path.resolve directory path ≠ .empty := by
    intro hempty
    rw [hempty] at hunits
    cases hunits
  have hkept : ((Path.components (Path.resolve directory path).units).map Text.mk).filter
      (fun name => name ≠ Text.empty ∧ name ≠ ("." : Text)) = Path.names directory path := by
    rw [hunits, Path.components, if_pos rfl, List.map_cons, List.filter_cons_of_neg (by decide)]
    cases hnames : Path.names directory path with
    | nil => decide
    | cons first rest =>
      rw [hnames] at hname
      have htexts : ((first :: rest).map Text.units).map Text.mk = first :: rest := by
        rw [List.map_map]
        exact List.map_id _
      rw [Path.components_join (List.cons_ne_nil first rest) fun name h => (hname name h).plain,
        htexts]
      exact List.filter_eq_self.mpr fun name h =>
        decide_eq_true ⟨(hname name h).ne_empty, (hname name h).ne_here⟩
  rw [read, if_neg hne]
  simp only [hkept]

namespace CommandLine

/-- The exit code of an answer is not that of a failure. -/
theorem Query.exit_answer_ne_one (contents : Contents) (query : Query) :
    (query.answer contents).2 ≠ 1 := by
  cases query with
  | dump => exact Nat.zero_ne_one
  | find text =>
    rw [answer]
    split <;> simp
  | string name =>
    rw [answer]
    split <;> simp
  | type name => exact Nat.zero_ne_one

namespace Invocation

/-- A run reports on what the files hold at its path. -/
theorem runIn_eq (files : FileTree) (directory : Text) (invocation : Invocation) :
    invocation.runIn files directory =
      invocation.report (Path.resolve directory invocation.file)
        (files.read (Path.resolve directory invocation.file)) := by
  cases hobjection : invocation.query.objection? with
  | none =>
    rw [runIn, run, hobjection]
    rfl
  | some message =>
    rw [runIn, run, hobjection]
    simp only [report, hobjection]
    rfl

/-- How the bytes of the file are decoded. -/
def policy (invocation : Invocation) : Policy :=
  if invocation.lenient then .lenient else .strict

/-- A report has an answer exactly when the query has one and the bytes of the file are decoded. -/
theorem exit_report (invocation : Invocation) (path : Text)
    (file : Except FileFailure ByteArray) :
    (invocation.report path file).exit ≠ 1 ↔
      invocation.query.objection? = none ∧ ∃ data contents, file = .ok data ∧
        ((Contents.decode data).run invocation.policy).1 = .ok contents := by
  cases hobjection : invocation.query.objection? with
  | some message => simp [report, hobjection, failure]
  | none =>
    cases file with
    | error cause => simp [report, hobjection, Table.parseFile, failure]
    | ok data =>
      rw [report, hobjection]
      dsimp only
      rw [← policy]
      cases hdecode : ((Contents.decode data).run invocation.policy).1 with
      | error fault =>
        have hresult : (Table.parseFile { policy := invocation.policy } path (.ok data)).result =
            .error (.fault fault) := by
          simp [Table.parseFile, Table.parse, Table.isReady, hdecode]
        simp [hresult, failure, hdecode]
      | ok contents =>
        have hresult : (Table.parseFile { policy := invocation.policy } path (.ok data)).result =
            .ok ⟨invocation.policy, some contents⟩ := by
          simp [Table.parseFile, Table.parse, Table.isReady, hdecode]
        simpa [hresult, hdecode, Table.contents] using invocation.query.exit_answer_ne_one contents

/-- A run has an answer exactly when its query has one, the path of its file is not too long, and the
names of the path lead to a file that is decoded. -/
theorem exit_runIn (files : FileTree) (directory : Text) (invocation : Invocation) :
    (invocation.runIn files directory).exit ≠ 1 ↔
      invocation.query.objection? = none ∧
      FileTree.byteLength (Path.resolve directory invocation.file) < FileTree.pathLimit ∧
      ∃ data contents,
        files.follow (Path.names directory invocation.file) = .ok (.file data) ∧
        ((Contents.decode data).run invocation.policy).1 = .ok contents := by
  rw [runIn_eq, exit_report, FileTree.read_resolve]
  refine and_congr_right fun _ => ?_
  by_cases hlong :
      FileTree.pathLimit ≤ FileTree.byteLength (Path.resolve directory invocation.file)
  · simp [hlong, Nat.not_lt.mpr hlong]
  · simp only [if_neg hlong, FileTree.contentAt_eq_ok_iff, Nat.not_le.mp hlong, true_and]

end Invocation
end CommandLine
end CompiledResources
