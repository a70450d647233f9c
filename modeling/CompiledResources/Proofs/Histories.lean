import CompiledResources.Proofs.Composition
import CompiledResources.Table.History

/-!
What holds of all contents in all histories. A property that each chunk of a table keeps while it is
decoded, and that merging and emptying keep, holds of the contents of every table at every time.
-/

namespace CompiledResources

open Decoder

/-- What every nested step keeps, a walk keeps. -/
theorem Chunk.ensures_visit {σ : Type} {step : σ → Chunk → Decoder σ} {post : σ → Prop}
    (hstep : ∀ state chunk, post state → Ensures (step state chunk) post) (walk : Chunk.Walk)
    {state : σ} (hstate : post state) : Ensures (walk.visit step state) post := by
  refine .bind (.foldlM hstep walk.chunks hstate) fun final hfinal => ?_
  split
  · exact .throw _
  · exact .pure hfinal

/-- Empty contents have the property, and each chunk of a table, merging and emptying keep it. -/
structure Contents.Lasting (p : Contents → Prop) : Prop where
  start : p {}
  enter : ∀ data state chunk, p state.contents →
    Ensures (OpenTable.enter data state chunk) fun next => p next.contents
  merge : ∀ first second, p first → p second → p (first.merge second)
  empty : ∀ contents position index, p contents → p (contents.emptyVariant position index)

/-- Decoding establishes the property. -/
theorem Contents.Lasting.decode {p : Contents → Prop} (h : Lasting p) (data : ByteArray) :
    Ensures (Contents.decode data) p := by
  have hwalk (walk : Chunk.Walk) :
      Ensures (walk.visit (OpenTable.enter data) {}) fun final => p final.contents :=
    Chunk.ensures_visit (h.enter data) walk h.start
  refine .after fun header => .after fun _ => .ite (.after fun _ => ?_) ?_ <;>
    exact .bind (hwalk _) fun final hfinal => .pure hfinal

theorem Contents.Lasting.clear {p : Contents → Prop} (h : Lasting p) {contents : Contents}
    (hcontents : p contents) (id : Int) (index : Nat) : p (contents.clearVariant id index) := by
  rw [clearVariant_eq]
  split
  next position _ => exact h.empty contents position index hcontents
  next => exact hcontents

/-! ### Tables -/

/-- Bytes that are parsed with success are decoded, into a table that was not ready. -/
theorem Table.exists_of_parse {table next : Table} {data : ByteArray}
    (h : (table.parse data).result = .ok next) :
    table.isReady = false ∧ ∃ contents journal,
      (Contents.decode data).run table.policy = (.ok contents, journal) ∧
        next = { table with contents? := some contents } := by
  unfold parse at h
  split at h
  · cases h
  next hready =>
    cases hrun : (Contents.decode data).run table.policy with
    | mk result journal =>
      cases result with
      | error fault => simp [hrun] at h
      | ok contents =>
        refine ⟨by simpa using hready, contents, journal, rfl, ?_⟩
        simpa [hrun] using h.symm

/-- So are the bytes of a source that is loaded with success. -/
theorem Table.exists_of_load {table next : Table} {source : Source}
    (h : (table.load source).result = .ok next) :
    table.isReady = false ∧ ∃ data contents journal,
      (Contents.decode data).run table.policy = (.ok contents, journal) ∧
        next = { table with contents? := some contents } := by
  cases source with
  | bytes data =>
    obtain ⟨hready, hdecoded⟩ := exists_of_parse h
    exact ⟨hready, data, hdecoded⟩
  | stream stream =>
    simp only [load, parseStream] at h
    split at h
    · cases h
    · split at h
      next data _ =>
        obtain ⟨hready, hdecoded⟩ := exists_of_parse h
        exact ⟨hready, data, hdecoded⟩
      next => cases h
  | file path file =>
    cases file with
    | ok data =>
      obtain ⟨hready, hdecoded⟩ := exists_of_parse h
      exact ⟨hready, data, hdecoded⟩
    | error failure => cases h

/-- Tables that are merged with success have contents. -/
theorem Table.exists_of_merge {table other next : Table} (h : table.merge other = .ok next) :
    ∃ first second, table.contents? = some first ∧ other.contents? = some second ∧
      next = { table with contents? := some (first.merge second) } := by
  cases hfirst : table.contents? with
  | none => simp [merge, hfirst] at h
  | some first =>
    cases hsecond : other.contents? with
    | none => simp [merge, hfirst, hsecond] at h
    | some second => exact ⟨first, second, rfl, rfl, by simpa [merge, hfirst, hsecond] using h.symm⟩

/-- The contents of the table, if it has any, have the property. -/
def Table.Meets (p : Contents → Prop) (table : Table) : Prop :=
  ∀ contents, table.contents? = some contents → p contents

namespace Table

variable {p : Contents → Prop}

theorem meets_empty (policy : Policy) : ({ policy } : Table).Meets p := by
  intro contents hcontents
  cases hcontents

theorem meets_load (h : Contents.Lasting p) {table next : Table} {source : Source}
    (hnext : (table.load source).result = .ok next) : next.Meets p := by
  obtain ⟨-, data, contents, journal, hrun, rfl⟩ := exists_of_load hnext
  intro found hfound
  obtain rfl := Option.some.inj hfound
  exact h.decode data _ _ _ _ hrun

theorem meets_merge (h : Contents.Lasting p) {table other next : Table} (htable : table.Meets p)
    (hother : other.Meets p) (hnext : table.merge other = .ok next) : next.Meets p := by
  obtain ⟨first, second, hfirst, hsecond, rfl⟩ := exists_of_merge hnext
  intro found hfound
  obtain rfl := Option.some.inj hfound
  exact h.merge first second (htable first hfirst) (hother second hsecond)

/-- A change of contents that keeps the property. -/
theorem meets_map {table : Table} (htable : table.Meets p) {change : Contents → Contents}
    (hchange : ∀ contents, p contents → p (change contents)) :
    ({ table with contents? := table.contents?.map change } : Table).Meets p := by
  intro contents hcontents
  obtain ⟨old, hold, rfl⟩ := Option.map_eq_some_iff.mp hcontents
  exact hchange old (htable old hold)

end Table

/-! ### Sessions -/

namespace Session

theorem table_put_self (session : Session) (name : Text) (table : Table) :
    Session.table (session.put name table) name = table := by
  rw [Session.table, OrderedMap.get?_put_self]
  rfl

theorem table_put_of_ne (session : Session) {name other : Text} (hne : other ≠ name)
    (table : Table) : Session.table (session.put name table) other = session.table other := by
  rw [Session.table, OrderedMap.get?_put_of_ne _ hne]
  rfl

/-- The contents of every table of the session have the property. -/
def Meets (p : Contents → Prop) (session : Session) : Prop := ∀ name, (session.table name).Meets p

variable {p : Contents → Prop} {session : Session}

theorem meets_nil : Meets p [] := by
  intro name
  exact Table.meets_empty .strict

theorem meets_put (h : session.Meets p) (name : Text) {table : Table} (htable : table.Meets p) :
    Meets p (session.put name table) := by
  intro other
  by_cases hother : other = name
  · subst hother
    rwa [table_put_self]
  · rw [table_put_of_ne session hother]
    exact h other

/-- What an action makes of a table has the property. -/
theorem meets_next (hp : Contents.Lasting p) (h : session.Meets p) (name : Text) (action : Action)
    {next : Table} (hnext : (session.next name action).result = .ok next) : next.Meets p := by
  cases action with
  | create policy =>
    obtain rfl := Except.ok.inj hnext
    exact Table.meets_empty policy
  | createFrom policy source => exact Table.meets_load hp hnext
  | load source => exact Table.meets_load hp hnext
  | merge other => exact Table.meets_merge hp (h name) (h other) hnext
  | clear id index =>
    obtain rfl := Except.ok.inj hnext
    exact Table.meets_map (h name) fun contents hcontents => hp.clear hcontents id index

theorem meets_perform (hp : Contents.Lasting p) (h : session.Meets p) (name : Text)
    (action : Action) : (session.perform name action).2.Meets p := by
  rw [perform]
  cases hresult : (session.next name action).result with
  | error error => exact h
  | ok table => exact meets_put h name (meets_next hp h name action hresult)

theorem meets_after (hp : Contents.Lasting p) (h : session.Meets p) (name : Text)
    (event : Event) : (session.after name event).Meets p := by
  cases event with
  | action action => exact meets_perform hp h name action
  | empty position index =>
    exact meets_put h name (Table.meets_map (h name) fun contents =>
      hp.empty contents position index)

theorem meets_performAll (hp : Contents.Lasting p) (h : session.Meets p)
    (actions : List (Text × Action)) : (session.performAll actions).Meets p := by
  induction actions generalizing session with
  | nil => exact h
  | cons action rest ih => exact ih (meets_perform hp h action.1 action.2)

/-- The contents of a table, which are empty ones as long as it has none, have the property. -/
theorem contents_of_meets (hp : Contents.Lasting p) (h : session.Meets p) (name : Text) :
    p (session.table name).contents := by
  rw [Table.contents]
  cases hcontents : (session.table name).contents? with
  | none => exact hp.start
  | some contents => exact h name contents hcontents

/-- In no history do contents come about without the property. -/
theorem meets_afterAll (hp : Contents.Lasting p) (h : session.Meets p)
    (events : List (Text × Event)) : (session.afterAll events).Meets p := by
  induction events generalizing session with
  | nil => exact h
  | cons event rest ih => exact ih (meets_after hp h event.1 event.2)

end Session
end CompiledResources
