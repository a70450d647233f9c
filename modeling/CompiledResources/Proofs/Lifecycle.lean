import Mathlib
import CompiledResources.Proofs.DistinctKeys
import CompiledResources.Table.Object

/-!
The life of a table object. Step by step, an operation on objects comes to what the action of the
session makes of the table: a table is building only within an operation, and one that fails puts
all back. So what holds of tables between actions holds of the objects between calls.
-/

namespace CompiledResources

/-! ### Changes of a world -/

namespace World

variable (world : World) (name : Text) (f g : TableObject → TableObject)

theorem change_change :
    (world.change name f).change name g = world.change name fun object => g (f object) := by
  simp only [change, ↓reduceIte, mk.injEq, and_true]
  funext other
  split <;> rfl

theorem change_log (notices : List Notice) :
    (world.change name f).log name notices = (world.log name notices).change name f := rfl

variable {world name f g}

@[simp] theorem objects_change_self : (world.change name f).objects name = f (world.objects name) :=
  if_pos rfl

theorem change_congr (h : f (world.objects name) = g (world.objects name)) :
    world.change name f = world.change name g := by
  simp only [change, h]

/-- A change that leaves the object as it is changes nothing. -/
theorem change_eq_self (h : f (world.objects name) = world.objects name) :
    world.change name f = world := by
  have hobjects : (world.change name f).objects = world.objects := by
    funext other
    simp only [change, h]
    split
    next hother => rw [hother]
    next => rfl
  cases world
  exact congrArg (World.mk · _) hobjects

@[simp] theorem log_nil : world.log name [] = world := by
  have hlogs : (world.log name []).logs = world.logs := by
    funext other
    simp only [log, List.append_nil]
    split
    next hother => rw [hother]
    next => rfl
  cases world
  exact congrArg (World.mk _) hlogs

end World

/-! ### Steps of an operation -/

namespace Operation

variable {α β : Type} (world : World) (name : Text)

@[simp] theorem perform_pure (a : α) : perform (pure a) world = (.ok a, world) := rfl

@[simp] theorem perform_throw (error : TableError) :
    perform (throw error : Operation α) world = (.error error, world) := rfl

theorem perform_bind (first : Operation α) (next : α → Operation β) :
    perform (first >>= next) world =
      match perform first world with
      | (.ok a, after) => perform (next a) after
      | (.error error, after) => (.error error, after) := by
  simp only [perform, ExceptT.run_bind, StateT.run_bind]
  cases first.run.run world with
  | mk result after =>
    cases result with
    | ok a => rfl
    | error error => rfl

/-- An error is handled in the world that it leaves. -/
theorem perform_tryCatch (operation : Operation α) (handler : TableError → Operation α) :
    perform (tryCatch operation handler) world =
      match perform operation world with
      | (.ok a, after) => (.ok a, after)
      | (.error error, after) => perform (handler error) after := by
  simp only [perform, ExceptT.run_tryCatch, StateT.run_bind]
  cases operation.run.run world with
  | mk result after =>
    cases result with
    | ok a => rfl
    | error error => rfl

@[simp] theorem perform_object : perform (object name) world = (.ok (world.objects name), world) :=
  rfl

@[simp] theorem perform_change (f : TableObject → TableObject) :
    perform (change name f) world = (.ok (), world.change name f) := rfl

/-- Changes made for one item after another are one change. -/
theorem perform_forM_change (f : α → TableObject → TableObject) (items : List α) :
    perform (items.forM fun item => change name (f item)) world =
      (.ok (), world.change name fun object =>
        items.foldl (fun object item => f item object) object) := by
  induction items generalizing world with
  | nil =>
    have hsame : (world.change name fun object => object) = world := World.change_eq_self rfl
    exact congrArg (Prod.mk _) hsame.symm
  | cons item rest ih =>
    have hfirst : (item :: rest).forM (fun item => change name (f item)) =
        (change name (f item) >>= fun _ => rest.forM fun item => change name (f item)) := rfl
    rw [hfirst, perform_bind, perform_change]
    simp only [ih, World.change_change, List.foldl_cons]

end Operation

/-! ### What an operation comes to -/

/-- The world in which a table has become what an outcome says, with its notices logged. -/
def World.conclude (world : World) (name : Text) (outcome : Outcome Table) :
    Except TableError Unit × World :=
  (outcome.result.map fun _ => (),
    (match outcome.result with
      | .ok table => world.change name fun _ => table.object
      | .error _ => world).log name outcome.notices)

/-- A failure without notices changes nothing. -/
theorem World.conclude_error (world : World) (name : Text) (error : TableError) :
    world.conclude name { result := .error error } = (.error error, world) :=
  congrArg (Prod.mk _) log_nil

theorem World.logs_conclude (world : World) (name : Text) (outcome : Outcome Table) :
    (world.conclude name outcome).2.logs name = world.logs name ++ outcome.notices := by
  rw [conclude]
  cases outcome.result with
  | ok table => exact if_pos rfl
  | error error => exact if_pos rfl

theorem World.objects_conclude (world : World) (name : Text) (outcome : Outcome Table) :
    (world.conclude name outcome).2.objects name =
      match outcome.result with
      | .ok table => table.object
      | .error _ => world.objects name := by
  rw [conclude]
  cases outcome.result with
  | ok table => exact if_pos rfl
  | error error => rfl

/-- Pairs of distinct keys, set one after another, are the map that they came from. -/
theorem Contents.putAll_strings {data : ByteArray} {policy : Policy} {journal : Journal}
    {contents : Contents} (h : (Contents.decode data).run policy {} = (.ok contents, journal)) :
    OrderedMap.putAll [] contents.strings = contents.strings :=
  have hkeys : contents.DistinctKeys :=
    Contents.lasting_distinctKeys.decode data _ _ _ _ h
  OrderedMap.putAll_of_nodup hkeys.strings

/-- What parsing bytes gives is what decoding them gives. -/
theorem Table.parse_of_run {table : Table} {data : ByteArray} {result : Except Fault Contents}
    {journal : Journal} (hready : table.isReady = false)
    (hrun : (Contents.decode data).run table.policy {} = (result, journal)) :
    table.parse data =
      { result := (result.map fun contents => { table with contents? := some contents }).mapError
          .fault
        notices := journal.notices.toList } := by
  rw [parse, if_neg (by simp [hready])]
  simp only [hrun]
  cases result <;> rfl

/-- Only ready tables are merged. -/
theorem Table.merge_of_not_ready {table other : Table}
    (h : ¬ (table.isReady = true ∧ other.isReady = true)) :
    table.merge other = .error .notParsed := by
  unfold merge
  split
  next first second hfirst hsecond =>
    exact absurd ⟨by rw [isReady, hfirst]; rfl, by rw [isReady, hsecond]; rfl⟩ h
  next => rfl

namespace Operation

variable {world : World} {name other : Text} {table second : Table}

theorem stage_object_eq_ready : table.object.stage = .ready ↔ table.isReady = true := by
  cases h : table.isReady <;> simp [Table.object, h]

theorem perform_requireEmpty (h : world.objects name = table.object) :
    perform (requireEmpty name) world =
      (if table.isReady then .error (.notEmpty .ready) else .ok (), world) := by
  rw [requireEmpty, perform_bind, perform_object]
  cases hready : table.isReady with
  | true => simp [h, Table.object, hready]
  | false => simp [h, Table.object, hready]

theorem perform_decode {policy : Policy} {data : ByteArray} {result : Except Fault Contents}
    {journal : Journal} (hpolicy : (world.objects name).policy = policy)
    (h : (Contents.decode data).run policy {} = (result, journal)) :
    perform (decode name data) world =
      (result.mapError .fault, world.log name journal.notices.toList) := by
  rw [decode, perform_bind, perform_object]
  simp only [hpolicy, h]
  cases result with
  | ok contents => rfl
  | error fault => rfl

/-- Setting strings one after another is setting them all. -/
theorem perform_forM_setString (world : World) (name : Text) (strings : OrderedMap Int Text) :
    perform (strings.forM (setString name)) world =
      (.ok (), world.change name fun object =>
        { object with strings := object.strings.putAll strings }) := by
  refine (perform_forM_change world name _ strings).trans (congrArg (Prod.mk _) ?_)
  refine World.change_congr (List.foldl_hom (fun map : OrderedMap Int Text =>
    ({ world.objects name with strings := map } : TableObject)) ?_)
  intro map pair
  rfl

/-- Merging packages one after another is merging them all. -/
theorem perform_forM_mergePackage (world : World) (name : Text) (packages : List Package) :
    perform (packages.forM (mergePackage name)) world =
      (.ok (), world.change name fun object =>
        { object with packages := Package.mergeAll object.packages packages }) := by
  refine (perform_forM_change world name _ packages).trans (congrArg (Prod.mk _) ?_)
  refine World.change_congr (List.foldl_hom (fun merged : List Package =>
    ({ world.objects name with packages := merged } : TableObject)) ?_)
  intro merged package
  rfl

/-- Parsing step by step comes to what parsing at once makes of the table. -/
theorem perform_parse (h : world.objects name = table.object) (data : ByteArray) :
    perform (parse name data) world = world.conclude name (table.parse data) := by
  rw [parse, perform_bind, perform_requireEmpty h]
  cases hready : table.isReady with
  | true => rw [Table.parse, if_pos hready, World.conclude_error, if_pos rfl]
  | false =>
    have hempty : table.contents? = none := by simpa [Table.isReady] using hready
    have hpolicy : ((world.change name fun object =>
        { object with stage := .building }).objects name).policy = table.policy := by
      rw [World.objects_change_self, h]
      rfl
    simp only [Bool.false_eq_true, ↓reduceIte, setStage, perform_bind, perform_change,
      perform_tryCatch]
    cases hrun : (Contents.decode data).run table.policy {} with
    | mk result journal =>
      simp only [perform_decode hpolicy hrun, Table.parse_of_run hready hrun, World.conclude]
      cases result with
      | error fault =>
        simp only [Except.mapError, Except.map, perform_throw, World.change_log,
          World.change_change]
        -- The stage is set back, and nothing else was changed.
        refine congrArg (Prod.mk _) (World.change_eq_self ?_)
        change ({ world.objects name with stage := .empty } : TableObject) = world.objects name
        rw [h]
        simp [Table.object, hready]
      | ok contents =>
        simp only [Except.mapError, Except.map, addPackages, perform_change,
          perform_forM_setString, World.change_log, World.change_change]
        refine congrArg (Prod.mk _) (World.change_congr ?_)
        have hbefore : (world.log name journal.notices.toList).objects name = table.object := h
        rw [hbefore]
        simp [Table.object, Table.isReady, Table.contents, hempty, Contents.putAll_strings hrun]

theorem perform_parseStream (h : world.objects name = table.object) (stream : ByteStream) :
    perform (parseStream name stream) world = world.conclude name (table.parseStream stream) := by
  rw [parseStream, perform_bind, perform_requireEmpty h, Table.parseStream]
  cases hready : table.isReady with
  | true => rw [if_pos rfl, if_pos rfl, World.conclude_error]
  | false =>
    rw [if_neg Bool.false_ne_true, if_neg Bool.false_ne_true]
    cases stream.gather with
    | ok data => exact perform_parse h data
    | error error => exact (World.conclude_error world name error).symm

theorem perform_load (h : world.objects name = table.object) (source : Source) :
    perform (load name source) world = world.conclude name (table.load source) := by
  cases source with
  | bytes data => exact perform_parse h data
  | stream stream => exact perform_parseStream h stream
  | file path file =>
    cases file with
    | ok data => exact perform_parse h data
    | error failure => exact (World.conclude_error world name _).symm

/-- Merging step by step comes to what merging at once makes of the table. -/
theorem perform_mergeTable (h : world.objects name = table.object)
    (hother : world.objects other = second.object) :
    perform (merge name other) world = world.conclude name { result := table.merge second } := by
  simp only [merge, perform_bind, perform_object, h, hother, stage_object_eq_ready, ne_eq]
  by_cases hready : table.isReady = true ∧ second.isReady = true
  · obtain ⟨first, hfirst⟩ := Option.isSome_iff_exists.mp hready.1
    obtain ⟨contents, hsecond⟩ := Option.isSome_iff_exists.mp hready.2
    have hmerge : table.merge second =
        .ok { table with contents? := some (first.merge contents) } := by
      simp [Table.merge, hfirst, hsecond]
    simp only [hready.1, hready.2, not_true_eq_false, or_self, ↓reduceIte, perform_bind,
      perform_forM_mergePackage, perform_forM_setString, World.change_change, hmerge,
      World.conclude, Except.map, World.log_nil]
    refine congrArg (Prod.mk _) (World.change_congr ?_)
    rw [h]
    simp [Table.object, Table.isReady, Table.contents, hfirst, hsecond, Contents.merge]
  · rw [if_pos (Decidable.not_and_iff_not_or_not.mp hready), perform_bind, perform_throw,
      Table.merge_of_not_ready hready, World.conclude_error]

end Operation

/-! ### Calls and actions -/

namespace World

variable {world : World} {session : Session}

theorem call_eq (h : world.objects = session.objects) (name : Text) (call : Call) :
    world.call name call = world.conclude name (session.next name call.action) := by
  have hobject (name : Text) : world.objects name = (session.table name).object := congrFun h name
  cases call with
  | load source => exact Operation.perform_load (hobject name) source
  | merge other => exact Operation.perform_mergeTable (hobject name) (hobject other)

/-- A call has the result of its action. -/
theorem result_call (h : world.objects = session.objects) (name : Text) (call : Call) :
    (world.call name call).1 = (session.perform name call.action).1.result := by
  rw [call_eq h, conclude, Session.perform]
  cases (session.next name call.action).result <;> rfl

/-- A call leaves the tables of its action. -/
theorem objects_call (h : world.objects = session.objects) (name : Text) (call : Call) :
    (world.call name call).2.objects = (session.perform name call.action).2.objects := by
  rw [call_eq h, conclude, Session.perform]
  cases (session.next name call.action).result with
  | error error => exact h
  | ok table =>
    funext other
    simp only [log, change, Session.objects]
    by_cases hother : other = name
    · subst hother
      rw [if_pos rfl, Session.table_put_self]
    · rw [if_neg hother, Session.table_put_of_ne session hother, h, Session.objects]

/-- A call logs the notices of its action. -/
theorem logs_call (h : world.objects = session.objects) (name : Text) (call : Call) :
    (world.call name call).2.logs name =
      world.logs name ++ (session.perform name call.action).1.notices := by
  rw [call_eq h, logs_conclude, Session.perform]
  cases (session.next name call.action).result <;> rfl

theorem objects_callAll (h : world.objects = session.objects) (calls : List (Text × Call)) :
    (world.callAll calls).objects =
      (session.performAll (calls.map fun call => (call.1, call.2.action))).objects := by
  induction calls generalizing world session with
  | nil => exact h
  | cons call rest ih => exact ih (objects_call h call.1 call.2)

end World

/-! ### What a call can do -/

namespace Session

variable (session : Session)

/-- A call fails and changes nothing, or it makes its table ready, if it loads, or finds it ready,
if it merges. -/
theorem perform_call_cases (name : Text) (call : Call) :
    let after := session.perform name call.action
    (∃ error, after.1.result = .error error ∧ after.2 = session) ∨
      ∃ next, after.1.result = .ok () ∧ after.2 = session.put name next ∧
        (session.table name).isReady = !call.isLoad ∧ next.isReady = true ∧
          next.policy = (session.table name).policy := by
  intro after
  have hafter : after = session.perform name call.action := rfl
  rw [perform] at hafter
  cases hresult : (session.next name call.action).result with
  | error error =>
    rw [hresult] at hafter
    exact .inl ⟨error, by rw [hafter], by rw [hafter]⟩
  | ok next =>
    rw [hresult] at hafter
    refine .inr ⟨next, by rw [hafter], by rw [hafter], ?_⟩
    cases call with
    | load source =>
      obtain ⟨hready, _, _, _, _, rfl⟩ := Table.exists_of_load hresult
      exact ⟨hready, rfl, rfl⟩
    | merge other =>
      obtain ⟨first, _, hfirst, _, rfl⟩ := Table.exists_of_merge hresult
      exact ⟨by rw [Table.isReady, hfirst]; rfl, rfl, rfl⟩

/-- No call changes the policy of a table. -/
theorem policy_perform (target name : Text) (call : Call) :
    ((session.perform target call.action).2.table name).policy = (session.table name).policy := by
  rcases session.perform_call_cases target call with ⟨_, -, h⟩ | ⟨next, -, h, -, -, hpolicy⟩
  · rw [h]
  · rw [h]
    by_cases hname : name = target
    · subst hname
      rw [table_put_self, hpolicy]
    · rw [table_put_of_ne session hname]

theorem policy_performAll (name : Text) (calls : List (Text × Call)) :
    ((session.performAll (calls.map fun call => (call.1, call.2.action))).table name).policy =
      (session.table name).policy := by
  induction calls generalizing session with
  | nil => rfl
  | cons call rest ih => exact (ih _).trans (session.policy_perform call.1 name call.2)

/-- No new table is ready. -/
theorem isReady_created (tables : List (Text × Policy)) (name : Text) :
    ((created tables).table name).isReady = false := by
  suffices hall : ∀ session : Session, (∀ name, (session.table name).isReady = false) →
      ∀ name, ((session.performAll (tables.map fun table =>
        (table.1, .create table.2))).table name).isReady = false from hall [] (fun _ => rfl) name
  induction tables with
  | nil => exact fun session h => h
  | cons table rest ih =>
    intro session h
    refine ih (session.put table.1 { policy := table.2 }) fun name => ?_
    by_cases hname : name = table.1
    · rw [hname, table_put_self]
      rfl
    · rw [table_put_of_ne session hname, h name]

end Session

namespace World

theorem loads_cons (world : World) (name target : Text) (call : Call) (rest : List (Text × Call)) :
    world.loads name ((target, call) :: rest) =
      (if target = name ∧ call.isLoad ∧ (world.call target call).1.isOk then 1 else 0) +
        (world.call target call).2.loads name rest := rfl

/-- Successful loads take a table from empty to ready, and nothing takes it back. -/
theorem loads_add {world : World} {session : Session} (h : world.objects = session.objects)
    (name : Text) (calls : List (Text × Call)) :
    world.loads name calls + (session.table name).isReady.toNat =
      ((session.performAll (calls.map fun call => (call.1, call.2.action))).table
        name).isReady.toNat := by
  induction calls generalizing world session with
  | nil => exact Nat.zero_add _
  | cons call rest ih =>
    obtain ⟨target, call⟩ := call
    have hrest := ih (objects_call h target call)
    have hgained :
        (if target = name ∧ call.isLoad ∧ (world.call target call).1.isOk then 1 else 0) +
            (session.table name).isReady.toNat =
          ((session.perform target call.action).2.table name).isReady.toNat := by
      rw [result_call h]
      rcases session.perform_call_cases target call with
        ⟨error, hresult, hafter⟩ | ⟨next, hresult, hafter, hready, hnext, -⟩
      · simp [hresult, hafter, Except.isOk, Except.toBool]
      · rw [hresult, hafter]
        by_cases hname : target = name
        · subst hname
          rw [Session.table_put_self, hready, hnext]
          cases call.isLoad <;> simp [Except.isOk, Except.toBool]
        · rw [Session.table_put_of_ne session (Ne.symm hname)]
          simp [hname]
    rw [loads_cons, Nat.add_right_comm, hgained, Nat.add_comm]
    exact hrest

variable {world : World} {session : Session}

theorem stage_objects (h : world.objects = session.objects) (name : Text) :
    (world.objects name).stage = .ready ↔ (session.table name).isReady = true := by
  rw [h]
  exact Operation.stage_object_eq_ready

/-- A call that fails changes no table. -/
theorem objects_call_of_error (h : world.objects = session.objects) {name : Text} {call : Call}
    {error : TableError} (herror : (world.call name call).1 = .error error) :
    (world.call name call).2.objects = world.objects := by
  rw [result_call h] at herror
  rw [objects_call h, h]
  rcases session.perform_call_cases name call with ⟨_, -, hafter⟩ | ⟨_, hresult, -⟩
  · rw [hafter]
  · rw [hresult] at herror
    cases herror

/-- Merging fails exactly when one of the tables is not ready. -/
theorem result_call_merge (h : world.objects = session.objects) (name other : Text) :
    (world.call name (.merge other)).1 =
      if (world.objects name).stage = .ready ∧ (world.objects other).stage = .ready then .ok ()
      else .error .notParsed := by
  simp only [call_eq h, conclude, stage_objects h, Session.next, Call.action]
  split
  next hready =>
    obtain ⟨first, hfirst⟩ := Option.isSome_iff_exists.mp hready.1
    obtain ⟨second, hsecond⟩ := Option.isSome_iff_exists.mp hready.2
    simp only [Table.merge, hfirst, hsecond]
    rfl
  next hnot =>
    rw [Table.merge_of_not_ready hnot]
    rfl

/-- A ready table is not loaded. -/
theorem result_call_load_of_ready (h : world.objects = session.objects) {name : Text}
    (hready : (world.objects name).stage = .ready) (source : Source) :
    ∃ error, (world.call name (.load source)).1 = .error error := by
  rw [result_call h]
  rcases session.perform_call_cases name (.load source) with
    ⟨error, hresult, -⟩ | ⟨_, -, -, hbefore, -⟩
  · exact ⟨error, hresult⟩
  · rw [(stage_objects h name).mp hready] at hbefore
    cases hbefore

/-- Only merging into it changes a ready table. -/
theorem merge_of_objects_call_ne (h : world.objects = session.objects) {name target : Text}
    {call : Call} (hready : (world.objects name).stage = .ready)
    (hne : (world.call target call).2.objects name ≠ world.objects name) :
    (world.call target call).1 = .ok () ∧ target = name ∧ ∃ other, call = .merge other := by
  rw [objects_call h, h] at hne
  rw [result_call h]
  rcases session.perform_call_cases target call with
    ⟨_, -, hafter⟩ | ⟨next, hresult, hafter, hbefore, -⟩
  · rw [hafter] at hne
    exact absurd rfl hne
  · by_cases htarget : name = target
    · subst htarget
      refine ⟨hresult, rfl, ?_⟩
      cases call with
      | load source =>
        rw [(stage_objects h name).mp hready] at hbefore
        cases hbefore
      | merge other => exact ⟨other, rfl⟩
    · rw [hafter] at hne
      exact absurd (congrArg Table.object (Session.table_put_of_ne session htarget next)) hne

/-- What a load comes to depends only on the table, not on what else there is. -/
theorem call_load_congr {fresh : World} {session' : Session} (h : world.objects = session.objects)
    (hfresh : fresh.objects = session'.objects) {name : Text}
    (htable : session.table name = session'.table name) (source : Source) :
    (world.call name (.load source)).1 = (fresh.call name (.load source)).1 ∧
      (world.call name (.load source)).2.objects name =
        (fresh.call name (.load source)).2.objects name ∧
      ∃ notices, (world.call name (.load source)).2.logs name = world.logs name ++ notices ∧
        (fresh.call name (.load source)).2.logs name = fresh.logs name ++ notices := by
  have hnext : session.next name (.load source) = session'.next name (.load source) :=
    congrArg (·.load source) htable
  have hobject : world.objects name = fresh.objects name := by
    rw [h, hfresh]
    exact congrArg Table.object htable
  rw [call_eq h, call_eq hfresh, Call.action, hnext, objects_conclude, objects_conclude, hobject]
  exact ⟨rfl, rfl, _, logs_conclude _ _ _, logs_conclude _ _ _⟩

end World

/-- Between calls a table is ready, or it is empty and there is nothing in it. -/
def TableObject.Settled (object : TableObject) : Prop :=
  (object.stage = .empty ∧ object.packages = [] ∧ object.strings = []) ∨ object.stage = .ready

theorem Table.settled_object (table : Table) : table.object.Settled := by
  cases hcontents : table.contents? with
  | none => exact .inl (by simp [object, isReady, contents, hcontents])
  | some contents => exact .inr (by simp [object, isReady, hcontents])

/-- Tables of the same policy that are not ready are the same. -/
theorem Table.ext_of_not_ready {first second : Table} (hfirst : first.isReady = false)
    (hsecond : second.isReady = false) (hpolicy : first.policy = second.policy) :
    first = second := by
  cases first with
  | mk policy contents =>
    cases second with
    | mk policy' contents' =>
      obtain rfl : contents = none := by simpa [isReady] using hfirst
      obtain rfl : contents' = none := by simpa [isReady] using hsecond
      obtain rfl : policy = policy' := hpolicy
      rfl

/-- The life of tables under any calls on them. The objects are the tables of the session under the
same actions, with the same results and notices. Each is empty, with nothing in it, or ready, and
ready exactly when it has been loaded with success once. A call that fails leaves all objects as
they were. Merging fails exactly when one of the two tables is not ready. A ready table is never
loaded again, and nothing but merging into it changes it. To load a table that is not ready,
whatever was tried before, has the result, leaves the table and logs the notices that it would on a
new one. -/
theorem World.lifecycle_callAll (tables : List (Text × Policy)) (calls : List (Text × Call)) :
    let start := created tables
    let world := start.callAll calls
    let session := (Session.created tables).performAll
      (calls.map fun call => (call.1, call.2.action))
    world.objects = session.objects ∧
      (∀ name call, (world.call name call).1 = (session.perform name call.action).1.result ∧
        (world.call name call).2.logs name =
          world.logs name ++ (session.perform name call.action).1.notices) ∧
      (∀ name, (world.objects name).Settled) ∧
      (∀ name, start.loads name calls = if (world.objects name).stage = .ready then 1 else 0) ∧
      (∀ name call error, (world.call name call).1 = .error error →
        (world.call name call).2.objects = world.objects) ∧
      (∀ name other, (world.call name (.merge other)).1 =
        if (world.objects name).stage = .ready ∧ (world.objects other).stage = .ready then .ok ()
        else .error .notParsed) ∧
      (∀ name, (world.objects name).stage = .ready →
        (∀ source, ∃ error, (world.call name (.load source)).1 = .error error) ∧
          ∀ target call, (world.call target call).2.objects name ≠ world.objects name →
            (world.call target call).1 = .ok () ∧ target = name ∧
              ∃ other, call = .merge other) ∧
      ∀ name source, (world.objects name).stage ≠ .ready →
        let again := world.call name (.load source)
        let fresh := start.call name (.load source)
        again.1 = fresh.1 ∧ again.2.objects name = fresh.2.objects name ∧
          again.2.logs name = world.logs name ++ fresh.2.logs name := by
  intro start world session
  have hstart : start.objects = (Session.created tables).objects := rfl
  have hworld : world.objects = session.objects := objects_callAll hstart calls
  have hsame (name : Text) (call : Call) := And.intro (result_call hworld name call)
    (logs_call hworld name call)
  refine ⟨hworld, hsame, fun name => ?_, fun name => ?_,
    fun _ _ _ => objects_call_of_error hworld, result_call_merge hworld,
    fun name hready => ⟨result_call_load_of_ready hworld hready,
      fun _ _ => merge_of_objects_call_ne hworld hready⟩, fun name source hnot => ?_⟩
  · rw [hworld]
    exact (session.table name).settled_object
  · have hloads := loads_add hstart name calls
    rw [Session.isReady_created, Bool.toNat_false, Nat.add_zero] at hloads
    simp only [hloads, stage_objects hworld]
    cases (session.table name).isReady <;> rfl
  · intro again fresh
    have htable : session.table name = (Session.created tables).table name :=
      Table.ext_of_not_ready (by simpa [stage_objects hworld] using hnot)
        (Session.isReady_created tables name) (Session.policy_performAll _ name calls)
    obtain ⟨hresult, hobject, notices, hlogs, hfresh⟩ :=
      call_load_congr hworld hstart htable source
    refine ⟨hresult, hobject, ?_⟩
    rw [hlogs, hfresh]
    rfl

/-- A table that was first to be loaded from two bytes and then from a whole table of twelve. -/
theorem World.lifecycle_callAll_retried :
    let part : Source := .bytes ⟨#[2, 0]⟩
    let whole : Source := .bytes ⟨#[2, 0, 12, 0, 12, 0, 0, 0, 0, 0, 0, 0]⟩
    let tables : List (Text × Policy) := [("app", .strict), ("unread", .lenient)]
    let calls : List (Text × Call) := [("app", .load part), ("app", .load whole)]
    let world := (created tables).callAll calls
    (world.objects "app").stage = .ready ∧ (created tables).loads "app" calls = 1 ∧
      (∃ error, (world.call "app" (.load whole)).1 = .error error) ∧
      (world.call "app" (.merge "app")).1 = .ok () ∧
      (world.call "app" (.merge "unread")).1 = .error .notParsed := by
  intro part whole tables calls world
  obtain ⟨-, -, -, hloads, -, hmerge, hloaded, -⟩ := World.lifecycle_callAll tables calls
  have hready : (world.objects "app").stage = .ready := by decide +kernel
  have hunread : ¬ (world.objects "unread").stage = .ready := by decide +kernel
  refine ⟨hready, ?_, (hloaded "app" hready).1 whole, ?_, ?_⟩
  · rw [hloads "app", if_pos hready]
  · rw [hmerge "app" "app", if_pos ⟨hready, hready⟩]
  · rw [hmerge "app" "unread", if_neg fun both => hunread both.2]

end CompiledResources
