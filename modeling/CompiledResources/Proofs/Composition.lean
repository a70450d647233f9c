import CompiledResources.Decoder

/-!
Steps that are put together from the operations of a decoder. A property that holds of the single
operations, and that a sequence inherits from its parts, holds of all of them: the journal never
decides on an outcome, and notices are only ever added to it.
-/

namespace CompiledResources

/-- Adds notices behind those that are there. -/
def Journal.noting (journal : Journal) (notices : List Notice) : Journal :=
  { journal with notices := journal.notices ++ notices.toArray }

namespace Journal

@[simp] theorem noting_nil (journal : Journal) : journal.noting [] = journal := by
  simp [noting]

theorem noting_noting (journal : Journal) (first second : List Notice) :
    (journal.noting first).noting second = journal.noting (first ++ second) := by
  simp [noting, Array.append_assoc]

@[simp] theorem toList_noting (journal : Journal) (notices : List Notice) :
    (journal.noting notices).notices.toList = journal.notices.toList ++ notices := by
  simp [noting]

end Journal

namespace Decoder

@[simp] theorem run_noteOnce (kind : Text) (notice : Notice) (policy : Policy)
    (journal : Journal) :
    run (noteOnce kind notice) policy journal =
      (.ok (), if journal.warned.contains kind then journal else
        { notices := journal.notices.push notice, warned := kind :: journal.warned }) := by
  have hget : run (noteOnce kind notice) policy journal =
      run (if journal.warned.contains kind then pure () else do
        modify fun journal => { journal with warned := kind :: journal.warned }
        note notice) policy journal := rfl
  rw [hget]
  split <;> rfl

theorem run_bind_of_ok {α β : Type} {step : Decoder α} {next : α → Decoder β} {policy : Policy}
    {journal after : Journal} {a : α} (h : run step policy journal = (.ok a, after)) :
    run (step >>= next) policy journal = run (next a) policy after := by
  rw [run_bind, h]

theorem run_bind_of_error {α β : Type} {step : Decoder α} {next : α → Decoder β}
    {policy : Policy} {journal after : Journal} {fault : Fault}
    (h : run step policy journal = (.error fault, after)) :
    run (step >>= next) policy journal = (.error fault, after) := by
  rw [run_bind, h]

/-- A sequence that succeeds does so through both of its steps. -/
theorem exists_of_run_bind {α β : Type} {step : Decoder α} {next : α → Decoder β}
    {policy : Policy} {journal after : Journal} {b : β}
    (h : run (step >>= next) policy journal = (.ok b, after)) :
    ∃ a between, run step policy journal = (.ok a, between) ∧
      run (next a) policy between = (.ok b, after) := by
  cases hfirst : run step policy journal with
  | mk result between =>
    cases result with
    | ok a =>
      rw [run_bind_of_ok hfirst] at h
      exact ⟨a, between, rfl, h⟩
    | error fault =>
      rw [run_bind_of_error hfirst] at h
      cases h

@[simp] theorem ofExcept_ok {α : Type} (a : α) : ofExcept (.ok a) = (pure a : Decoder α) := rfl

@[simp] theorem ofExcept_error {α : Type} (fault : Fault) :
    ofExcept (.error fault) = (throw fault : Decoder α) := rfl

theorem run_note_bind {α : Type} (notice : Notice) (next : Unit → Decoder α) (policy : Policy)
    (journal : Journal) :
    run (note notice >>= next) policy journal =
      run (next ()) policy { journal with notices := journal.notices.push notice } := rfl

theorem run_note_bind_noting {α : Type} (notice : Notice) (next : Unit → Decoder α)
    (policy : Policy) (journal : Journal) :
    run (note notice >>= next) policy journal = run (next ()) policy (journal.noting [notice]) := by
  rw [run_note_bind, Journal.noting, Array.push_eq_append]

/-- A function of what a step succeeds with changes nothing else of its run. -/
theorem run_map {α β : Type} (f : α → β) (step : Decoder α) (policy : Policy)
    (journal : Journal) :
    run (f <$> step) policy journal =
      ((run step policy journal).1.map f, (run step policy journal).2) := by
  rw [map_eq_pure_bind]
  cases hrun : run step policy journal with
  | mk result after =>
    cases result with
    | ok a =>
      rw [run_bind_of_ok hrun]
      rfl
    | error fault =>
      rw [run_bind_of_error hrun]
      rfl

/-- The steps put together from the operations of a decoder. Each broken rule that they report and
each feature that they refuse is one of `shown`. Broken rules are reported to the policy and never
raised past it, and no other notice is at the level of errors. -/
inductive Composed (shown : Fault → Prop) : {α : Type} → Decoder α → Prop where
  | pure {α : Type} (a : α) : Composed shown (Pure.pure a : Decoder α)
  | layout {α : Type} (error : LayoutError) (offset : Int) :
      Composed shown (throw (.layout error offset) : Decoder α)
  | unsupported {α : Type} (feature : Feature) (offset : Int)
      (hshown : shown (.unsupported feature offset)) :
      Composed shown (throw (.unsupported feature offset) : Decoder α)
  | violation (rule : Rule) (offset : Int) (hshown : shown (.violation rule offset)) :
      Composed shown (violation rule offset)
  | note (notice : Notice) (hlevel : notice.level ≠ .error) : Composed shown (note notice)
  | noteOnce (kind : Text) (notice : Notice) (hlevel : notice.level ≠ .error) :
      Composed shown (noteOnce kind notice)
  | bind {α β : Type} {step : Decoder α} {next : α → Decoder β} (hstep : Composed shown step)
      (hnext : ∀ a, Composed shown (next a)) : Composed shown (step >>= next)

namespace Composed

variable {shown : Fault → Prop} {α β σ : Type}

/-! ### Putting steps together -/

/-- A rule that is broken only where `shown` says so may be checked. -/
theorem check {broken : Bool} {rule : Rule} {offset : Int}
    (hshown : broken = true → shown (.violation rule offset)) :
    Composed shown (check broken rule offset) := by
  cases broken with
  | true => exact .violation rule offset (hshown rfl)
  | false => exact .pure ()

/-- What follows a read may rely on the bytes that were read. -/
theorem read {result : Except Fault α} {next : α → Decoder β}
    (hfault : ∀ fault, result = .error fault → ∃ error offset, fault = .layout error offset)
    (hnext : ∀ a, result = .ok a → Composed shown (next a)) :
    Composed shown (ofExcept result >>= next) := by
  cases result with
  | ok a => exact hnext a rfl
  | error fault =>
    obtain ⟨error, offset, rfl⟩ := hfault fault rfl
    exact Composed.layout error offset

theorem ite {c : Prop} [Decidable c] {first second : Decoder α} (hfirst : Composed shown first)
    (hsecond : Composed shown second) : Composed shown (if c then first else second) := by
  split
  · exact hfirst
  · exact hsecond

/-- A guard that raises a fault may stand before any step. -/
theorem guard {c : Prop} [Decidable c] {fault : Fault} {rest : Decoder α}
    (hfault : c → Composed shown (throw fault : Decoder Unit)) (hrest : Composed shown rest) :
    Composed shown (if c then (do (throw fault : Decoder Unit); rest) else rest) := by
  split
  next hc => exact .bind (hfault hc) fun _ => hrest
  next => exact hrest

theorem foldlM {step : σ → α → Decoder σ} (hstep : ∀ state a, Composed shown (step state a))
    (items : List α) (state : σ) : Composed shown (items.foldlM step state) := by
  induction items generalizing state with
  | nil => exact .pure state
  | cons item rest ih =>
    rw [List.foldlM_cons]
    exact .bind (hstep state item) ih

theorem mapM {step : α → Decoder β} (hstep : ∀ a, Composed shown (step a)) (items : List α) :
    Composed shown (items.mapM step) := by
  induction items with
  | nil => exact .pure []
  | cons item rest ih =>
    rw [List.mapM_cons]
    exact .bind (hstep item) fun b => .bind ih fun found => .pure (b :: found)

theorem forM {step : α → Decoder Unit} (hstep : ∀ a, Composed shown (step a)) (items : List α) :
    Composed shown (items.forM step) := by
  induction items with
  | nil => exact .pure ()
  | cons item rest ih => exact .bind (hstep item) fun _ => ih

/-! ### What all of them share -/

/-- The journal has no say in the outcome. -/
theorem outcome_eq {step : Decoder α} (hstep : Composed shown step) (policy : Policy)
    (first second : Journal) : (run step policy first).1 = (run step policy second).1 := by
  induction hstep generalizing first second with
  | pure a => rfl
  | layout error offset => rfl
  | unsupported feature offset => rfl
  | violation rule offset => cases policy <;> rfl
  | note notice => rfl
  | noteOnce kind notice => simp
  | @bind _ _ step next _ _ ihstep ihnext =>
    have heq := ihstep first second
    cases hfirst : run step policy first with
    | mk result after =>
      cases hsecond : run step policy second with
      | mk result' after' =>
        obtain rfl : result = result' := by simpa [hfirst, hsecond] using heq
        cases result with
        | ok a =>
          rw [run_bind_of_ok hfirst, run_bind_of_ok hsecond]
          exact ihnext a after after'
        | error fault => rw [run_bind_of_error hfirst, run_bind_of_error hsecond]

/-- A sequence has the outcome of its second step after that of its first, each with a journal of
its own. -/
theorem outcome_bind {step : Decoder α} {next : α → Decoder β}
    (hnext : ∀ a, Composed shown (next a)) (policy : Policy) (journal : Journal) :
    (run (step >>= next) policy journal).1 =
      (run step policy journal).1 >>= fun a => (run (next a) policy).1 := by
  cases hrun : run step policy journal with
  | mk result after =>
    cases result with
    | ok a =>
      rw [run_bind_of_ok hrun]
      exact (hnext a).outcome_eq policy after {}
    | error fault =>
      rw [run_bind_of_error hrun]
      rfl

/-- Notices are added behind those that were there. -/
theorem notices_extend {step : Decoder α} (hstep : Composed shown step) (policy : Policy)
    (journal : Journal) :
    ∃ added, (run step policy journal).2.notices.toList = journal.notices.toList ++ added := by
  induction hstep generalizing journal with
  | pure a => exact ⟨[], by simp⟩
  | layout error offset => exact ⟨[], by simp⟩
  | unsupported feature offset => exact ⟨[], by simp⟩
  | violation rule offset =>
    cases policy with
    | strict => exact ⟨[], by simp⟩
    | lenient => exact ⟨[.violation rule offset], by simp⟩
  | note notice => exact ⟨[notice], by simp⟩
  | noteOnce kind notice =>
    by_cases hwarned : kind ∈ journal.warned
    · exact ⟨[], by simp [hwarned]⟩
    · exact ⟨[notice], by simp [hwarned]⟩
  | @bind _ _ step next _ _ ihstep ihnext =>
    obtain ⟨added, hadded⟩ := ihstep journal
    cases hrun : run step policy journal with
    | mk result after =>
      rw [hrun] at hadded
      cases result with
      | error fault => exact ⟨added, by rw [run_bind_of_error hrun, hadded]⟩
      | ok a =>
        obtain ⟨more, hmore⟩ := ihnext a after
        exact ⟨added ++ more, by rw [run_bind_of_ok hrun, hmore, hadded, List.append_assoc]⟩

end Composed

/-! ### What a step succeeds with -/

/-- Whatever a step succeeds with meets a condition. -/
def Ensures {α : Type} (step : Decoder α) (post : α → Prop) : Prop :=
  ∀ policy journal a after, run step policy journal = (.ok a, after) → post a

namespace Ensures

variable {α β σ : Type}

theorem trivial (step : Decoder α) : Ensures step fun _ => True :=
  fun _ _ _ _ _ => True.intro

theorem pure {post : α → Prop} {a : α} (h : post a) : Ensures (Pure.pure a) post := by
  intro policy journal result after hrun
  cases hrun
  exact h

/-- What holds of every result of a step holds of the outcome of its run. -/
theorem of_outcome {step : Decoder α} {post : α → Prop} (hstep : Ensures step post)
    {policy : Policy} {journal : Journal} {a : α} (h : (run step policy journal).1 = .ok a) :
    post a := by
  cases hrun : run step policy journal with
  | mk result after =>
    rw [hrun] at h
    obtain rfl : result = .ok a := h
    exact hstep policy journal a after hrun

theorem throw {post : α → Prop} (fault : Fault) : Ensures (MonadExcept.throw fault) post := by
  intro policy journal result after hrun
  cases hrun

theorem bind {step : Decoder α} {next : α → Decoder β} {middle : α → Prop} {post : β → Prop}
    (hstep : Ensures step middle) (hnext : ∀ a, middle a → Ensures (next a) post) :
    Ensures (step >>= next) post := by
  intro policy journal b after hrun
  obtain ⟨a, between, hfirst, hrest⟩ := exists_of_run_bind hrun
  exact hnext a (hstep policy journal a between hfirst) policy between b after hrest

/-- What only the last of two steps decides. -/
theorem after {step : Decoder α} {next : α → Decoder β} {post : β → Prop}
    (hnext : ∀ a, Ensures (next a) post) : Ensures (step >>= next) post :=
  bind (trivial step) fun a _ => hnext a

/-- What follows a read may rely on the bytes that were read. -/
theorem read {result : Except Fault α} {next : α → Decoder β} {post : β → Prop}
    (hnext : ∀ a, result = .ok a → Ensures (next a) post) :
    Ensures (ofExcept result >>= next) post := by
  cases result with
  | ok a => exact hnext a rfl
  | error fault => exact throw fault

theorem ite {c : Prop} [Decidable c] {first second : Decoder α} {post : α → Prop}
    (hfirst : Ensures first post) (hsecond : Ensures second post) :
    Ensures (if c then first else second) post := by
  split
  · exact hfirst
  · exact hsecond

/-- What every step keeps, a run of them keeps. -/
theorem foldlM {step : σ → α → Decoder σ} {post : σ → Prop}
    (hstep : ∀ state a, post state → Ensures (step state a) post) (items : List α) {state : σ}
    (hstate : post state) : Ensures (items.foldlM step state) post := by
  induction items generalizing state with
  | nil => exact pure hstate
  | cons item rest ih =>
    rw [List.foldlM_cons]
    exact bind (hstep state item hstate) fun next hnext => ih hnext

theorem mapM {step : α → Decoder β} {post : β → Prop} (hstep : ∀ a, Ensures (step a) post)
    (items : List α) : Ensures (items.mapM step) fun found => ∀ b ∈ found, post b := by
  induction items with
  | nil => exact pure fun b hb => nomatch hb
  | cons item rest ih =>
    rw [List.mapM_cons]
    exact bind (hstep item) fun b hb => bind ih fun found hfound =>
      pure (List.forall_mem_cons.mpr ⟨hb, hfound⟩)

/-- Steps after a step need to agree only on what it may succeed with. -/
theorem bind_congr {step : Decoder α} {post : α → Prop} (hstep : Ensures step post)
    {first second : α → Decoder β} (h : ∀ a, post a → first a = second a) :
    step >>= first = step >>= second := by
  have hrun (policy : Policy) (journal : Journal) :
      run (step >>= first) policy journal = run (step >>= second) policy journal := by
    cases hstart : run step policy journal with
    | mk result after =>
      cases result with
      | ok a => rw [run_bind_of_ok hstart, run_bind_of_ok hstart, h a (hstep _ _ _ _ hstart)]
      | error fault => rw [run_bind_of_error hstart, run_bind_of_error hstart]
  funext policy journal
  exact hrun policy journal

end Ensures

/-! ### Steps that succeed -/

/-- Whatever the policy and the journal, the step succeeds with `a`. -/
def Yields {α : Type} (step : Decoder α) (a : α) : Prop :=
  ∀ policy journal, (run step policy journal).1 = .ok a

namespace Yields

variable {α β : Type}

theorem pure (a : α) : Yields (Pure.pure a) a :=
  fun _ _ => rfl

theorem note (notice : Notice) : Yields (note notice) () :=
  fun _ _ => rfl

theorem noteOnce (kind : Text) (notice : Notice) : Yields (noteOnce kind notice) () := by
  intro policy journal
  rw [run_noteOnce]

theorem bind {step : Decoder α} {next : α → Decoder β} {a : α} {b : β} (hstep : Yields step a)
    (hnext : Yields (next a) b) : Yields (step >>= next) b := by
  intro policy journal
  have hfirst := hstep policy journal
  cases hrun : run step policy journal with
  | mk result after =>
    rw [hrun] at hfirst
    obtain rfl : result = .ok a := hfirst
    rw [run_bind_of_ok hrun]
    exact hnext policy after

theorem ite_unit {c : Prop} [Decidable c] {step : Decoder Unit} (hstep : Yields step ()) :
    Yields (if c then step else Pure.pure ()) () := by
  split
  · exact hstep
  · exact pure ()

theorem forM {step : α → Decoder Unit} (hstep : ∀ item, Yields (step item) ()) (items : List α) :
    Yields (items.forM step) () := by
  induction items with
  | nil => exact pure ()
  | cons item rest ih => exact bind (hstep item) ih

/-- Steps that all succeed give the list of what they succeed with. -/
theorem mapM {step : α → Decoder β} {f : α → β} {items : List α}
    (hstep : ∀ item ∈ items, Yields (step item) (f item)) :
    Yields (items.mapM step) (items.map f) := by
  induction items with
  | nil => exact pure []
  | cons item rest ih =>
    rw [List.forall_mem_cons] at hstep
    rw [List.mapM_cons]
    exact bind hstep.1 (bind (ih hstep.2) (pure _))

end Yields
end Decoder
end CompiledResources
