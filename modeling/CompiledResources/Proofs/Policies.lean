import CompiledResources.Proofs.Evidence

/-!
The two policies compared. A strict run does what the lenient run does up to the first broken rule,
and ends there: with a fault that says what the lenient run only notes.
-/

namespace CompiledResources

namespace Decoder

/-- No notice of the list is at the level of errors. -/
def Quiet (notices : List Notice) : Prop := ∀ notice ∈ notices, notice.level ≠ .error

theorem Quiet.append {first second : List Notice} (hfirst : Quiet first) (hsecond : Quiet second) :
    Quiet (first ++ second) := by
  intro notice hnotice
  rcases List.mem_append.mp hnotice with h | h
  · exact hfirst notice h
  · exact hsecond notice h

/-- A list has at most one first notice at the level of errors. -/
theorem Quiet.first_unique {before before' after after' : List Notice} {notice notice' : Notice}
    (hbefore : Quiet before) (hbefore' : Quiet before') (hnotice : notice.level = .error)
    (hnotice' : notice'.level = .error)
    (heq : before ++ notice :: after = before' ++ notice' :: after') :
    before = before' ∧ notice = notice' := by
  induction before generalizing before' with
  | nil =>
    cases before' with
    | nil => simpa using (List.cons.inj heq).1
    | cons head tail =>
      obtain ⟨rfl, -⟩ := List.cons.inj heq
      exact absurd hnotice (hbefore' _ List.mem_cons_self)
  | cons head tail ih =>
    cases before' with
    | nil =>
      obtain ⟨rfl, -⟩ := List.cons.inj heq
      exact absurd hnotice' (hbefore _ List.mem_cons_self)
    | cons head' tail' =>
      obtain ⟨rfl, htail⟩ := List.cons.inj heq
      obtain ⟨rfl, hsame⟩ := ih (fun n hn => hbefore n (List.mem_cons_of_mem _ hn))
        (fun n hn => hbefore' n (List.mem_cons_of_mem _ hn)) htail
      exact ⟨rfl, hsame⟩

variable {shown : Fault → Prop} {α : Type}

/-- How the strict run of a step from a journal stands to the lenient one. -/
inductive CutShort (journal : Journal) (strict lenient : Except Fault α × Journal) : Prop where
  /-- No rule is broken, and the runs are the same. -/
  | agree (added : List Notice) (hquiet : Quiet added)
      (hadded : lenient.2.notices.toList = journal.notices.toList ++ added)
      (hsame : strict = lenient)
  /-- The lenient run notes a broken rule, and there the strict run ends. -/
  | stop (before after : List Notice) (rule : Rule) (offset : Int) (hquiet : Quiet before)
      (hadded : lenient.2.notices.toList =
        journal.notices.toList ++ (before ++ .violation rule offset :: after))
      (hresult : strict.1 = .error (.violation rule offset))
      (hnotices : strict.2.notices.toList = journal.notices.toList ++ before)

/-- Noting something below the level of errors is the same under both policies. -/
theorem CutShort.agree_nil {journal after : Journal} {result : Except Fault α}
    (h : after.notices = journal.notices) :
    CutShort journal (result, after) (result, after) :=
  .agree [] (by intro notice hnotice; cases hnotice) (by simp [h]) rfl

/-- A step and what follows it are cut short at the first broken rule of either. -/
theorem CutShort.bind {step : Decoder α} {next : α → Decoder β} {journal : Journal}
    (hstep : CutShort journal (run step .strict journal) (run step .lenient journal))
    (hnext : ∀ a middle, CutShort middle (run (next a) .strict middle)
      (run (next a) .lenient middle))
    (hextend : ∀ a, Composed shown (next a)) :
    CutShort journal (run (step >>= next) .strict journal)
      (run (step >>= next) .lenient journal) := by
  cases hlenient : run step .lenient journal with
  | mk result middle =>
    rw [hlenient] at hstep
    cases hstep with
    | agree added hquiet hadded hsame =>
      cases result with
      | error fault =>
        rw [run_bind_of_error hlenient, run_bind_of_error hsame]
        exact .agree added hquiet hadded rfl
      | ok a =>
        rw [run_bind_of_ok hlenient, run_bind_of_ok hsame]
        cases hnext a middle with
        | agree more hmore hextended hsame' =>
          exact .agree (added ++ more) (hquiet.append hmore)
            (by rw [hextended, hadded, List.append_assoc]) hsame'
        | stop before after rule offset hbefore hextended hresult hnotices =>
          exact .stop (added ++ before) after rule offset (hquiet.append hbefore)
            (by rw [hextended, hadded]; simp) hresult
            (by rw [hnotices, hadded, List.append_assoc])
    | stop before after rule offset hquiet hadded hresult hnotices =>
      have hstrict : run step .strict journal =
          (.error (.violation rule offset), (run step .strict journal).2) :=
        Prod.ext hresult rfl
      rw [run_bind_of_error hstrict]
      cases result with
      | error fault =>
        rw [run_bind_of_error hlenient]
        exact .stop before after rule offset hquiet hadded rfl hnotices
      | ok a =>
        -- the lenient run goes on, and adds more behind the first broken rule
        rw [run_bind_of_ok hlenient]
        obtain ⟨more, hmore⟩ := (hextend a).notices_extend .lenient middle
        exact .stop before (after ++ more) rule offset hquiet
          (by rw [hmore, hadded]; simp) rfl hnotices

/-- The strict run of a step is the lenient one cut short at the first broken rule. -/
theorem Composed.cutShort {step : Decoder α} (hstep : Composed shown step) (journal : Journal) :
    CutShort journal (run step .strict journal) (run step .lenient journal) := by
  induction hstep generalizing journal with
  | pure a => exact .agree_nil rfl
  | layout error offset => exact .agree_nil rfl
  | unsupported feature offset => exact .agree_nil rfl
  | violation rule offset =>
    exact .stop [] [] rule offset (by intro notice hnotice; cases hnotice) (by simp) rfl (by simp)
  | note notice hlevel =>
    exact .agree [notice] (by simpa [Quiet] using hlevel) (by simp) rfl
  | noteOnce kind notice hlevel =>
    rw [run_noteOnce, run_noteOnce]
    split
    · exact .agree_nil rfl
    · exact .agree [notice] (by simpa [Quiet] using hlevel) (by simp) rfl
  | bind _ hnext ihstep ihnext => exact (ihstep journal).bind ihnext hnext

/-- Lenient decoding does not end with a broken rule. -/
theorem Composed.lenient_ne_violation {step : Decoder α} (hstep : Composed shown step)
    (journal : Journal) (rule : Rule) (offset : Int) :
    (run step .lenient journal).1 ≠ .error (.violation rule offset) := by
  induction hstep generalizing journal with
  | pure a => intro h; cases h
  | layout error place => intro h; cases h
  | unsupported feature place => intro h; cases h
  | violation rule place => intro h; cases h
  | note notice => intro h; cases h
  | noteOnce kind notice => rw [run_noteOnce]; intro h; cases h
  | @bind _ _ step next _ _ ihstep ihnext =>
    have hfirst := ihstep journal
    cases hrun : run step .lenient journal with
    | mk result middle =>
      cases result with
      | ok a =>
        rw [run_bind_of_ok hrun]
        exact ihnext a middle
      | error fault =>
        rw [hrun] at hfirst
        rw [run_bind_of_error hrun]
        simpa using hfirst

end Decoder

/-- Strict decoding of a table is lenient decoding cut at the first violation. Where the lenient run
notes nothing at the level of errors, the strict run has the same outcome and the same journal.
Where it does, the strict run has noted what came before and ends with the fault that says the same
as that first notice. The lenient run itself never ends with a broken rule. -/
theorem Contents.decode_strict_cuts_lenient (data : ByteArray) :
    let lenient : Except Fault Contents × Journal := (Contents.decode data).run .lenient
    let strict : Except Fault Contents × Journal := (Contents.decode data).run .strict
    (∀ rule offset, lenient.1 ≠ .error (.violation rule offset)) ∧
      ((∀ notice ∈ lenient.2.notices.toList, notice.level ≠ .error) → strict = lenient) ∧
      ∀ before notice after, lenient.2.notices.toList = before ++ notice :: after →
        (∀ earlier ∈ before, earlier.level ≠ .error) → notice.level = .error →
        strict.2.notices.toList = before ∧
          ∃ rule offset, notice = .violation rule offset ∧
            strict.1 = .error (.violation rule offset) ∧
            (Fault.violation rule offset).message = notice.message := by
  intro lenient strict
  have hcomposed := Contents.composed_decode data
  refine ⟨hcomposed.lenient_ne_violation {}, ?_, ?_⟩
  · intro hquiet
    cases hcomposed.cutShort {} with
    | agree added _ _ hsame => exact hsame
    | stop before after rule offset _ hadded =>
      have hmem : .violation rule offset ∈ lenient.2.notices.toList := by simp [lenient, hadded]
      exact absurd rfl (hquiet _ hmem)
  · intro before notice after hlog hbefore hnotice
    cases hcomposed.cutShort {} with
    | agree added hquiet hadded =>
      have hmem : notice ∈ added := by
        have hlists : added = before ++ notice :: after := by simpa [lenient, hadded] using hlog
        simp [hlists]
      exact absurd hnotice (hquiet notice hmem)
    | stop before' after' rule offset hquiet hadded hresult hnotices =>
      have hlists : before ++ notice :: after = before' ++ .violation rule offset :: after' := by
        simpa [lenient, hadded] using hlog.symm
      obtain ⟨rfl, rfl⟩ := Decoder.Quiet.first_unique hbefore hquiet hnotice rfl hlists
      exact ⟨by simpa using hnotices, rule, offset, rfl, hresult, rfl⟩

end CompiledResources
