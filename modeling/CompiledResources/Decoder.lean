import CompiledResources.Notice

/-!
Decoding steps. A step reads the policy, may end with a fault, and writes notices; what was noted
before a fault stays noted.
-/

namespace CompiledResources

/-- What a broken rule about a field does: end decoding, or leave a notice. -/
inductive Policy where
  | strict
  | lenient
deriving DecidableEq, Repr

/-- The notices of one run, and the kinds of warning that were already given in it. -/
structure Journal where
  notices : Array Notice := #[]
  warned : List Text := []
deriving DecidableEq, Repr

/-- A step of decoding. -/
abbrev Decoder (α : Type) := ReaderT Policy (ExceptT Fault (StateM Journal)) α

namespace Decoder

/-- Performs a step and gives its outcome with the journal that it leaves. -/
def run {α : Type} (step : Decoder α) (policy : Policy) (journal : Journal := {}) :
    Except Fault α × Journal :=
  (ReaderT.run step policy).run.run journal

/-- A step that does nothing but read bytes. -/
def ofExcept {α : Type} (result : Except Fault α) : Decoder α :=
  match result with
  | .ok a => pure a
  | .error fault => throw fault

instance : MonadLift (Except Fault) (ReaderT Policy (ExceptT Fault (StateM Journal))) :=
  ⟨ofExcept⟩

/-- Adds a notice to the journal. -/
def note (notice : Notice) : Decoder Unit :=
  modify fun journal => { journal with notices := journal.notices.push notice }

/-- Deals with a broken rule as the policy says. -/
def violation (rule : Rule) (offset : Int) : Decoder Unit := do
  match ← read with
  | .strict => throw (.violation rule offset)
  | .lenient => note (.violation rule offset)

/-- Deals with a rule that is broken when `broken` holds. -/
def check (broken : Bool) (rule : Rule) (offset : Int) : Decoder Unit :=
  if broken then violation rule offset else pure ()

/-- Adds a notice the first time that its kind comes up. -/
def noteOnce (kind : Text) (notice : Notice) : Decoder Unit := do
  if (← get).warned.contains kind then pure ()
  else
    modify fun journal => { journal with warned := kind :: journal.warned }
    note notice

/-! ### What running a step gives -/

variable {α β : Type} (policy : Policy) (journal : Journal)

@[simp] theorem run_pure (a : α) : run (pure a) policy journal = (.ok a, journal) := rfl

@[simp] theorem run_throw (fault : Fault) :
    run (throw fault : Decoder α) policy journal = (.error fault, journal) := rfl

/-- A step that fails ends the run; one that succeeds hands on its result and its journal. -/
theorem run_bind (step : Decoder α) (next : α → Decoder β) :
    run (step >>= next) policy journal =
      match run step policy journal with
      | (.ok a, after) => run (next a) policy after
      | (.error fault, after) => (.error fault, after) := by
  simp only [run, ReaderT.run_bind, ExceptT.run_bind, StateT.run_bind]
  cases (ReaderT.run step policy).run.run journal with
  | mk result after =>
    cases result with
    | ok a => rfl
    | error fault => rfl

@[simp] theorem liftM_eq_ofExcept (result : Except Fault α) :
    (liftM result : Decoder α) = ofExcept result := rfl

@[simp] theorem run_ofExcept (result : Except Fault α) :
    run (ofExcept result) policy journal = (result, journal) := by
  cases result <;> rfl

@[simp] theorem run_note (notice : Notice) :
    run (note notice) policy journal =
      (.ok (), { journal with notices := journal.notices.push notice }) := rfl

@[simp] theorem run_violation_strict (rule : Rule) (offset : Int) :
    run (violation rule offset) .strict journal =
      (.error (.violation rule offset), journal) := rfl

@[simp] theorem run_violation_lenient (rule : Rule) (offset : Int) :
    run (violation rule offset) .lenient journal =
      (.ok (), { journal with notices := journal.notices.push (.violation rule offset) }) := rfl

end Decoder
end CompiledResources
