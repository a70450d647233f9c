import CompiledResources.Contents.Decoding
import CompiledResources.Proofs.Composition

/-!
What steps note. The readers of headers, qualifiers and values note nothing but plain notices, which
say neither that an entry is left out nor what its flags are.
-/

namespace CompiledResources

/-! ### Kinds of notices -/

namespace Notice

/-- The notice is one of decoding, and neither about the flags of an entry nor about an entry that
is left out. -/
def isPlain : Notice → Bool
  | violation .. | recordLeftOut .. | unnamedType .. | trailingConfigBytes .. | tableStart ..
  | packageStart .. | typeSummary .. => true
  | weakEntry | compactEntry | unknownEntrySize .. | entryLeftOut .. | stated .. => false

/-- The notice is one of decoding and not about the flags of an entry. -/
def isOrdinary : Notice → Bool
  | unknownEntrySize .. | entryLeftOut .. => true
  | notice => notice.isPlain

theorem isOrdinary_of_isPlain {notice : Notice} (h : notice.isPlain = true) :
    notice.isOrdinary = true := by
  unfold isOrdinary
  split
  · rfl
  · rfl
  · exact h

end Notice

/-! ### Steps that note only some kinds -/

namespace Decoder

variable {α β : Type}

/-- Whatever comes of the step, it only adds notices that are allowed. -/
def Notes (allowed : Notice → Bool) (step : Decoder α) : Prop :=
  ∀ policy journal, ∃ added, (∀ notice ∈ added, allowed notice = true) ∧
    (run step policy journal).2 = journal.noting added

namespace Notes

variable {allowed : Notice → Bool}

theorem pure (a : α) : Notes allowed (Pure.pure a) :=
  fun _ journal => ⟨[], by simp, journal.noting_nil.symm⟩

theorem throw (fault : Fault) : Notes allowed (MonadExcept.throw fault : Decoder α) :=
  fun _ journal => ⟨[], by simp, journal.noting_nil.symm⟩

theorem throw_bind (fault : Fault) (next : α → Decoder β) :
    Notes allowed ((MonadExcept.throw fault : Decoder α) >>= next) :=
  fun _ journal => ⟨[], by simp, journal.noting_nil.symm⟩

theorem note {notice : Notice} (h : allowed notice = true) : Notes allowed (note notice) := by
  intro policy journal
  refine ⟨[notice], by simpa using h, ?_⟩
  rw [run_note, Journal.noting, Array.push_eq_append]

theorem check {broken : Bool} {rule : Rule} {offset : Int}
    (h : allowed (.violation rule offset) = true) : Notes allowed (check broken rule offset) := by
  cases broken with
  | false => exact pure ()
  | true =>
    intro policy journal
    cases policy with
    | strict => exact throw _ .strict journal
    | lenient => exact note h .lenient journal

theorem bind {step : Decoder α} {next : α → Decoder β} (hstep : Notes allowed step)
    (hnext : ∀ a, Notes allowed (next a)) : Notes allowed (step >>= next) := by
  intro policy journal
  obtain ⟨added, hadded, hfirst⟩ := hstep policy journal
  cases hrun : run step policy journal with
  | mk result between =>
    obtain rfl : between = journal.noting added := by rw [← hfirst, hrun]
    cases result with
    | ok a =>
      obtain ⟨more, hmore, hsecond⟩ := hnext a policy (journal.noting added)
      refine ⟨added ++ more, List.forall_mem_append.mpr ⟨hadded, hmore⟩, ?_⟩
      rw [run_bind_of_ok hrun, hsecond, Journal.noting_noting]
    | error fault => exact ⟨added, hadded, by rw [run_bind_of_error hrun]⟩

theorem read {result : Except Fault α} {next : α → Decoder β}
    (hnext : ∀ a, Notes allowed (next a)) : Notes allowed (ofExcept result >>= next) := by
  cases result with
  | ok a => exact hnext a
  | error fault => exact throw fault

theorem ite {c : Prop} [Decidable c] {first second : Decoder α} (hfirst : Notes allowed first)
    (hsecond : Notes allowed second) : Notes allowed (if c then first else second) := by
  split
  · exact hfirst
  · exact hsecond

theorem forM {step : α → Decoder Unit} (hstep : ∀ a, Notes allowed (step a)) (items : List α) :
    Notes allowed (items.forM step) := by
  induction items with
  | nil => exact pure ()
  | cons item rest ih => exact bind (hstep item) fun _ => ih

/-- A step that notes some kinds is a step that notes these and others. -/
theorem mono {others : Notice → Bool} {step : Decoder α} (h : Notes allowed step)
    (hothers : ∀ notice, allowed notice = true → others notice = true) : Notes others step := by
  intro policy journal
  obtain ⟨added, hadded, hrun⟩ := h policy journal
  exact ⟨added, fun notice hmem => hothers notice (hadded notice hmem), hrun⟩

theorem ordinary {step : Decoder α} (h : Notes Notice.isPlain step) :
    Notes Notice.isOrdinary step :=
  h.mono fun _ => Notice.isOrdinary_of_isPlain

end Notes
end Decoder

/-! ### Readers -/

open Decoder

theorem TypeSpec.plain_read (data : ByteArray) (chunk : Chunk) :
    Notes Notice.isPlain (TypeSpec.read data chunk) :=
  .read fun _ => .bind (.check rfl) fun _ => .read fun _ => .bind (.check rfl) fun _ =>
    .read fun _ => .read fun _ => .pure _

theorem Qualifiers.plain_passTrailing (data : ByteArray) (offset : Int) (size : Nat) :
    Notes Notice.isPlain (Qualifiers.passTrailing data offset size) :=
  .read fun _ => .ite (.note rfl) (.pure ())

theorem Qualifiers.plain_readAt (data : ByteArray) (offset : Int) :
    Notes Notice.isPlain (Qualifiers.readAt data offset) :=
  .read fun _ => .read fun _ => .ite (.pure _) <| .read fun _ => .ite (.pure _) <| .read fun _ =>
    .ite (.pure _) <| .read fun _ => .ite (.pure _) <| .read fun _ => .ite (.pure _) <|
      .bind (plain_passTrailing data offset _) fun _ => .pure _

theorem TypeHeader.plain_read (data : ByteArray) (chunk : Chunk) :
    Notes Notice.isPlain (TypeHeader.read data chunk) :=
  .read fun _ => .bind (.check rfl) fun _ => .read fun _ => .ite (.throw_bind _ _) <|
    .bind (.check rfl) fun _ => .read fun _ => .bind (.check rfl) fun _ => .read fun _ =>
      .read fun _ => .bind (Qualifiers.plain_readAt data _) fun _ => .pure _

theorem ValueRecord.plain_readAt (data : ByteArray) (offset : Int) :
    Notes Notice.isPlain (ValueRecord.readAt data offset) :=
  .read fun _ => .ite (.pure none) <| .read fun _ => .bind (.check rfl) fun _ =>
    .read fun _ => .read fun _ => .pure _

theorem Entry.plain_readRecords (context : Entry.Context) (data : ByteArray) (offset : Int)
    (count index : Nat) (bag : Bag) :
    Notes Notice.isPlain (Entry.readRecords context data offset count index bag) := by
  induction count generalizing index bag with
  | zero => exact .pure _
  | succ count ih =>
    refine .read fun name => .bind (ValueRecord.plain_readAt data _) fun record => ?_
    cases record with
    | none => exact .pure _
    | some record =>
      dsimp only
      split
      · exact ih _ _
      · exact .bind (.note rfl) fun _ => ih _ _

theorem Entry.plain_readValue (context : Entry.Context) (data : ByteArray)
    (header : EntryHeader) (offset : Int) :
    Notes Notice.isPlain (Entry.readValue context data header offset) := by
  refine .ite (.bind (plain_readRecords context data offset _ _ _) fun result => ?_)
    (.bind (ValueRecord.plain_readAt data offset) fun record => ?_)
  · cases result <;> exact .pure _
  · cases record <;> exact .pure _

theorem Package.plain_noteSummary (package : Package) : Notes Notice.isPlain package.noteSummary :=
  .forM (fun _ => .note rfl) package.types

end CompiledResources
