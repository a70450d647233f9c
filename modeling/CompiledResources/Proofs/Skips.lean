import CompiledResources.Proofs.Evidence
import CompiledResources.Proofs.Notices
import Mathlib.Algebra.GroupWithZero.Nat
import Mathlib.Data.List.Forall2

/-!
Notices about entries that are left out. They are the warnings that end in ", skipping entry"; a
step gives none of them, or it is described by its result together with the number that it gives.
-/

namespace CompiledResources

/-! ### Which notices they are -/

/-- The words at the end of a notice that an entry is left out. -/
def Notice.skipping : Text := ", skipping entry"

/-- The notice is a warning that an entry is left out. -/
def Notice.SkipsEntry (notice : Notice) : Prop :=
  notice.level = .warn ∧ skipping.units <:+ notice.message.units

instance (notice : Notice) : Decidable notice.SkipsEntry :=
  inferInstanceAs (Decidable (_ ∧ _))

/-- Number of notices in a journal that an entry is left out. -/
def Journal.skips (journal : Journal) : Nat :=
  journal.notices.toList.countP fun notice => notice.SkipsEntry

/-- The last unit of the text is not the letter y, with which the words of such a notice end. -/
def Text.EndsOtherwise (t : Text) : Prop :=
  ∃ u, t.units.getLast? = some u ∧ u ≠ 0x79

theorem Text.EndsOtherwise.append (a : Text) {b : Text} (h : b.EndsOtherwise) :
    (a ++ b).EndsOtherwise := by
  obtain ⟨u, hlast, hne⟩ := h
  exact ⟨u, by rw [units_append, List.getLast?_append, hlast, Option.some_or], hne⟩

/-- A numeral ends in a digit. -/
theorem Numeral.endsOtherwise_ofNat {base : Nat} (hbase : 1 < base) (hle : base ≤ 16) (n : Nat) :
    (ofNat base n).EndsOtherwise := by
  have hdigit : ∀ digit < 16, (Text.ofChars [Nat.digitChar digit]).units.getLast? =
      some (UInt16.ofNat (Nat.digitChar digit).toNat) ∧
      UInt16.ofNat (Nat.digitChar digit).toNat ≠ 0x79 := by decide
  have hone (digit : Nat) (hlt : digit < base) :
      (Text.ofChars [Nat.digitChar digit]).EndsOtherwise :=
    ⟨_, hdigit digit (Nat.lt_of_lt_of_le hlt hle)⟩
  rw [ofNat, Nat.toDigits_eq_if hbase]
  split
  next hlt => exact hone n hlt
  next =>
    have hsplit : Text.ofChars (base.toDigits (n / base) ++ [(n % base).digitChar]) =
        Text.ofChars (base.toDigits (n / base)) ++ Text.ofChars [(n % base).digitChar] :=
      Text.ext_units (by simp)
    rw [hsplit]
    exact (hone _ (Nat.mod_lt n (by omega))).append _

theorem Numeral.endsOtherwise_ofInt {base : Nat} (hbase : 1 < base) (hle : base ≤ 16) (n : Int) :
    (ofInt base n).EndsOtherwise := by
  cases n with
  | ofNat n => exact endsOtherwise_ofNat hbase hle n
  | negSucc n => exact (endsOtherwise_ofNat hbase hle (n + 1)).append _

theorem Refusal.endsOtherwise_message (refusal : Refusal) : refusal.message.EndsOtherwise := by
  cases refusal with
  | unknownUnit code => exact (Numeral.endsOtherwise_ofInt (by decide) (by decide) _).append _
  | unknownType code =>
    exact ((Numeral.endsOtherwise_ofInt (by decide) (by decide) _).append _).append _
  | oversizedValue offset => exact .append _ ⟨0x38, by decide, by decide⟩
  | oversizedRecord index offset => exact .append _ ⟨0x65, by decide, by decide⟩

namespace Notice

theorem not_skipsEntry {notice : Notice} (h : notice.message.EndsOtherwise) :
    ¬ notice.SkipsEntry := by
  rintro ⟨-, before, hmessage⟩
  obtain ⟨u, hlast, hne⟩ := h
  have hend : skipping.units.getLast? = some 0x79 := by decide
  rw [← hmessage, List.getLast?_append, hend, Option.some_or] at hlast
  exact hne (Option.some.inj hlast).symm

theorem skipsEntry_unknownEntrySize (size : Nat) (offset : Int) :
    (unknownEntrySize size offset).SkipsEntry :=
  ⟨rfl, List.suffix_append _ _⟩

theorem skipsEntry_entryLeftOut (name : Text) (refusal : Refusal) :
    (entryLeftOut name refusal).SkipsEntry :=
  ⟨rfl, List.suffix_append _ _⟩

theorem not_skipsEntry_recordLeftOut (name : Text) (refusal : Refusal) :
    ¬ (recordLeftOut name refusal).SkipsEntry :=
  not_skipsEntry (refusal.endsOtherwise_message.append _)

theorem not_skipsEntry_unnamedType (id : Nat) : ¬ (unnamedType id).SkipsEntry :=
  not_skipsEntry (.append _ ⟨0x6C, by decide, by decide⟩)

theorem not_skipsEntry_of_level {notice : Notice} (h : notice.level ≠ .warn) :
    ¬ notice.SkipsEntry :=
  fun hskips => h hskips.1

theorem not_skipsEntry_of_isPlain {notice : Notice} (h : notice.isPlain = true) :
    ¬ notice.SkipsEntry := by
  cases notice with
  | recordLeftOut name refusal => exact not_skipsEntry_recordLeftOut name refusal
  | unnamedType id => exact not_skipsEntry_unnamedType id
  | violation | trailingConfigBytes | tableStart | packageStart | typeSummary =>
    exact not_skipsEntry_of_level (by simp [level])
  | weakEntry | compactEntry | unknownEntrySize | entryLeftOut | stated => cases h

end Notice

namespace Decoder

variable {α β σ : Type}

theorem skips_push (journal : Journal) (notice : Notice) :
    Journal.skips { journal with notices := journal.notices.push notice } =
      journal.skips + if notice.SkipsEntry then 1 else 0 := by
  simp [Journal.skips, List.countP_singleton]

/-! ### Steps that give none -/

/-- The step gives no notice that an entry is left out, whether it succeeds or not. -/
def SkipsNone (step : Decoder α) : Prop :=
  ∀ policy journal, (run step policy journal).2.skips = journal.skips

namespace SkipsNone

theorem pure (a : α) : SkipsNone (Pure.pure a) :=
  fun _ _ => rfl

theorem noteOnce {kind : Text} {notice : Notice} (h : ¬ notice.SkipsEntry) :
    SkipsNone (noteOnce kind notice) := by
  intro policy journal
  rw [run_noteOnce]
  split
  · rfl
  · exact (skips_push { journal with warned := kind :: journal.warned } notice).trans
      (by rw [if_neg h]; rfl)

theorem bind {step : Decoder α} {next : α → Decoder β} (hstep : SkipsNone step)
    (hnext : ∀ a, SkipsNone (next a)) : SkipsNone (step >>= next) := by
  intro policy journal
  have hfirst := hstep policy journal
  cases hrun : run step policy journal with
  | mk result after =>
    rw [hrun] at hfirst
    cases result with
    | ok a => rw [run_bind_of_ok hrun, hnext a policy after, hfirst]
    | error fault => rw [run_bind_of_error hrun, hfirst]

theorem ite {c : Prop} [Decidable c] {first second : Decoder α} (hfirst : SkipsNone first)
    (hsecond : SkipsNone second) : SkipsNone (if c then first else second) := by
  split
  · exact hfirst
  · exact hsecond

end SkipsNone

/-- Plain notices are none of them. -/
theorem Notes.skipsNone {step : Decoder α} (h : Notes Notice.isPlain step) : SkipsNone step := by
  intro policy journal
  obtain ⟨added, hadded, hrun⟩ := h policy journal
  have hnone : added.countP (fun notice => notice.SkipsEntry) = 0 := by
    simpa [List.countP_eq_zero] using
      fun notice hmem => Notice.not_skipsEntry_of_isPlain (hadded notice hmem)
  rw [hrun, Journal.skips, Journal.toList_noting, List.countP_append, hnone, Nat.add_zero]
  rfl

/-! ### Steps that may give some -/

/-- Where the step succeeds, its result and the number of such notices that it gives meet a
condition. -/
def Logs (policy : Policy) (step : Decoder α) (post : α → Nat → Prop) : Prop :=
  ∀ journal a after, run step policy journal = (.ok a, after) →
    ∃ count, post a count ∧ after.skips = journal.skips + count

namespace Logs

variable {policy : Policy}

theorem pure {post : α → Nat → Prop} {a : α} (h : post a 0) : Logs policy (Pure.pure a) post := by
  intro journal result after hrun
  cases hrun
  exact ⟨0, h, rfl⟩

theorem throw {post : α → Nat → Prop} (fault : Fault) :
    Logs policy (MonadExcept.throw fault) post := by
  intro journal result after hrun
  cases hrun

theorem note (notice : Notice) :
    Logs policy (note notice) fun _ count => count = if notice.SkipsEntry then 1 else 0 := by
  intro journal result after hrun
  cases hrun
  exact ⟨_, rfl, skips_push journal notice⟩

theorem mono {step : Decoder α} {post post' : α → Nat → Prop} (h : Logs policy step post)
    (hpost : ∀ a count, post a count → post' a count) : Logs policy step post' := by
  intro journal a after hrun
  obtain ⟨count, hmet, hcount⟩ := h journal a after hrun
  exact ⟨count, hpost a count hmet, hcount⟩

/-- The notices of two steps add up. -/
theorem bind {step : Decoder α} {next : α → Decoder β} {middle : α → Nat → Prop}
    {post : β → Nat → Prop} (hstep : Logs policy step middle)
    (hnext : ∀ a count, middle a count →
      Logs policy (next a) fun b more => post b (count + more)) :
    Logs policy (step >>= next) post := by
  intro journal b after hrun
  obtain ⟨a, between, hfirst, hrest⟩ := exists_of_run_bind hrun
  obtain ⟨count, hmiddle, hcount⟩ := hstep journal a between hfirst
  obtain ⟨more, hpost, hmore⟩ := hnext a count hmiddle between b after hrest
  exact ⟨count + more, hpost, by omega⟩

/-- A step that gives none and does not depend on the journal has the result that it has alone. -/
theorem alone {shown : Fault → Prop} {step : Decoder α} (hstep : Composed shown step)
    (hnone : SkipsNone step) :
    Logs policy step fun a count => (run step policy).1 = .ok a ∧ count = 0 := by
  intro journal a after hrun
  have hjournal := hnone policy journal
  have houtcome := hstep.outcome_eq policy {} journal
  rw [hrun] at hjournal houtcome
  exact ⟨0, ⟨houtcome, rfl⟩, hjournal⟩

/-- What follows such a step may rely on the result that the step has alone. -/
theorem after {shown : Fault → Prop} {step : Decoder α} {next : α → Decoder β}
    {post : β → Nat → Prop} (hstep : Composed shown step) (hnone : SkipsNone step)
    (hnext : ∀ a, (run step policy).1 = .ok a → Logs policy (next a) post) :
    Logs policy (step >>= next) post := by
  refine bind (alone hstep hnone) fun a count hmiddle => ?_
  obtain ⟨houtcome, rfl⟩ := hmiddle
  simpa only [Nat.zero_add] using hnext a houtcome

/-- What follows a read may rely on the bytes that were read. -/
theorem read {result : Except Fault α} {next : α → Decoder β} {post : β → Nat → Prop}
    (hnext : ∀ a, result = .ok a → Logs policy (next a) post) :
    Logs policy (ofExcept result >>= next) post := by
  cases result with
  | ok a => exact hnext a rfl
  | error fault => exact throw fault

theorem ite {c : Prop} [Decidable c] {first second : Decoder α} {post : α → Nat → Prop}
    (hfirst : c → Logs policy first post) (hsecond : ¬ c → Logs policy second post) :
    Logs policy (if c then first else second) post := by
  split
  next hc => exact hfirst hc
  next hc => exact hsecond hc

/-- Where the step does not depend on the journal, its result is the one that it has on its own. -/
theorem outcome {shown : Fault → Prop} {step : Decoder α} {post : α → Nat → Prop}
    (hstep : Composed shown step) (h : Logs policy step post) :
    Logs policy step fun a count => (run step policy).1 = .ok a ∧ post a count := by
  intro journal a after hrun
  obtain ⟨count, hpost, hcount⟩ := h journal a after hrun
  have houtcome := hstep.outcome_eq policy {} journal
  rw [hrun] at houtcome
  exact ⟨count, ⟨houtcome, hpost⟩, hcount⟩

/-- What the result of a step always meets may be added to what is known of it. -/
theorem ensuring {step : Decoder α} {post : α → Nat → Prop} {always : α → Prop}
    (halways : Ensures step always) (h : Logs policy step post) :
    Logs policy step fun a count => always a ∧ post a count := by
  intro journal a after hrun
  obtain ⟨count, hpost, hcount⟩ := h journal a after hrun
  exact ⟨count, ⟨halways policy journal a after hrun, hpost⟩, hcount⟩

/-- What has to hold for a step to succeed may be assumed. -/
theorem assuming {p : Prop} {step : Decoder α} {post : α → Nat → Prop}
    (hp : Ensures step fun _ => p) (h : p → Logs policy step post) : Logs policy step post :=
  fun journal a after hrun => h (hp policy journal a after hrun) journal a after hrun

/-- Of several steps one after another each is described on its own, and the notices add up. -/
theorem mapM {step : α → Decoder β} {one : α → β → Prop} {weight : β → Nat}
    (hstep : ∀ a, Logs policy (step a) fun b count => one a b ∧ count = weight b)
    (items : List α) :
    Logs policy (items.mapM step) fun found count =>
      List.Forall₂ one items found ∧ count = (found.map weight).sum := by
  induction items with
  | nil => exact pure ⟨.nil, rfl⟩
  | cons item rest ih =>
    rw [List.mapM_cons]
    refine bind (hstep item) fun b count hb => bind ih fun found more hfound => pure ?_
    obtain ⟨⟨hone, rfl⟩, hall, rfl⟩ := And.intro hb hfound
    exact ⟨.cons hone hall, by simp⟩

/-- A run of steps is the fold of what each of them does, and the notices add up. -/
theorem foldlM {τ ν : Type} {step : σ → α → Decoder σ} {view : σ → τ} {one : α → ν → Prop}
    {perform : τ → ν → τ} {weight : ν → Nat}
    (hstep : ∀ state a, Logs policy (step state a) fun next count =>
      ∃ deed, one a deed ∧ view next = perform (view state) deed ∧ count = weight deed)
    (items : List α) (state : σ) :
    Logs policy (items.foldlM step state) fun final count =>
      ∃ deeds, List.Forall₂ one items deeds ∧ view final = deeds.foldl perform (view state) ∧
        count = (deeds.map weight).sum := by
  induction items generalizing state with
  | nil => exact pure ⟨[], .nil, rfl, rfl⟩
  | cons item rest ih =>
    rw [List.foldlM_cons]
    refine bind (hstep state item) fun next count hnext => ?_
    obtain ⟨deed, hone, hview, rfl⟩ := hnext
    refine (ih next).mono fun final more hrest => ?_
    obtain ⟨deeds, hall, hfinal, rfl⟩ := hrest
    exact ⟨deed :: deeds, .cons hone hall, by rw [hfinal, hview, List.foldl_cons], by simp⟩

/-- A walk that is not cut short is the run of its chunks. -/
theorem visit {walk : Chunk.Walk} {step : σ → Chunk → Decoder σ} {state : σ}
    {post : σ → Nat → Prop} (h : Logs policy (walk.chunks.foldlM step state) post) :
    Logs policy (walk.visit step state) post :=
  fun journal final after hrun => h journal final after (Chunk.run_foldlM_of_visit hrun)

end Logs

end Decoder

open Decoder

/-- The warnings of flags are none of them. -/
theorem EntryHeader.skipsNone_noteFlags (flags : Nat) :
    SkipsNone (EntryHeader.noteFlags flags) := by
  have hweak : ¬ Notice.weakEntry.SkipsEntry := by decide
  have hcompact : ¬ Notice.compactEntry.SkipsEntry := by decide
  exact .ite (.bind (.noteOnce hweak) fun _ => .ite (.noteOnce hcompact) (.pure ()))
    (.ite (.noteOnce hcompact) (.pure ()))

end CompiledResources
