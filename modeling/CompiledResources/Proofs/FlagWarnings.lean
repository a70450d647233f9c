import CompiledResources.Proofs.EntryTraces
import CompiledResources.Proofs.Lifecycle

/-!
Warnings about the flags of entries. Two flags have no effect on decoding, and a run warns of each
of them when it first comes to an entry with the flag. What the journal remembers to have warned of
are the flags of the entries read so far; every step of a run keeps it so.
-/

namespace CompiledResources

open Decoder

/-! ### Flags and their warnings -/

/-- A flag of an entry that decoding warns of. -/
inductive EntryFlag where
  | weak
  | compact
deriving DecidableEq, Repr

namespace EntryFlag

/-- The flags in the order in which an entry that has them warns of them. -/
def all : List EntryFlag := [weak, compact]

/-- Number of the bit that stands for the flag. -/
def bit : EntryFlag → Nat
  | weak => 2
  | compact => 3

/-- What a journal remembers the warning by. -/
def kind : EntryFlag → Text
  | weak => "weak"
  | compact => "compact"

/-- The warning. -/
def notice : EntryFlag → Notice
  | weak => .weakEntry
  | compact => .compactEntry

/-- The name of the flag in its warning. -/
def name : EntryFlag → Text
  | weak => "FLAG_WEAK"
  | compact => "FLAG_COMPACT"

/-- The notice is, by its level and its words, a warning of the flag. -/
def Warns (flag : EntryFlag) (notice : Notice) : Prop :=
  notice.level = .warn ∧ notice.message = "Unsupported entry flag encountered: " ++ flag.name

instance (flag : EntryFlag) (notice : Notice) : Decidable (flag.Warns notice) :=
  inferInstanceAs (Decidable (_ ∧ _))

theorem mem_all (flag : EntryFlag) : flag ∈ all := by
  cases flag <;> decide

theorem kind_inj {flag other : EntryFlag} : flag.kind = other.kind ↔ flag = other := by
  cases flag <;> cases other <;> decide

theorem warns_notice {flag other : EntryFlag} : flag.Warns other.notice ↔ flag = other := by
  cases flag <;> cases other <;> decide

/-- Words that begin otherwise than those of a warning are other words. -/
theorem ne_of_lead (flag : EntryFlag) (lead : Text) {message : Text}
    (hlead : ¬ lead.units <+: ("Unsupported entry flag encountered: " ++ flag.name : Text).units)
    (hmessage : lead.units <+: message.units) :
    message ≠ "Unsupported entry flag encountered: " ++ flag.name := by
  rintro rfl
  exact hlead hmessage

/-- An ordinary notice is at another level or in other words. -/
theorem not_warns_of_isOrdinary (flag : EntryFlag) {notice : Notice}
    (h : notice.isOrdinary = true) : ¬ flag.Warns notice := by
  rintro ⟨hlevel, hmessage⟩
  revert hmessage
  cases notice with
  | violation | trailingConfigBytes | tableStart | packageStart | typeSummary => cases hlevel
  | weakEntry | compactEntry | stated => cases h
  | unknownEntrySize size offset =>
    exact flag.ne_of_lead "Unknown entry type of size " (by cases flag <;> decide)
      (by simp [Notice.message])
  | entryLeftOut name refusal =>
    exact flag.ne_of_lead "Could not parse resource " (by cases flag <;> decide)
      (by simp [Notice.message])
  | recordLeftOut name refusal =>
    exact flag.ne_of_lead "Skipping map record " (by cases flag <;> decide)
      (by simp [Notice.message])
  | unnamedType id =>
    exact flag.ne_of_lead "Type id " (by cases flag <;> decide) (by simp [Notice.message])

end EntryFlag

/-! ### What one entry warns of -/

/-- The flags in the entry header at an offset, if its first eight bytes are in the buffer. -/
def EntryHeader.flags? (data : ByteArray) (offset : Int) : Option Nat :=
  if Bytes.Fits data.size offset 8 then (Bytes.u16At data (offset + 2)).toOption else none

/-- The header of the entry is read and has the flag. -/
def EntryReading.Bears (reading : EntryReading) (flag : EntryFlag) : Prop :=
  ∃ flags ∈ EntryHeader.flags? reading.scope.data reading.place.offset,
    flags.testBit flag.bit = true

instance (reading : EntryReading) (flag : EntryFlag) : Decidable (reading.Bears flag) :=
  inferInstanceAs (Decidable (∃ _ ∈ _, _))

/-- Adds the warnings of flags to a journal, which remembers them. -/
def Journal.warning (journal : Journal) (flags : List EntryFlag) : Journal :=
  { journal.noting (flags.map EntryFlag.notice) with
    warned := flags.reverse.map EntryFlag.kind ++ journal.warned }

namespace Journal

@[simp] theorem warning_nil (journal : Journal) : journal.warning [] = journal := by
  simp [warning]

theorem warning_warning (journal : Journal) (first second : List EntryFlag) :
    (journal.warning first).warning second = journal.warning (first ++ second) := by
  simp [warning, noting, Array.append_assoc]

@[simp] theorem toList_warning (journal : Journal) (flags : List EntryFlag) :
    (journal.warning flags).notices.toList =
      journal.notices.toList ++ flags.map EntryFlag.notice := by
  simp [warning]

theorem mem_warned_warning {journal : Journal} {flags : List EntryFlag} {flag : EntryFlag} :
    flag.kind ∈ (journal.warning flags).warned ↔ flag ∈ flags ∨ flag.kind ∈ journal.warned := by
  simp [warning, EntryFlag.kind_inj]

end Journal

theorem EntryFlag.run_noteOnce (flag : EntryFlag) (policy : Policy) (journal : Journal) :
    run (noteOnce flag.kind flag.notice) policy journal =
      (.ok (), if flag.kind ∈ journal.warned then journal else journal.warning [flag]) := by
  rw [Decoder.run_noteOnce]
  by_cases hwarned : flag.kind ∈ journal.warned
  · simp [hwarned]
  · simp [hwarned, Journal.warning, Journal.noting]

/-- Of several flags those are warned of that are had and not warned of yet, in order. -/
theorem EntryFlag.run_forM_noteOnce {flags : List EntryFlag} (hflags : flags.Nodup)
    (has : EntryFlag → Bool) (policy : Policy) (journal : Journal) :
    run (flags.forM fun flag =>
        if has flag then noteOnce flag.kind flag.notice else pure ()) policy journal =
      (.ok (), journal.warning (flags.filter fun flag =>
        has flag ∧ flag.kind ∉ journal.warned)) := by
  induction flags generalizing journal with
  | nil => simp
  | cons flag rest ih =>
    obtain ⟨hflag, hrest⟩ := List.nodup_cons.mp hflags
    let fresh (flag : EntryFlag) : Bool := has flag ∧ flag.kind ∉ journal.warned
    have hhead : run (if has flag then noteOnce flag.kind flag.notice else pure ()) policy journal =
        (.ok (), journal.warning ([flag].filter fresh)) := by
      cases hhas : has flag with
      | false => simp [fresh, hhas]
      | true =>
        rw [if_pos rfl, run_noteOnce]
        by_cases hwarned : flag.kind ∈ journal.warned <;> simp [fresh, hhas, hwarned]
    -- What is remembered of the first flag has no say in whether another one is warned of.
    have hothers : (rest.filter fun other =>
          has other ∧ other.kind ∉ (journal.warning ([flag].filter fresh)).warned) =
        rest.filter fresh := by
      refine List.filter_congr fun other hother => ?_
      have hne : other ≠ flag := fun heq => hflag (heq ▸ hother)
      simp [Journal.mem_warned_warning, hne, fresh]
    refine (run_bind_of_ok hhead).trans ?_
    rw [ih hrest, hothers, Journal.warning_warning, ← List.filter_append]
    rfl

/-- The flags of an entry that are not warned of yet are warned of, in order. -/
theorem EntryHeader.run_noteFlags (flags : Nat) (policy : Policy) (journal : Journal) :
    run (noteFlags flags) policy journal =
      (.ok (), journal.warning (EntryFlag.all.filter fun flag =>
        flags.testBit flag.bit ∧ flag.kind ∉ journal.warned)) := by
  have heach : noteFlags flags = EntryFlag.all.forM fun flag =>
      if flags.testBit flag.bit then noteOnce flag.kind flag.notice else pure () := by
    cases hweak : flags.testBit 2 <;> cases hcompact : flags.testBit 3 <;>
      simp [noteFlags, isWeak, isCompact, EntryFlag.all, EntryFlag.bit, EntryFlag.kind,
        EntryFlag.notice, hweak, hcompact]
  rw [heach]
  exact EntryFlag.run_forM_noteOnce (by decide) (fun flag => flags.testBit flag.bit) policy journal

/-- A header whose first eight bytes cannot be read ends decoding at once. -/
theorem EntryHeader.readAt_of_flags?_none {data : ByteArray} {offset : Int}
    (h : flags? data offset = none) : ∃ fault, readAt data offset = throw fault := by
  rw [readAt]
  simp only [liftM_eq_ofExcept]
  cases hsize : Bytes.u16At data offset with
  | error fault => exact ⟨fault, rfl⟩
  | ok size =>
    cases hflags : Bytes.u16At data (offset + 2) with
    | error fault => exact ⟨fault, rfl⟩
    | ok flags =>
      cases hkey : Bytes.u32At data (offset + 4) with
      | error fault => exact ⟨fault, rfl⟩
      | ok key =>
        have hfirst := (Bytes.fits_of_numberAt hsize).1
        have hlast := (Bytes.fits_of_numberAt hkey).1
        have hfits : Bytes.Fits data.size offset 8 := by
          unfold Bytes.Fits at *
          omega
        rw [flags?, if_pos hfits, hflags] at h
        cases h

/-- A header is read by warning of its flags before anything else is noted. -/
theorem EntryHeader.readAt_of_flags?_some {data : ByteArray} {offset : Int} {flags : Nat}
    (h : flags? data offset = some flags) :
    ∃ next : Unit → Decoder (Option EntryHeader),
      readAt data offset = noteFlags flags >>= next ∧ ∀ a, Notes Notice.isOrdinary (next a) := by
  rw [flags?] at h
  split at h
  next hfits =>
    have hwidths : Bytes.Fits data.size offset 2 ∧ Bytes.Fits data.size (offset + 4) 4 := by
      unfold Bytes.Fits at *
      omega
    obtain ⟨size, hsize⟩ : ∃ n, Bytes.u16At data offset = .ok n :=
      Bytes.exists_numberAt hwidths.1
    obtain ⟨key, hkey⟩ : ∃ n, Bytes.u32At data (offset + 4) = .ok n :=
      Bytes.exists_numberAt hwidths.2
    cases hflags : Bytes.u16At data (offset + 2) with
    | error fault =>
      rw [hflags] at h
      cases h
    | ok found =>
      rw [hflags] at h
      obtain rfl := Option.some.inj h
      rw [readAt]
      simp only [liftM_eq_ofExcept, hsize, hflags, hkey, ofExcept_ok, pure_bind]
      exact ⟨_, rfl, fun _ => .ite (.bind (.note rfl) fun _ => .pure _) <|
        .ite (.read fun _ => .read fun _ => .pure _) (.pure _)⟩
  next => cases h

/-- Behind its header an entry notes nothing but what is ordinary. -/
theorem PackageScope.exists_readEntry_eq (scope : PackageScope) (typeId : Nat)
    (place : EntryPlace) :
    ∃ next : Option EntryHeader → Decoder (Option Resource),
      scope.readEntry typeId place = EntryHeader.readAt scope.data place.offset >>= next ∧
        ∀ found, Notes Notice.isOrdinary (next found) := by
  refine ⟨_, rfl, fun found => ?_⟩
  cases found with
  | none => exact .pure none
  | some header =>
    refine .bind (Entry.plain_readValue _ _ _ _).ordinary fun result => ?_
    cases result with
    | ok value => exact .pure _
    | error refusal => exact .bind (.note rfl) fun _ => .pure none

/-- An entry warns of those of its flags that the journal does not remember; what it notes after
that is ordinary. -/
theorem EntryReading.after_eq (reading : EntryReading) (policy : Policy) :
    ∃ rest, (∀ notice ∈ rest, Notice.isOrdinary notice = true) ∧
      reading.after policy = (reading.journal.warning (EntryFlag.all.filter fun flag =>
        reading.Bears flag ∧ flag.kind ∉ reading.journal.warned)).noting rest := by
  obtain ⟨value, hentry, hvalue⟩ :=
    reading.scope.exists_readEntry_eq reading.typeId reading.place
  rw [after, hentry]
  cases hflags : EntryHeader.flags? reading.scope.data reading.place.offset with
  | none =>
    obtain ⟨fault, hread⟩ := EntryHeader.readAt_of_flags?_none hflags
    have hbears (flag : EntryFlag) : ¬ reading.Bears flag := by simp [Bears, hflags]
    refine ⟨[], by simp, ?_⟩
    rw [hread]
    simp [hbears, Journal.warning, run_bind]
  | some flags =>
    obtain ⟨next, hread, hnext⟩ := EntryHeader.readAt_of_flags?_some hflags
    have hbears (flag : EntryFlag) : reading.Bears flag ↔ flags.testBit flag.bit = true := by
      simp [Bears, hflags]
    have hordinary : Notes Notice.isOrdinary (next () >>= value) := .bind (hnext ()) hvalue
    simp only [hread, hbears, bind_assoc]
    rw [run_bind_of_ok (EntryHeader.run_noteFlags flags policy reading.journal)]
    exact hordinary policy _

/-- An entry of both flags whose header does not fit is warned of before it is left out. -/
example :
    let plan : Layout.EntryPlan := { number := 0, key := 0, flags := 13, body := .simple ⟨16, 5⟩ }
    let scope : PackageScope := {
      data := ⟨(Layout.entry plan).toArray⟩
      packageId := 127, typeNames := [], keyNames := [], strings := [] }
    ({ scope, typeId := 1, place := ⟨0, 0⟩, journal := {} } : EntryReading).after .strict =
      { notices := #[.weakEntry, .compactEntry, .unknownEntrySize 8 0]
        warned := ["compact", "weak"] } := by
  decide +kernel

/-! ### What a run warns of -/

/-- The flags that an entry has and none of the entries before it has, in order. -/
def EntryReading.freshFlags (before : List EntryReading) (reading : EntryReading) :
    List EntryFlag :=
  EntryFlag.all.filter fun flag => reading.Bears flag ∧ ∀ earlier ∈ before, ¬ earlier.Bears flag

theorem EntryReading.mem_freshFlags {before : List EntryReading} {reading : EntryReading}
    {flag : EntryFlag} :
    flag ∈ reading.freshFlags before ↔
      reading.Bears flag ∧ ¬ ∃ earlier ∈ before, earlier.Bears flag := by
  simp [freshFlags, flag.mem_all]

theorem EntryReading.exists_mem_snoc {before : List EntryReading} {reading : EntryReading}
    {flag : EntryFlag} :
    (∃ found ∈ before ++ [reading], found.Bears flag) ↔
      reading.Bears flag ∨ ∃ earlier ∈ before, earlier.Bears flag := by
  simp [or_and_right, exists_or, or_comm]

theorem EntryReading.nodup_freshFlags (before : List EntryReading) (reading : EntryReading) :
    (reading.freshFlags before).Nodup :=
  List.Pairwise.filter _ (by decide : EntryFlag.all.Nodup)

/-- Warnings of different flags are different notices. -/
theorem EntryFlag.countP_map_notice {flags : List EntryFlag} (hflags : flags.Nodup)
    (flag : EntryFlag) :
    (flags.map notice).countP (fun notice => flag.Warns notice) =
      if flag ∈ flags then 1 else 0 := by
  have hsame : (fun notice => decide (flag.Warns notice)) ∘ notice =
      fun other => other == flag := by
    funext other
    rw [Bool.eq_iff_iff, Function.comp_apply, decide_eq_true_iff, warns_notice, beq_iff_eq]
    exact eq_comm
  rw [List.countP_map, hsame, ← hflags.count]
  rfl

theorem EntryFlag.countP_ordinary {rest : List Notice}
    (hrest : ∀ notice ∈ rest, Notice.isOrdinary notice = true) (flag : EntryFlag) :
    rest.countP (fun notice => flag.Warns notice) = 0 := by
  simpa [List.countP_eq_zero] using
    fun notice hmem => flag.not_warns_of_isOrdinary (hrest notice hmem)

/-- What the journal of a run holds once the given entries are read: the flags that these have are
remembered, and there is one warning of each of them. -/
structure Journal.Accounts (readings : List EntryReading) (journal : Journal) : Prop where
  remembers : ∀ flag, EntryFlag.kind flag ∈ journal.warned ↔
    ∃ reading ∈ readings, reading.Bears flag
  warns : ∀ flag : EntryFlag, journal.notices.toList.countP (fun notice => flag.Warns notice) =
    if ∃ reading ∈ readings, reading.Bears flag then 1 else 0

namespace Journal.Accounts

variable {before : List EntryReading} {journal : Journal}

theorem start : Accounts [] {} where
  remembers := by simp
  warns := by simp

/-- Ordinary notices leave the account as it is. -/
theorem noting (h : Accounts before journal) {added : List Notice}
    (hadded : ∀ notice ∈ added, Notice.isOrdinary notice = true) :
    Accounts before (journal.noting added) where
  remembers := h.remembers
  warns flag := by
    rw [toList_noting, List.countP_append, flag.countP_ordinary hadded, Nat.add_zero, h.warns]

/-- The warnings of fresh flags carry the account over the entry that has them. -/
theorem warning {reading : EntryReading} (h : Accounts before reading.journal) :
    Accounts (before ++ [reading])
      (reading.journal.warning (reading.freshFlags before)) where
  remembers flag := by
    rw [mem_warned_warning, EntryReading.mem_freshFlags, h.remembers,
      EntryReading.exists_mem_snoc]
    by_cases hearlier : ∃ earlier ∈ before, earlier.Bears flag <;> simp [hearlier]
  warns flag := by
    rw [toList_warning, List.countP_append, h.warns,
      EntryFlag.countP_map_notice (reading.nodup_freshFlags before)]
    simp only [EntryReading.mem_freshFlags, EntryReading.exists_mem_snoc]
    by_cases hearlier : ∃ earlier ∈ before, earlier.Bears flag <;> simp [hearlier]

/-- What an entry adds to a journal with an account, and the account after it. -/
theorem entry {reading : EntryReading} (h : Accounts before reading.journal) (policy : Policy) :
    Accounts (before ++ [reading]) (reading.after policy) ∧
      ∃ rest, (∀ notice ∈ rest, Notice.isOrdinary notice = true) ∧
        (reading.after policy).notices.toList = reading.journal.notices.toList ++
          ((reading.freshFlags before).map EntryFlag.notice ++ rest) := by
  obtain ⟨rest, hrest, hafter⟩ := reading.after_eq policy
  have hfresh : (EntryFlag.all.filter fun flag =>
      reading.Bears flag ∧ flag.kind ∉ reading.journal.warned) = reading.freshFlags before := by
    refine List.filter_congr fun flag _ => ?_
    simp [h.remembers flag]
  rw [hfresh] at hafter
  refine ⟨hafter ▸ h.warning.noting hrest, rest, hrest, ?_⟩
  rw [hafter, toList_noting, toList_warning, List.append_assoc]

/-- A run keeps the account of the entries that it reads. -/
theorem course (h : Accounts before journal) {policy : Policy} {readings : List EntryReading}
    {last : Journal} (hcourse : Course policy journal readings last) :
    Accounts (before ++ readings) last := by
  induction hcourse generalizing before with
  | stop => simpa using h
  | notice hordinary _ ih => exact ih (h.noting (by simpa using hordinary))
  | @entry reading _ _ _ ih =>
    have hnext := ih (h.entry policy).1
    rwa [List.append_assoc] at hnext

end Journal.Accounts

/-- Notices stay where they are. -/
theorem Course.exists_later {policy : Policy} {first last : Journal}
    {readings : List EntryReading} (h : Course policy first readings last) :
    ∃ later, last.notices.toList = first.notices.toList ++ later := by
  induction h with
  | stop => exact ⟨[], by simp⟩
  | @notice _ _ notice _ _ _ ih =>
    obtain ⟨later, hlater⟩ := ih
    exact ⟨notice :: later, by simp [hlater]⟩
  | @entry reading _ _ _ ih =>
    obtain ⟨later, hlater⟩ := ih
    obtain ⟨rest, -, hafter⟩ := reading.after_eq policy
    rw [hlater, hafter, Journal.toList_noting, Journal.toList_warning, List.append_assoc,
      List.append_assoc]
    exact ⟨_, rfl⟩

/-- Decoding, whether it succeeds or not, warns once of each flag that one of the entries that it
comes to has, and of no other. What an entry notes begins with the warnings of those of its flags
that no entry before it in the run has. So it is with every run: its notices are put behind those of
earlier runs, which have no influence on it. -/
theorem Contents.warns_of_decode (data : ByteArray) (policy : Policy) :
    let log := (run (decode data) policy).2.notices.toList
    let readings := trace data policy {}
    (∀ flag : EntryFlag, log.countP (fun notice => flag.Warns notice) =
      if ∃ reading ∈ readings, reading.Bears flag then 1 else 0) ∧
    (∀ before reading behind, readings = before ++ reading :: behind →
      ∃ rest later,
        (reading.after policy).notices.toList = reading.journal.notices.toList ++
          ((reading.freshFlags before).map EntryFlag.notice ++ rest) ∧
        (∀ notice ∈ rest, ∀ flag : EntryFlag, ¬ flag.Warns notice) ∧
        log = (reading.after policy).notices.toList ++ later) ∧
    ∀ world name, (World.objects world name).policy = policy →
      ((Operation.decode name data).perform world).2.logs name = world.logs name ++ log := by
  intro log readings
  have hcourse : Course policy {} readings (run (decode data) policy).2 :=
    Contents.of_decode data policy {}
  refine ⟨(Journal.Accounts.start.course hcourse).warns,
    fun before reading behind hreadings => ?_, fun world name hpolicy => ?_⟩
  · rw [hreadings] at hcourse
    obtain ⟨hbefore, hbehind⟩ := hcourse.split
    obtain ⟨-, rest, hrest, hafter⟩ := (Journal.Accounts.start.course hbefore).entry policy
    obtain ⟨later, hlater⟩ := hbehind.exists_later
    exact ⟨rest, later, hafter, fun notice hmem flag =>
      flag.not_warns_of_isOrdinary (hrest notice hmem), hlater⟩
  · have hperform : (Operation.decode name data).perform world = _ :=
      Operation.perform_decode hpolicy rfl
    rw [hperform]
    exact if_pos rfl

end CompiledResources
