import CompiledResources.Layout.Contents
import CompiledResources.Proofs.Evidence

/-!
What decoding reports. A broken rule and a refused feature are reported with an offset, as a fault
or as a notice at the level of errors; the offset lies inside the bytes, and the bytes there show
the flaw that the words of the report name.
-/

namespace CompiledResources

/-- What may be wrong with a field. -/
inductive Flaw where
  | zeroId
  | reservedByte
  | unknownFlags
  | reservedUnit
  | shortOffsets
deriving DecidableEq

namespace Flaw

/-- The last words of a report of the flaw. -/
def words : Flaw → Text
  | zeroId => "id is zero"
  | reservedByte => "res0 is not zero"
  | unknownFlags => "flags is not zero or one"
  | reservedUnit => "reserved is not zero"
  | shortOffsets => "FLAG_OFFSET16"

/-- What the bytes at an offset are where a field has the flaw. -/
def Seen (data : ByteArray) (offset : Int) : Flaw → Prop
  | zeroId => Bytes.u8At data offset = .ok 0
  | reservedByte => ∃ byte, Bytes.u8At data offset = .ok byte ∧ byte ≠ 0
  | unknownFlags =>
    ∃ byte, Bytes.u8At data offset = .ok byte ∧ ∃ bit, bit ≠ 0 ∧ byte.testBit bit = true
  | reservedUnit => ∃ unit, Bytes.u16At data offset = .ok unit ∧ unit ≠ 0
  | shortOffsets => ∃ byte, Bytes.u8At data offset = .ok byte ∧ byte.testBit 1 = true

/-- The report ends in the words of the flaw. -/
def NamedBy (report : Text) (flaw : Flaw) : Prop := flaw.words.units <:+ report.units

instance (report : Text) (flaw : Flaw) : Decidable (flaw.NamedBy report) :=
  inferInstanceAs (Decidable (_ <:+ _))

/-- A number above one has a bit besides the lowest. -/
theorem exists_testBit_of_one_lt {n : Nat} (h : 1 < n) :
    ∃ bit, bit ≠ 0 ∧ n.testBit bit = true := by
  have hhalf : n / 2 ≠ 0 := by omega
  obtain ⟨bit, hbit⟩ := Nat.exists_testBit_of_ne_zero hhalf
  exact ⟨bit + 1, Nat.succ_ne_zero bit, by rwa [Nat.testBit_succ]⟩

theorem inside_of_seen {data : ByteArray} {offset : Int} {flaw : Flaw}
    (h : flaw.Seen data offset) : 0 ≤ offset ∧ offset < data.size := by
  have hread {width n : Nat} (hread : Bytes.numberAt width data offset = .ok n)
      (hwidth : 0 < width) : 0 ≤ offset ∧ offset < data.size := by
    obtain ⟨hstart, hend⟩ := (Bytes.fits_of_numberAt hread).1
    omega
  cases flaw with
  | zeroId => exact hread h (by decide)
  | reservedByte | unknownFlags | reservedUnit | shortOffsets =>
    obtain ⟨_, hbytes, -⟩ := h
    exact hread hbytes (by decide)

end Flaw

/-- The offset lies inside the bytes, the report names a flaw, and the bytes there show every flaw
that it names. -/
structure Bytes.BearOut (data : ByteArray) (report : Text) (offset : Int) : Prop where
  inside : 0 ≤ offset ∧ offset < data.size
  named : ∃ flaw : Flaw, flaw.NamedBy report
  seen : ∀ flaw : Flaw, flaw.NamedBy report → flaw.Seen data offset

namespace Bytes

variable {data : ByteArray} {offset : Int}

/-- A report that names one flaw is borne out where that flaw is seen. -/
theorem bearOut_of_seen (flaw : Flaw) {report : Text} (hseen : flaw.Seen data offset)
    (hnamed : ∀ other : Flaw, other.NamedBy report ↔ other = flaw) :
    BearOut data report offset where
  inside := Flaw.inside_of_seen hseen
  named := ⟨flaw, (hnamed flaw).mpr rfl⟩
  seen other hother := (hnamed other).mp hother ▸ hseen

theorem bearOut_of_rule {rule : Rule} (h : Fault.ShownBy data (.violation rule offset)) :
    BearOut data rule.message offset := by
  cases rule with
  | typeSpecIdNotZero | typeIdNotZero =>
    refine bearOut_of_seen .zeroId h fun other => ?_
    cases other <;> decide
  | typeSpecReservedZero | valueReservedZero =>
    refine bearOut_of_seen .reservedByte h fun other => ?_
    cases other <;> decide
  | typeFlagsKnown =>
    obtain ⟨byte, hbyte, hlt⟩ := h
    refine bearOut_of_seen .unknownFlags
      ⟨byte, hbyte, Flaw.exists_testBit_of_one_lt hlt⟩ fun other => ?_
    cases other <;> decide
  | typeReservedZero =>
    refine bearOut_of_seen .reservedUnit h fun other => ?_
    cases other <;> decide
  | stated message => exact h.elim

theorem bearOut_of_feature {feature : Feature}
    (h : Fault.ShownBy data (.unsupported feature offset)) :
    BearOut data feature.message offset := by
  cases feature with
  | shortOffsets =>
    refine bearOut_of_seen .shortOffsets h fun other => ?_
    cases other <;> decide

end Bytes

/-! ### What a run reports -/

namespace Decoder.Composed

variable {shown : Fault → Prop} {α : Type}

theorem eq_or_mem_of_push {notice other : Notice} {notices : Array Notice}
    (h : notice ∈ (notices.push other).toList) : notice = other ∨ notice ∈ notices.toList := by
  simpa [or_comm] using h

/-- A fault that ends a step and is none of the layout is shown. -/
theorem shown_of_error {step : Decoder α} (hstep : Composed shown step) {policy : Policy}
    {journal : Journal} {fault : Fault} (h : (run step policy journal).1 = .error fault) :
    (∃ error place, fault = .layout error place) ∨ shown fault := by
  induction hstep generalizing journal with
  | pure a => cases h
  | layout error place =>
    cases h
    exact .inl ⟨error, place, rfl⟩
  | unsupported feature place hshown =>
    cases h
    exact .inr hshown
  | violation rule place hshown =>
    cases policy with
    | strict =>
      cases h
      exact .inr hshown
    | lenient => cases h
  | note notice => cases h
  | noteOnce kind notice =>
    rw [run_noteOnce] at h
    cases h
  | @bind _ _ step next _ _ ihstep ihnext =>
    cases hrun : run step policy journal with
    | mk result after =>
      cases result with
      | ok a =>
        rw [run_bind_of_ok hrun] at h
        exact ihnext a h
      | error cause =>
        rw [run_bind_of_error hrun] at h
        cases h
        exact ihstep (by rw [hrun])

/-- What a step notes at the level of errors is a broken rule that is shown. -/
theorem shown_of_notice {step : Decoder α} (hstep : Composed shown step) {policy : Policy}
    {journal : Journal} {notice : Notice}
    (h : notice ∈ (run step policy journal).2.notices.toList) (hlevel : notice.level = .error) :
    notice ∈ journal.notices.toList ∨
      ∃ rule offset, notice = .violation rule offset ∧ shown (.violation rule offset) := by
  induction hstep generalizing journal with
  | pure a => exact .inl h
  | layout error place => exact .inl h
  | unsupported feature place hshown => exact .inl h
  | violation rule place hshown =>
    cases policy with
    | strict => exact .inl h
    | lenient =>
      rcases eq_or_mem_of_push h with rfl | hold
      · exact .inr ⟨rule, place, rfl, hshown⟩
      · exact .inl hold
  | note other hother =>
    rcases eq_or_mem_of_push h with rfl | hold
    · exact absurd hlevel hother
    · exact .inl hold
  | noteOnce kind other hother =>
    rw [run_noteOnce] at h
    split at h
    · exact .inl h
    · rcases eq_or_mem_of_push h with rfl | hold
      · exact absurd hlevel hother
      · exact .inl hold
  | @bind _ _ step next _ _ ihstep ihnext =>
    cases hrun : run step policy journal with
    | mk result after =>
      have hfirst (hafter : notice ∈ after.notices.toList) :
          notice ∈ journal.notices.toList ∨ ∃ rule offset,
            notice = .violation rule offset ∧ shown (.violation rule offset) :=
        ihstep (by rw [hrun]; exact hafter)
      cases result with
      | error cause =>
        rw [run_bind_of_error hrun] at h
        exact hfirst h
      | ok a =>
        rw [run_bind_of_ok hrun] at h
        rcases ihnext a h with hbefore | hshown
        · exact hfirst hbefore
        · exact .inr hshown

end Decoder.Composed

/-- Reports point at the field that is wrong. Whatever bytes are decoded under either policy: a
fault that is none of the layout, and every notice at the level of errors, is its words with an
offset behind them in hexadecimal digits, and at that offset the bytes show the flaw that the words
name. -/
theorem Contents.reports_of_decode (data : ByteArray) (policy : Policy) :
    let (outcome, journal) := (Contents.decode data).run policy
    (∀ fault, outcome = .error fault → (∀ error place, fault ≠ .layout error place) →
      ∃ report, fault.message = report ++ " offset=" ++ Numeral.hex fault.offset ∧
        Bytes.BearOut data report fault.offset) ∧
    ∀ notice ∈ journal.notices.toList, notice.level = .error →
      ∃ report offset, notice.message = report ++ " offset=" ++ Numeral.hex offset ∧
        Bytes.BearOut data report offset := by
  have hcomposed := Contents.composed_decode data
  constructor
  · intro fault houtcome hlayout
    rcases hcomposed.shown_of_error houtcome with ⟨error, place, rfl⟩ | hshown
    · exact absurd rfl (hlayout error place)
    · cases fault with
      | violation rule offset => exact ⟨rule.message, rfl, Bytes.bearOut_of_rule hshown⟩
      | unsupported feature offset =>
        exact ⟨feature.message, rfl, Bytes.bearOut_of_feature hshown⟩
      | layout error offset => exact absurd rfl (hlayout error offset)
  · intro notice hnotice hlevel
    rcases hcomposed.shown_of_notice hnotice hlevel with hstart | ⟨rule, offset, rfl, hshown⟩
    · cases hstart
    · exact ⟨rule.message, offset, rfl, Bytes.bearOut_of_rule hshown⟩

/-- A table with a package that declares a type of id zero. -/
def Layout.TablePlan.unnumbered : Layout.TablePlan where
  chunks := [.package {
    id := 127, name := "app", typeNames := ["id"], keyNames := ["a"], nested := [.typeSpec 0 1] }]

open Decoder in
theorem Contents.reports_of_decode_unnumbered :
    let data : ByteArray := ⟨Layout.TablePlan.unnumbered.bytes.toArray⟩
    let fault : Fault := .violation .typeSpecIdNotZero 0x1a0
    let notice : Notice := .violation .typeSpecIdNotZero 0x1a0
    ((∃ after, run (Contents.decode data) .strict = (.error fault, after)) ∧
      ∃ report, fault.message = report ++ " offset=" ++ Numeral.hex fault.offset ∧
        Bytes.BearOut data report fault.offset) ∧
    (∃ result after, run (Contents.decode data) .lenient = (result, after) ∧
      notice ∈ after.notices.toList ∧ notice.level = .error) ∧
    ∃ report offset, notice.message = report ++ " offset=" ++ Numeral.hex offset ∧
      Bytes.BearOut data report offset := by
  intro data fault notice
  have hreports (bytes : ByteArray) (policy : Policy) {outcome journal}
      (hrun : run (Contents.decode bytes) policy = (outcome, journal)) :=
    hrun ▸ Contents.reports_of_decode bytes policy
  have hrefused : (match (run (Contents.decode data) .strict).1 with
      | .ok _ => none
      | .error found => some found) = some fault := by
    decide +kernel
  have hnotice : notice ∈ (run (Contents.decode data) .lenient).2.notices.toList := by
    decide +kernel
  constructor
  · cases hrun : run (Contents.decode data) .strict with
    | mk outcome after =>
      rw [hrun] at hrefused
      cases outcome with
      | ok contents => cases hrefused
      | error found =>
        obtain rfl := Option.some.inj hrefused
        exact ⟨⟨after, rfl⟩, (hreports data .strict hrun).1 fault rfl fun _ _ => Fault.noConfusion⟩
  · cases hrun : run (Contents.decode data) .lenient with
    | mk outcome after =>
      rw [hrun] at hnotice
      exact ⟨⟨outcome, after, rfl, hnotice, rfl⟩,
        (hreports data .lenient hrun).2 notice hnotice rfl⟩

end CompiledResources
