import CompiledResources.Qualifiers

/-!
The fields of a record of qualifiers: the bytes in which each of them is stored, and what these
bytes stand for. The fields follow one another from the first byte to the 48th.
-/

namespace CompiledResources.Qualifiers

/-- What a field holds. -/
inductive FieldValue where
  | number (n : Int)
  | chars (text : Text)
deriving DecidableEq, Repr

/-- The bytes of a field store the value, and nothing of it is lost. -/
def FieldValue.Fits (width : Nat) : FieldValue → Prop
  | number n => 0 ≤ n ∧ n < Bytes.capacity width
  | chars text =>
    text.length ≤ width ∧ (∀ u ∈ text.units, u.toNat < 256) ∧ text.units.getLast? ≠ some 0

instance (width : Nat) : (value : FieldValue) → Decidable (value.Fits width)
  | .number n => inferInstanceAs (Decidable (0 ≤ n ∧ n < Bytes.capacity width))
  | .chars text =>
    have : Decidable (∀ u ∈ text.units, u.toNat < 256) := List.decidableBAll _ _
    inferInstanceAs (Decidable (text.length ≤ width ∧ (∀ u ∈ text.units, u.toNat < 256) ∧
      text.units.getLast? ≠ some 0))

/-- A field of a record. -/
structure Field where
  /-- Number of bytes of the record before it. -/
  position : Nat
  width : Nat
  /-- What the field holds in given qualifiers. -/
  value : Qualifiers → FieldValue
  /-- What its bytes stand for. -/
  decode : List UInt8 → FieldValue

namespace Field

/-- A field of a little-endian number. -/
def number (position width : Nat) (get : Qualifiers → Int) : Field where
  position := position
  width := width
  value q := .number (get q)
  decode bytes := .number (littleEndian bytes)

/-- A field of characters. -/
def chars (position width : Nat) (get : Qualifiers → Text) : Field where
  position := position
  width := width
  value q := .chars (get q)
  decode bytes := .chars (charsOfField bytes)

/-- Number of bytes of the record up to its end. -/
def stop (field : Field) : Nat := field.position + field.width

/-- Its bytes in a record. -/
def slice (field : Field) (record : List UInt8) : List UInt8 :=
  (record.drop field.position).take field.width

end Field

/-- All fields, in the order in which they are stored. -/
def fields : List Field := [
  .number 0 4 size, .number 4 2 mcc, .number 6 2 mnc, .chars 8 2 language, .chars 10 2 country,
  .number 12 1 orientation, .number 13 1 touchscreen, .number 14 2 density,
  .number 16 1 keyboard, .number 17 1 navigation, .number 18 1 inputFlags, .number 19 1 inputPad,
  .number 20 2 screenWidth, .number 22 2 screenHeight, .number 24 2 sdkVersion,
  .number 26 2 minorVersion, .number 28 1 screenLayout, .number 29 1 uiMode,
  .number 30 2 smallestWidth, .number 32 2 availableWidth, .number 34 2 availableHeight,
  .chars 36 4 script, .chars 40 8 variant]

/-- The qualifiers are those of a record: a field within the record holds what its bytes stand for,
and a field behind it holds what it does when nothing is said. -/
def OfRecord (q : Qualifiers) (record : List UInt8) : Prop :=
  ∀ field ∈ fields,
    field.value q =
      if field.stop ≤ record.length then field.decode (field.slice record) else field.value {}

/-- A record of the declared size stores all of the qualifiers: the size ends with a group of
fields, every field has room for what it holds, and those behind the size hold nothing. -/
structure Recorded (q : Qualifiers) : Prop where
  stage : q.size = 28 ∨ q.size = 32 ∨ q.size = 36 ∨ q.size = 40 ∨ 48 ≤ q.size
  fits : ∀ field ∈ fields, (field.value q).Fits field.width
  behind : ∀ field ∈ fields, q.size < field.stop → field.value q = field.value {}

instance (q : Qualifiers) : Decidable q.Recorded :=
  decidable_of_iff
    ((q.size = 28 ∨ q.size = 32 ∨ q.size = 36 ∨ q.size = 40 ∨ 48 ≤ q.size) ∧
      (∀ field ∈ fields, (field.value q).Fits field.width) ∧
      ∀ field ∈ fields, q.size < field.stop → field.value q = field.value {})
    ⟨fun ⟨stage, fits, behind⟩ => ⟨stage, fits, behind⟩, fun h => ⟨h.stage, h.fits, h.behind⟩⟩

/-- Qualifiers that agree in every field are the same. -/
theorem eq_of_fields {a b : Qualifiers} (h : ∀ field ∈ fields, field.value a = field.value b) :
    a = b := by
  cases a
  cases b
  simpa [fields, Field.number, Field.chars] using h

/-- Of a record, the fields know nothing behind its 48th byte. -/
theorem stop_le {field : Field} (h : field ∈ fields) : field.stop ≤ 48 := by
  have hall : ∀ field ∈ fields, field.stop ≤ 48 := by decide
  exact hall field h

end CompiledResources.Qualifiers
