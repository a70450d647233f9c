import CompiledResources.Layout.Number
import CompiledResources.Qualifiers

/-!
The record of configuration qualifiers as bytes. The fields that all records together know take 48
bytes; a record is cut or filled up with zeros to the size that it declares, and keeps nothing of
the fields behind it.
-/

namespace CompiledResources.Layout

/-- A field of `width` bytes that holds a number. -/
def numberField (width : Nat) (n : Int) : List UInt8 :=
  number width (n % Bytes.capacity width).toNat

/-- A field of `width` bytes that holds characters, one byte each. -/
def charsField (width : Nat) (t : Text) : List UInt8 :=
  (t.units.map fun u => UInt8.ofNat u.toNat).take width ++
    List.replicate (width - t.length) 0

/-- All fields of a record, in their order. -/
def allFields (q : Qualifiers) : List UInt8 :=
  numberField 4 q.size ++ numberField 2 q.mcc ++ numberField 2 q.mnc ++
    charsField 2 q.language ++ charsField 2 q.country ++
    numberField 1 q.orientation ++ numberField 1 q.touchscreen ++ numberField 2 q.density ++
    numberField 1 q.keyboard ++ numberField 1 q.navigation ++
    numberField 1 q.inputFlags ++ numberField 1 q.inputPad ++
    numberField 2 q.screenWidth ++ numberField 2 q.screenHeight ++
    numberField 2 q.sdkVersion ++ numberField 2 q.minorVersion ++
    numberField 1 q.screenLayout ++ numberField 1 q.uiMode ++ numberField 2 q.smallestWidth ++
    numberField 2 q.availableWidth ++ numberField 2 q.availableHeight ++
    charsField 4 q.script ++ charsField 8 q.variant

/-- The record of the declared size. -/
def qualifiers (q : Qualifiers) : List UInt8 :=
  let size := q.size.toNat
  let fields := allFields q
  (fields ++ List.replicate (size - fields.length) 0).take size

/-- What a character field keeps: no zeros at the end, which fill a field up. -/
def keptChars (t : Text) : Text := t.stripEnd (· == 0)

/-- What a record keeps of the qualifiers: its character fields as they are kept, and of the groups
of fields that came later those that are not behind the size that the record declares. -/
def keptQualifiers (q : Qualifiers) : Qualifiers :=
  { q with
    language := keptChars q.language
    country := keptChars q.country
    screenLayout := if q.size < 32 then 0 else q.screenLayout
    uiMode := if q.size < 32 then 0 else q.uiMode
    smallestWidth := if q.size < 32 then 0 else q.smallestWidth
    availableWidth := if q.size < 36 then 0 else q.availableWidth
    availableHeight := if q.size < 36 then 0 else q.availableHeight
    script := if q.size < 40 then .empty else keptChars q.script
    variant := if q.size < 48 then .empty else keptChars q.variant }

end CompiledResources.Layout
