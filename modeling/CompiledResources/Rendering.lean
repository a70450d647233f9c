import CompiledResources.Binary64.Shortest
import CompiledResources.Model
import CompiledResources.ResourceId
import CompiledResources.Text.Quoted

/-!
Values, qualifiers and resources as text, close to how they are written in resource files.
-/

namespace CompiledResources

open Numeral

namespace Value

/-- A colour channel: at least two hexadecimal digits. -/
def channel (n : Int) : Text := hexPadded 2 (word n)

/-- What follows the number of a fraction. -/
def fractionSuffix : FractionBase → Text
  | .whole => "%"
  | .parent => "%p"

/-- Texts with a comma and a space between neighbours. -/
def listed (texts : List Text) : Text := Text.join ", " texts

mutual

/-- The text of a value. -/
def render : Value → Text
  | .null => "@null"
  | .reference id => "@" ++ ResourceId.toText id
  | .attribute id => "?" ++ ResourceId.toText id
  | .string none => "null"
  | .string (some text) => text.quoted
  | .integer value => decimal value
  | .float value => value.toText
  | .boolean value => if value then "true" else "false"
  | .color alpha red green blue =>
    "#" ++ channel alpha ++ channel red ++ channel green ++ channel blue
  | .dimension value unit => value.toText ++ unit.suffix
  | .fraction value base => (value.scale 100).toText ++ fractionSuffix base
  | .array elements => "[" ++ listed (renderElements elements) ++ "]"
  | .complex _ records => "\x7b" ++ listed (renderRecords records) ++ "\x7d"

/-- The texts of array elements. -/
def renderElements : List Value → List Text
  | [] => []
  | value :: rest => render value :: renderElements rest

/-- The texts of map records. -/
def renderRecords : List (Text × Value) → List Text
  | [] => []
  | (name, value) :: rest => (name ++ "=" ++ render value) :: renderRecords rest

end
end Value

/-- A resource on one line: its id, its name and its value. -/
def Resource.render (resource : Resource) : Text :=
  ResourceId.toText resource.id ++ " " ++ resource.name ++ " = " ++ resource.value.render

namespace Qualifiers

/-- The qualifier of an orientation. -/
def orientationName? (orientation : Int) : Option Text :=
  match orientation with
  | 1 => some "port"
  | 2 => some "land"
  | 3 => some "square"
  | _ => none

/-- The qualifier of a screen density. -/
def densityName (density : Int) : Text :=
  match density with
  | 120 => "ldpi"
  | 160 => "mdpi"
  | 213 => "tvdpi"
  | 240 => "hdpi"
  | 320 => "xhdpi"
  | 480 => "xxhdpi"
  | 640 => "xxxhdpi"
  | 0xfffe => "anydpi"
  | 0xffff => "nodpi"
  | _ => decimal density ++ "dpi"

/-- The qualifier of a number, unless the number is zero. -/
def ofNumber (number : Int) (qualifier : Int → Text) : Option Text :=
  if number = 0 then none else some (qualifier number)

/-- The qualifier of a name, unless the name is empty. -/
def ofName (before name : Text) : Option Text :=
  if name = .empty then none else some (before ++ name)

/-- The qualifiers that are set, in the order of directory names. -/
def parts (q : Qualifiers) : List Text :=
  [ ofNumber q.mcc fun n => "mcc" ++ decimal n,
    ofNumber q.mnc fun n => "mnc" ++ decimal n,
    ofName "" q.language,
    ofName "r" q.country,
    ofName "s" q.script,
    ofNumber q.smallestWidth fun n => "sw" ++ decimal n ++ "dp",
    ofNumber q.availableWidth fun n => "w" ++ decimal n ++ "dp",
    ofNumber q.availableHeight fun n => "h" ++ decimal n ++ "dp",
    orientationName? q.orientation,
    ofNumber q.density densityName,
    ofNumber q.sdkVersion fun n => "v" ++ decimal n ].filterMap id

/-- The qualifiers that are set with hyphens between them, such as `en-rUS-land-v21`. -/
def render (q : Qualifiers) : Text :=
  if q.parts.isEmpty then "default" else Text.join "-" q.parts

end Qualifiers
end CompiledResources
