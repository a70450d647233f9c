import CompiledResources.Fault

/-!
What decoding reports on its way: violations that lenient decoding passes over, entries and records
that it leaves out, and a summary of each package.
-/

namespace CompiledResources

open Numeral

/-- How much a notice matters. -/
inductive Level where
  | debug
  | info
  | warn
  | error
deriving DecidableEq, Repr

/-- Why a value is not decoded. -/
inductive Refusal where
  | unknownUnit (code : Nat)
  | unknownType (code : Int)
  /-- The value at `offset` is larger than a value record. -/
  | oversizedValue (offset : Int)
  /-- Map record number `index`, at `offset`, holds a value larger than a value record. -/
  | oversizedRecord (index : Nat) (offset : Int)
deriving DecidableEq, Repr

namespace Refusal

/-- The reason in words. -/
def message : Refusal → Text
  | unknownUnit code => "invalid dimension unit " ++ decimal code
  | unknownType code => "unsupported data type " ++ hex code
  | oversizedValue offset => "value at " ++ hex offset ++ " declares a size above 8"
  | oversizedRecord index offset =>
    "map record " ++ decimal index ++ " at " ++ hex offset ++ " has an oversized value"

end Refusal

/-- One report. -/
inductive Notice where
  /-- A broken rule that lenient decoding passes over. -/
  | violation (rule : Rule) (offset : Int)
  | weakEntry
  | compactEntry
  /-- An entry header whose size does not fit its kind. -/
  | unknownEntrySize (size : Nat) (offset : Int)
  | entryLeftOut (name : Text) (refusal : Refusal)
  | recordLeftOut (name : Text) (refusal : Refusal)
  | unnamedType (id : Nat)
  | trailingConfigBytes (count : Nat) (offset : Int)
  | tableStart (packageCount : Nat)
  | packageStart (index id : Nat) (name : Text)
  | typeSummary (name : Text) (id : Int) (variants resources : Nat)
  /-- A notice of the embedding program, in its own words. -/
  | stated (level : Level) (message : Text)
deriving DecidableEq, Repr

namespace Notice

/-- How much the notice matters. -/
def level : Notice → Level
  | violation .. => .error
  | weakEntry | compactEntry | unknownEntrySize .. | entryLeftOut .. | recordLeftOut ..
  | unnamedType .. => .warn
  | trailingConfigBytes .. | tableStart .. | packageStart .. | typeSummary .. => .debug
  | stated level _ => level

/-- The notice in words. -/
def message : Notice → Text
  | violation rule offset => located rule.message offset
  | weakEntry => "Unsupported entry flag encountered: FLAG_WEAK"
  | compactEntry => "Unsupported entry flag encountered: FLAG_COMPACT"
  | unknownEntrySize size offset =>
    "Unknown entry type of size " ++ hex size ++ " at " ++ hex offset ++ ", skipping entry"
  | entryLeftOut name refusal =>
    "Could not parse resource " ++ name ++ ": " ++ refusal.message ++ ", skipping entry"
  | recordLeftOut name refusal => "Skipping map record " ++ name ++ ": " ++ refusal.message
  | unnamedType id => "Type id " ++ decimal id ++ " has no name in the type string pool"
  | trailingConfigBytes count offset =>
    "Excessive " ++ decimal count ++ " non-null bytes in config at " ++ hex offset ++ " ignored"
  | tableStart packageCount => "Package Groups (" ++ decimal packageCount ++ ")"
  | packageStart index id name =>
    "\tPackage " ++ decimal index ++ " id=" ++ decimal id ++ " name=" ++ name
  | typeSummary name id variants resources =>
    "\t\tType " ++ name ++ " (" ++ decimal (id - 1) ++ "), configCount=" ++ decimal variants ++
      ", entryCount=" ++ decimal resources
  | stated _ message => message

end Notice
end CompiledResources
