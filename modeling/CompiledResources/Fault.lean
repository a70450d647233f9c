import CompiledResources.Text.Numeral

/-!
The faults that end decoding: a broken rule about a reserved field, a feature that is not decoded,
and a layout that cannot be followed. Each carries the offset at which it was found, and its message
ends with that offset.
-/

namespace CompiledResources

open Numeral

/-- A rule about the value of a reserved or identifying field. -/
inductive Rule where
  | typeSpecIdNotZero
  | typeSpecReservedZero
  | typeIdNotZero
  | typeFlagsKnown
  | typeReservedZero
  | valueReservedZero
  /-- A rule of the embedding program, in its own words. -/
  | stated (message : Text)
deriving DecidableEq, Repr

namespace Rule

/-- What is wrong where the rule is broken. -/
def message : Rule → Text
  | typeSpecIdNotZero => "File format violation in type spec table: id is zero"
  | typeSpecReservedZero => "File format violation in type spec table: res0 is not zero"
  | typeIdNotZero => "File format violation in type table: id is zero"
  | typeFlagsKnown => "File format violation in type table: flags is not zero or one"
  | typeReservedZero => "File format violation in type table: reserved is not zero"
  | valueReservedZero => "File format violation: res0 is not zero"
  | stated message => message

end Rule

/-- An encoding that is recognised and not decoded. -/
inductive Feature where
  /-- Entry offsets of 16 bits. -/
  | shortOffsets
deriving DecidableEq, Repr

namespace Feature

/-- The refusal of the feature. -/
def message : Feature → Text
  | shortOffsets => "Unsupported resource type entry: FLAG_OFFSET16"

end Feature

/-- Why a layout cannot be followed. -/
inductive LayoutError where
  /-- A read of `width` bytes leaves a buffer of `size` bytes. -/
  | outOfBounds (width : Int) (size : Nat)
  /-- A chunk too small for its own header. -/
  | chunkTooSmall (kind size : Nat)
  | notAStringPool (kind : Nat) (purpose : Text)
  | notATable (kind : Nat)
  | tableHeaderTooSmall (headerSize : Nat)
  | tableTruncated (declared available : Nat)
  /-- A stream that announces a table too small for its own header. -/
  | tableTooSmall (declared : Nat)
  /-- A type chunk without a type spec before it in its package chunk. -/
  | undeclaredType (id : Nat)
  /-- A fault found by the producer of the bytes, in its own words. -/
  | reported (message : Text)
deriving DecidableEq, Repr

namespace LayoutError

/-- What cannot be followed. -/
def message : LayoutError → Text
  | outOfBounds width size =>
    "Read of " ++ decimal width ++ " byte(s) exceeds buffer of " ++ decimal size ++ " bytes"
  | chunkTooSmall kind size => "Chunk of type " ++ hex kind ++ " declares size " ++ decimal size
  | notAStringPool kind purpose => "Unexpected block type " ++ hex kind ++ " for " ++ purpose
  | notATable kind => "Expected a resource table chunk, found type " ++ hex kind
  | tableHeaderTooSmall headerSize =>
    "Resource table header of " ++ decimal headerSize ++ " bytes is too small"
  | tableTruncated declared available =>
    "Resource table declares " ++ decimal declared ++ " bytes but only " ++ decimal available ++
      " are available"
  | tableTooSmall declared => "Resource table declares size " ++ decimal declared
  | undeclaredType id => "Reference to undeclared type " ++ decimal id ++ " found"
  | reported message => message

end LayoutError

/-- A fault and the offset at which it was found. -/
inductive Fault where
  | violation (rule : Rule) (offset : Int)
  | unsupported (feature : Feature) (offset : Int)
  | layout (error : LayoutError) (offset : Int)
deriving DecidableEq, Repr

/-- A message and the offset that it is about. -/
def located (message : Text) (offset : Int) : Text :=
  message ++ " offset=" ++ hex offset

namespace Fault

/-- Where the fault was found. -/
def offset : Fault → Int
  | violation _ offset | unsupported _ offset | layout _ offset => offset

/-- The fault in words, its offset last. -/
def message : Fault → Text
  | violation rule offset => located rule.message offset
  | unsupported feature offset => located feature.message offset
  | layout error offset => located error.message offset

end Fault
end CompiledResources
