import CompiledResources.Bytes

/-!
A cursor over a buffer. A step that succeeds moves the cursor past the bytes that it took; a step
that fails leaves the cursor where it was.
-/

namespace CompiledResources

/-- A buffer and an offset, which may lie outside of it. -/
structure Cursor where
  data : ByteArray
  offset : Int

namespace Cursor

/-- What to take from the buffer next. -/
inductive Step where
  | u8
  | u16
  | u32
  | bytes (width : Nat)
  | skip (width : Int)
deriving DecidableEq, Repr

/-- What a step took. -/
inductive Taken where
  | number (value : Nat)
  | bytes (values : List UInt8)
  | nothing
deriving DecidableEq, Repr

namespace Step

/-- The number of bytes that a step asks for. -/
def width : Step → Int
  | u8 => 1
  | u16 => 2
  | u32 => 4
  | bytes width => width
  | skip width => width

/-- Takes the bytes of a step at an offset. -/
def take (data : ByteArray) (offset : Int) : Step → Except Fault Taken
  | u8 => (Bytes.u8At data offset).map .number
  | u16 => (Bytes.u16At data offset).map .number
  | u32 => (Bytes.u32At data offset).map .number
  | bytes width => (Bytes.bytesAt data offset width).map .bytes
  | skip width =>
    if Bytes.Fits data.size offset width then .ok .nothing
    else .error (Bytes.outOfBounds data offset width)

end Step

/-- Performs one step. -/
def step (cursor : Cursor) (s : Step) : Except Fault Taken × Cursor :=
  match s.take cursor.data cursor.offset with
  | .ok taken => (.ok taken, { cursor with offset := cursor.offset + s.width })
  | .error fault => (.error fault, cursor)

/-- Performs steps one after another, whether they succeed or not, and tells for each what it gave
and where the cursor stood after it. -/
def run (cursor : Cursor) : List Step → List (Except Fault Taken × Int)
  | [] => []
  | s :: rest =>
    let (result, next) := cursor.step s
    (result, next.offset) :: next.run rest

end Cursor
end CompiledResources
