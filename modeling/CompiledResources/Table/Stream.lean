import CompiledResources.Table

/-!
Tables from byte streams. The first eight bytes of a stream declare the size of the table, and just
as many bytes are taken, however the stream is cut into blocks. What comes after the last of them,
a failure included, is not seen.
-/

namespace CompiledResources

/-- Why a stream breaks off. -/
inductive StreamFailure where
  /-- A failure in the terms of tables. -/
  | known (error : TableError)
  | other (message : Text)
deriving DecidableEq, Repr

namespace StreamFailure

/-- The error when `received` of the `expected` bytes came before the stream broke off or, if it did
not break off, ended. -/
def toError (received expected : Nat) : Option StreamFailure → TableError
  | none => .unreadable (.streamEnded received expected)
  | some (.known error) => error
  | some (.other message) => .unreadable (.streamFailed message)

end StreamFailure

/-- What has been taken from a stream. -/
inductive Intake where
  /-- Some of the bytes that declare the size of the table. -/
  | prologue (taken : ByteArray)
  /-- All of these, and some of the bytes of the table. -/
  | body (declared : Nat) (taken : ByteArray)
  /-- The table. -/
  | complete (table : ByteArray)
  /-- Bytes that declare a size that no table has. -/
  | refused (declared : Nat)

namespace Intake

/-- Number of bytes that declare the size of a table. -/
def prologueSize : Nat := 8

/-- Takes bytes from a block until the table has its declared size. -/
def takeBody (declared : Nat) (taken block : ByteArray) : Intake :=
  let taken := taken ++ block.extract 0 (declared - taken.size)
  if taken.size = declared then .complete taken else .body declared taken

/-- Takes bytes from a block: first those that declare the size, and then, from the rest of the
block, those of the table. -/
def takePrologue (taken block : ByteArray) : Intake :=
  let missing := prologueSize - taken.size
  let taken := taken ++ block.extract 0 missing
  match Bytes.u32At taken 4 with
  | .error _ => .prologue taken
  | .ok declared =>
    if declared < 12 then .refused declared
    else takeBody declared taken (block.extract missing block.size)

/-- Takes what is still wanted from a block. -/
def take : Intake → ByteArray → Intake
  | .prologue taken, block => takePrologue taken block
  | .body declared taken, block => takeBody declared taken block
  | .complete table, _ => .complete table
  | .refused declared, _ => .refused declared

/-- What is left when the stream is over: the table, or why there is none. -/
def finish (failure : Option StreamFailure) : Intake → Except TableError ByteArray
  | .prologue taken => .error (StreamFailure.toError taken.size prologueSize failure)
  | .body declared taken => .error (StreamFailure.toError taken.size declared failure)
  | .complete table => .ok table
  | .refused declared => .error (.fault (.layout (.tableTooSmall declared) 0))

end Intake

/-- Blocks of bytes in the order in which they come, and the failure after them, if there is one. -/
structure ByteStream where
  blocks : List ByteArray
  failure : Option StreamFailure := none

/-- The bytes of the table at the start of a stream. -/
def ByteStream.gather (stream : ByteStream) : Except TableError ByteArray :=
  (stream.blocks.foldl Intake.take (.prologue .empty)).finish stream.failure

/-- Parses the table at the start of a stream, which is read only when the table is not yet
ready. -/
def Table.parseStream (table : Table) (stream : ByteStream) : Outcome Table :=
  if table.isReady then { result := .error (.notEmpty .ready) }
  else
    match stream.gather with
    | .ok data => table.parse data
    | .error error => { result := .error error }

end CompiledResources
