import CompiledResources.CommandLine
import Std.Time.DateTime

/-!
The program. It reads the arguments, the file and the clock, and writes what the report of the
invocation says.
-/

namespace CompiledResources.Main

/-- A number in at least `width` decimal digits. -/
def paddedDecimal (width n : Nat) : String :=
  let digits := Nat.toDigits 10 n
  String.ofList (List.replicate (width - digits.length) '0' ++ digits)

/-- Hours, minutes, seconds and thousandths of an instant. -/
def timeOfDay (milliseconds : Nat) : String :=
  let seconds := milliseconds / 1000
  String.intercalate ":"
    [paddedDecimal 2 (seconds / 3600 % 24), paddedDecimal 2 (seconds / 60 % 60),
      paddedDecimal 2 (seconds % 60) ++ "." ++ paddedDecimal 3 (milliseconds % 1000)]

/-- The present time of day. -/
def now : IO Text := do
  let instant ← Std.Time.Timestamp.now
  return timeOfDay instant.toMillisecondsSinceUnixEpoch.val.toNat

/-- The number of an error, of which some system calls give the negative. -/
def errorNumber (code : UInt32) : UInt32 := min code (0 - code)

/-- Reads the file at a path. -/
def readFile (path : String) : IO (Except FileFailure ByteArray) := do
  try
    return .ok (← IO.FS.readBinFile path)
  catch
    | .noFileOrDirectory .. => return .error .missing
    | .permissionDenied .. => return .error .denied
    | .inappropriateType _ code _ =>
      return .error (if errorNumber code = 21 then .isDirectory else .notDirectory)
    | error@(.invalidArgument _ code _) =>
      return .error (if errorNumber code = 36 then .nameTooLong else .other (toString error))
    | error => return .error (.other (toString error))

/-- Writes the lines of a report. -/
def write (verbose : Bool) (lines : List CommandLine.Line) : IO Unit := do
  for line in lines do
    if let some (channel, text) := line.write? verbose (← now) then
      if channel.isOutput then IO.println text.toStringLossy
      else IO.eprintln text.toStringLossy

end CompiledResources.Main

open CompiledResources in
/-- Answers the query that the arguments ask. -/
def main (args : List String) : IO UInt32 := do
  match CommandLine.Invocation.ofArguments? (args.map Text.ofString) with
  | none =>
    IO.eprintln <|
      "usage: [--lenient] [--verbose] " ++
        "dump FILE | find FILE ID | string FILE NAME | type FILE NAME"
    return 1
  | some invocation =>
    let directory ← IO.currentDir
    let report ← invocation.run (fun path => Main.readFile path.toStringLossy) directory.toString
    Main.write invocation.verbose report.lines
    return UInt32.ofNat report.exit
