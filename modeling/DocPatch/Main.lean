import DocPatch.CommandLine
import Std.Time.DateTime.Timestamp

/-! The program. -/

namespace DocPatch

/-- The number of a system error; some come negated. -/
def systemCode (code : UInt32) : Nat :=
  if code.toNat < Nat.pow 2 31 then code.toNat else (0 - code).toNat

/-- The failure that an input or output error amounts to. -/
def fileError (error : IO.Error) : FileError :=
  -- One constructor stands for several errors, so the number decides.
  let failure (cause : SystemError) (code : UInt32) : FileError :=
    if systemCode code = cause.code then .system cause else .other (toString error)
  match error with
  | .noFileOrDirectory .. => .system .missing
  | .permissionDenied _ code _ => failure .denied code
  | .inappropriateType _ code _ =>
    if systemCode code = SystemError.directory.code then .system .directory
    else failure .notDirectory code
  | .invalidArgument _ code _ => failure .nameTooLong code
  | _ => .other (toString error)

/-- Runs a reading of bytes and takes them for text; `garbled` tells that they are none. -/
def readText (garbled : FileError) (read : IO ByteArray) : IO (Except FileError String) := do
  match ← read.toBaseIO with
  | .error error => return .error (fileError error)
  | .ok bytes =>
    -- A file may hold any bytes, but only text is read further.
    match String.fromUTF8? bytes with
    | some text => return .ok text
    | none => return .error garbled

/-- The present time. -/
def presentTime : IO Timestamp := do
  let elapsed := (← Std.Time.Timestamp.now).toNanosecondsSinceUnixEpoch.val
  let second : Int := Timestamp.nanosecondsPerSecond
  return ⟨elapsed / second, (elapsed % second).toNat⟩

/-- The files, the standard input and the clock of the process. -/
def process : CommandLine.Surroundings IO where
  fileText name := readText .notText (IO.FS.readBinFile name)
  inputText :=
    readText (.custom "InvalidData" FileError.notTextMessage) do (← IO.getStdin).readBinToEnd
  now := presentTime

end DocPatch

def main (arguments : List String) : IO UInt32 := do
  let report ← DocPatch.CommandLine.execute DocPatch.process arguments
  IO.print report.output
  IO.eprint report.errors
  return report.exitCode.toUInt32
