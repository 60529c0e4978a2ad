import StackScript.Command.Session

/-!
# The command

Reads the file that the arguments name, prints what there is to print, logs to standard error, and
writes the image if one is asked for.
-/

namespace StackScript.Command

/-- More rounds than any run lives to see. -/
def unlimitedRounds : Nat := Nat.pow 2 62

/-- The reason for a failed operation on a file. -/
def fileReason (error : IO.Error) : String :=
  match error with
  | .noFileOrDirectory .. => "No such file or directory (os error 2)"
  | .permissionDenied .. => "Permission denied (os error 13)"
  | other => toString other

/-- Read a file. -/
def readBytes (path : String) : IO (Except String (List UInt8)) := do
  match ← (IO.FS.readBinFile path).toBaseIO with
  | .ok bytes => return .ok bytes.toList
  | .error error => return .error (fileReason error)

/-- Write a file. -/
def writeBytes (path : String) (bytes : List UInt8) : IO (Except String Unit) := do
  match ← (IO.FS.writeBinFile path ⟨bytes.toArray⟩).toBaseIO with
  | .ok () => return .ok ()
  | .error error => return .error (fileReason error)

end StackScript.Command

open StackScript.Command

/-- Run the command. -/
def main (arguments : List String) : IO UInt32 := do
  match Options.ofArguments? arguments with
  | none =>
    IO.eprintln "the arguments are not in order"
    return 2
  | some options =>
    match Session.run unlimitedRounds options (← readBytes options.file) with
    | none => return 1
    | some outcome =>
      IO.print outcome.report.output
      let report ← match outcome.image with
        | none => pure outcome.report
        | some (path, bytes) => do
          pure (Session.written outcome.report path (← writeBytes path bytes))
      for event in report.log do
        IO.eprintln event.text
      return UInt32.ofNat report.exitCode
