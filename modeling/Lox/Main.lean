import Std.Time.DateTime.Timestamp
import Lox.CommandLine

/-!
# The program

Reads the arguments and the file or the prompt's lines, and prints what the command line module
makes of them.
-/

set_option autoImplicit false

namespace Lox

open CommandLine

/-- The clock from now on, in time since the start of 1970. A run cannot look at the system's clock,
so it is given one that goes on by a millisecond with each reading. -/
def now : IO Clock := do
  let t ← Std.Time.Timestamp.now
  return .ticking t.toMillisecondsSinceUnixEpoch.val

/-- Reads lines and runs each as it comes. -/
partial def promptLoop (session : Session) : IO UInt32 := do
  let stdout ← IO.getStdout
  stdout.putStr promptMark
  stdout.flush
  let line ← (← IO.getStdin).getLine
  if line.isEmpty then
    stdout.putStr "\n"
    return 0
  match promptLine ampleFuel (session.atClock (← now))
      (String.join (splitLines [] line.toList)) with
  | some (session, out, err) =>
    stdout.write out
    (← IO.getStderr).putStr err
    promptLoop session
  | none => return 70

/-- The bytes of a file. An error that names the path arose while it was followed. -/
def fileBytes (path : String) : IO (Except FileError (List UInt8)) := do
  try
    return .ok (← IO.FS.readBinFile path).toList
  catch
    | .noFileOrDirectory .. => return .error .missing
    | .permissionDenied .. => return .error .forbidden
    | .inappropriateType (some _) .. => return .error .notFolder
    | .inappropriateType .. => return .error .isFolder
    | .invalidArgument .. => return .error .nameTooLong
    | _ => return .error .missing

end Lox

open Lox CommandLine

def main (arguments : List String) : IO UInt32 := do
  match Command.ofArguments? arguments with
  | none =>
    (← IO.getStderr).putStr usage
    return 2
  | some .prompt => promptLoop (.start .unlimited (← now))
  | some command =>
    let bytes ← match command.path? with
      | some path => fileBytes path
      | none => pure (.error .missing)
    match report ampleFuel (← now) command bytes "" with
    | some r =>
      (← IO.getStdout).write r.stdout
      (← IO.getStderr).putStr r.stderr
      return r.exitCode.toUInt32
    | none => return 70
