/-
  LineLisp.Main — the command line. Without arguments it is the plain front end, with the
  argument `repl` the editing one. All that is decided here is when to read and to write, and
  what the system's errors are called.
-/

import LineLisp.Console

namespace LineLisp.Main

open Console

/-- Writes to the two outputs at once. -/
def write (w : Written) : IO Unit := do
  IO.print w.stdout
  (← IO.getStdout).flush
  IO.eprint w.stderr

/-- Reads and runs lines to the end of the session, and gives those that were read, the last
    one first. -/
partial def loop (fe : FrontEnd) (settings : Settings) (m : Machine) (read : List String) :
    IO (List String) := do
  write ⟨fe.prompt, ""⟩
  match Text.lines (← (← IO.getStdin).getLine) with
  | [] =>
    write (.lines fe.farewell)
    return read
  | typed :: _ =>
    let line := fe.received Text.erased typed
    let (written, next) := turn settings m line
    write written
    match next with
    | none => return line :: read
    | some m' => loop fe settings m' (line :: read)

/-- The environment's texts of the variables. -/
def environment : IO Lookup := do
  let texts ← Variable.all.mapM fun v => return (v.name, ← IO.getEnv v.name)
  return fun name => (texts.lookup name).join

/-! ## Files -/

/-- What an error of the system is called, by its number. -/
def kindName : UInt32 → String
  | 1 | 13 => "PermissionDenied"
  | 2 => "NotFound"
  | 4 => "Interrupted"
  | 12 => "OutOfMemory"
  | 16 => "ResourceBusy"
  | 20 => "NotADirectory"
  | 21 => "IsADirectory"
  | 22 => "InvalidInput"
  | 26 => "ExecutableFileBusy"
  | 27 => "FileTooLarge"
  | 28 => "StorageFull"
  | 30 => "ReadOnlyFilesystem"
  | 36 => "InvalidFilename"
  | 40 => "FilesystemLoop"
  | 122 => "QuotaExceeded"
  | _ => "Uncategorized"

def fileError : IO.Error → FileError
  | .alreadyExists _ code message | .interrupted _ code message | .noFileOrDirectory _ code message
  | .invalidArgument _ code message | .permissionDenied _ code message | .resourceExhausted _ code message
  | .inappropriateType _ code message | .noSuchThing _ code message | .otherError code message
  | .resourceBusy code message | .resourceVanished code message | .unsupportedOperation code message
  | .hardwareFault code message | .unsatisfiedConstraints code message | .illegalOperation code message
  | .protocolError code message | .timeExpired code message => ⟨code.toNat, kindName code, message⟩
  | e => ⟨0, kindName 0, toString e⟩

/-- Writes a history of lines that were read. -/
def keep (path : String) (read : List String) : IO Saved := do
  let entries := HistoryFile.entries read
  if entries = [] then return .nothing
  try
    IO.FS.writeFile path (Written.lines entries).stdout
    return ⟨[path], none⟩
  catch e => return ⟨[], fileError e⟩

def run (program : Program) : IO UInt32 := do
  match program.start (← environment) with
  | .error e =>
    let refused := Execution.refused e
    write refused.written
    return refused.exitCode.toUInt32
  | .ok (fe, settings, historyFile) =>
    write (.lines fe.greeting)
    let read ← loop fe settings (.initial none) []
    let saved ← match historyFile with
      | some path => keep path read.reverse
      | none => pure .nothing
    -- Only what comes after the session is still to be written.
    let ended := Execution.ended .none saved
    write ended.written
    return ended.exitCode.toUInt32

end LineLisp.Main

def main (args : List String) : IO UInt32 :=
  LineLisp.Main.run (if args = ["repl"] then .editing else .plain)
