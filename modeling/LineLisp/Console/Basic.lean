/-
  LineLisp.Console.Basic — sessions of lines from the standard input. The plain front end prompts
  before each line that it reads; the editing one, whose input is no terminal here, does not,
  but takes its lines from a line editor, says how to quit and when the input has ended, and
  keeps a history of lines. Both run lines in the same way: output goes to the standard
  output, diagnostics to the standard error, and the session ends with the input or with the
  line for quitting. The line editor and the files belong to a host.
-/

import LineLisp.Line
import LineLisp.Settings.Load
import LineLisp.Text.Lines
import LineLisp.Text.Quoted

namespace LineLisp

/-- What a session writes beside the output of its lines, and how it takes a line. -/
structure FrontEnd where
  greeting : List String
  prompt : String
  farewell : List String
  /-- Whether lines come from a line editor. -/
  edits : Bool
  deriving DecidableEq, Repr

namespace FrontEnd

def banner : String := "Simple LISP interpreter (tinylisp v0.1.0)"

def plainPrompt : String := ">>>"

def plain : FrontEnd := ⟨[banner], plainPrompt, [], false⟩

def editing (settings : EditorSettings) : FrontEnd where
  greeting := [banner, s!"Type '{Line.quitCommand}' or press Ctrl-D to quit."] ++
    if settings.historyFile.isSome then ["No previous history."] else []
  prompt := ""
  farewell := ["", "Exiting."]
  edits := true

/-- The line that is run for a line of the input, where `edited` is what the line editor hands over. -/
def received (fe : FrontEnd) (edited : String → String) (line : String) : String :=
  if fe.edits then edited line else line

end FrontEnd

namespace Console

/-- What was written to the two outputs. -/
structure Written where
  stdout : String
  stderr : String
  deriving DecidableEq, Repr

namespace Written

def none : Written := ⟨"", ""⟩

def append (a b : Written) : Written := ⟨a.stdout ++ b.stdout, a.stderr ++ b.stderr⟩

instance : Append Written := ⟨append⟩

/-- Lines, each ended, on the standard output. -/
def lines (texts : List String) : Written := ⟨String.join (texts.map (· ++ "\n")), ""⟩

end Written

/-- What a line writes, and the machine for the next line; none after the line for
    quitting. -/
def turn (settings : Settings) (m : Machine) (line : String) : Written × Option Machine :=
  match Line.action line with
  | .quit => (.none, none)
  | .skip => (.none, some m)
  | .evaluate =>
    let (diagnostic, m') := Line.report settings line m
    (⟨m'.sink.text, diagnostic⟩, some m'.drained)

/-- What is written from the first prompt on. -/
def session (fe : FrontEnd) (settings : Settings) (m : Machine) : List String → Written
  | [] => ⟨fe.prompt, ""⟩ ++ .lines fe.farewell
  | line :: rest =>
    let (written, next) := turn settings m line
    ⟨fe.prompt, ""⟩ ++ written ++ next.elim .none fun m' => session fe settings m' rest

/-- What a whole session writes. -/
def transcript (fe : FrontEnd) (settings : Settings) (input : List String) : Written :=
  .lines fe.greeting ++ session fe settings (.initial none) input

/-- The lines that a session reads: up to the one for quitting. -/
def linesRead : List String → List String
  | [] => []
  | line :: rest => if Line.action line = .quit then [line] else line :: linesRead rest

/-! ## Hosts -/

/-- An error of the system in writing a file. -/
structure FileError where
  code : Nat
  kindName : String
  message : String
  deriving DecidableEq, Repr

/-- The error by its fields. -/
def FileError.fields (e : FileError) : String :=
  s!"Io(Os \x7b code: {e.code}, kind: {e.kindName}, message: " ++ Text.quoted e.message ++ " \x7d)"

/-- What has come of writing a file: the files that are in the directory then, and the error if
    it failed. -/
structure Saved where
  files : List String
  error : Option FileError
  deriving DecidableEq, Repr

/-- No file was to be written. -/
def Saved.nothing : Saved := ⟨[], none⟩

/-- What the programs leave to others: the editing of lines, and the history with its file. -/
structure Host where
  /-- The line that the line editor hands over for a line of the input. -/
  edited : String → String
  /-- What comes of writing a history to a path to which these lines were added. -/
  saved : (path : String) → (lines : List String) → Saved

namespace Host

/-- What is asked of a host whose input is no terminal. -/
structure Lawful (host : Host) : Prop where
  /-- Only backspaces are edits. -/
  edited_eq_self (line : String) : '\x08' ∉ line.toList → host.edited line = line
  /-- A history has no empty lines, and is not written without a line. -/
  saved_eq_nothing (path : String) (lines : List String) :
    (∀ line ∈ lines, line = "") → host.saved path lines = .nothing

/-- What comes of the history of a session with this input. -/
def kept (host : Host) (path : Option String) (input : List String) : Saved :=
  path.elim .nothing fun path => host.saved path (linesRead input)

end Host

/-! ## Processes -/

inductive Program where
  | plain
  | editing
  deriving DecidableEq, Repr

/-- What a process leaves behind: what it wrote, its exit code and the files it made. -/
structure Execution where
  written : Written
  exitCode : Nat
  files : List String
  deriving DecidableEq, Repr

/-- What a process writes that an error ends. -/
def failure (fields : String) : Written := ⟨"", "Error: " ++ fields ++ "\n"⟩

/-- A process that does not start because of a setting. -/
def Execution.refused (e : SettingError) : Execution := ⟨failure e.fields, 1, []⟩

/-- The end of a process that has written `written` and then its history. -/
def Execution.ended (written : Written) (saved : Saved) : Execution where
  written := written ++ saved.error.elim .none fun e => failure e.fields
  exitCode := saved.error.elim 0 fun _ => 1
  files := saved.files

/-- The front end of a program, and the settings of its interpreter and of its history. -/
def Program.start (program : Program) (texts : Lookup) :
    Except SettingError (FrontEnd × Settings × Option String) := do
  let settings ← Settings.load texts
  match program with
  | .plain => return (.plain, settings, none)
  | .editing =>
    let editor ← EditorSettings.load texts
    return (.editing editor, settings, editor.historyFile)

/-- A run of a program with this environment and this standard input, where no history was kept
    before. -/
def Host.execute (host : Host) (program : Program) (texts : Lookup) (input : String) : Execution :=
  match program.start texts with
  | .error e => .refused e
  | .ok (fe, settings, historyFile) =>
    let lines := (Text.lines input).map (fe.received host.edited)
    .ended (transcript fe settings lines) (host.kept historyFile lines)

end Console

end LineLisp
