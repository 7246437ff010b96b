/-
  LineLisp.Console — one host for the programs, on which whole runs can be computed: its line
  editor, for input that is no terminal, takes back a grapheme cluster for each backspace, and
  its directory is empty. Nothing that is proved of all sessions rests on it.
-/

import LineLisp.Console.Basic
import LineLisp.HistoryFile
import LineLisp.Text.Backspace

namespace LineLisp.Console

/-- What comes of writing to a path that leads out of the directory is `outside`'s answer. -/
def Host.inDirectory (outside : String → Option FileError) : Host where
  edited := Text.erased
  saved := HistoryFile.saved outside

/-- A run of a program in an empty directory, from which every path that leads out can be written. -/
def Program.execute (program : Program) (texts : Lookup) (input : String) : Execution :=
  (Host.inDirectory fun _ => none).execute program texts input

end LineLisp.Console
