/-
  LineLisp.Line — what happens with a line of input. A line that is exactly the word for
  it ends the session, a blank one is skipped, any other is run: the output gets its tokens,
  and then for each tree, as soon as it is read, the tree and its value in the global scope.
  The first error ends the line; what was done before it stays done.
-/

import LineLisp.Diagnostic
import LineLisp.Evaluate

namespace LineLisp

namespace Line

inductive Action where
  | quit
  | skip
  | evaluate
  deriving DecidableEq, Repr

def quitCommand : String := "quit"

def action (line : String) : Action :=
  if line = quitCommand then .quit else if Text.isBlank line then .skip else .evaluate

/-- Writes a tree and its value in the global scope. -/
def runTree (settings : Settings) (tree : Value) : Eval Unit := do
  Eval.emit tree.text
  let value ← evaluate settings tree Heap.globalScope
  Eval.emit value.text

/-- Reads and runs trees until the tokens end, at least one. -/
def runTrees (settings : Settings) (r : Reader) : Run LineError Unit :=
  match _h : r.read.1 with
  | .error e => .fail (.parse e)
  | .ok tree => do
    Run.mapError .evaluation (runTree settings tree)
    unless r.read.2.isExhausted do runTrees settings r.read.2
termination_by r.remaining.length
decreasing_by exact Reader.read_remaining_lt (Reader.isExhausted_of_read_ok _h)

/-- Runs a line. -/
def run (settings : Settings) (line : String) : Run LineError Unit := do
  let tokens := Token.scan line
  .note (.tokensRead tokens.length)
  Run.mapError .evaluation (Eval.emit (Token.render tokens))
  runTrees settings (.ofTokens tokens)

/-- Runs a line; of a failure the diagnostic is given, and noted what failed. The text is
    empty if there is none. -/
def report (settings : Settings) (line : String) (m : Machine) : String × Machine :=
  match run settings line m with
  | .error (.failed e) m' =>
    ((Diagnostic.ofError line e).render line, { m' with log := m'.log.push (.lineFailed e) })
  | .error .unfinished m' => ("", m')
  | .ok _ m' => ("", m')

end Line

end LineLisp
