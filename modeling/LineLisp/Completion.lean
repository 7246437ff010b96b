/-
  LineLisp.Completion — completion of the atom before the cursor: what is missing of each
  name that begins with it, among the names visible from a scope and the keywords. There is
  nothing to complete after a parenthesis or after a blank.
-/

import LineLisp.Keyword
import LineLisp.Scope
import LineLisp.Text.Blank
import LineLisp.Token

namespace LineLisp.Completion

/-- What is missing of a name that begins with `stem`; none if it is another name or the
    stem itself. -/
def missing? (stem : String) (name : String) : Option String :=
  if stem.toList.isPrefixOf name.toList ∧ stem ≠ name then
    some (String.ofList (name.toList.drop stem.toList.length))
  else none

/-- The texts in the order of their bytes, each once. -/
def sorted (texts : List String) : List String := texts.eraseDups.mergeSort fun s t => s ≤ t

/-- The names that can be completed to. -/
def vocabulary (h : Heap) (scope : ScopeId) : List String :=
  h.names scope ++ Keyword.all.map Keyword.name

/-- The completions at a byte offset of a line. -/
def candidates (h : Heap) (scope : ScopeId) (line : String) (offset : Nat) : List String :=
  let before := Text.takeBytes offset line.toList
  if before.getLast?.any Text.isBlankChar then []
  else match (Token.scan (String.ofList before)).getLast?.map Token.kind with
    | some (.atom stem) => sorted ((vocabulary h scope).filterMap (missing? stem))
    | _ => []

/-- The byte offset at which a completion is to be put in, and the completions. -/
def complete (h : Heap) (scope : ScopeId) (line : String) (offset : Nat) : Nat × List String :=
  (offset, candidates h scope line offset)

end LineLisp.Completion
