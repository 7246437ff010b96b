/-
  LineLisp.Diagnostic — what is shown about a line that failed: a message, a note and the
  part of the line that the note is about. A failed evaluation is about the whole line.
  - The picture of the line shows it without blanks at its end, a tab as spaces up to the
    next column that is a multiple of four, another blank as one space.
  - Under it the part is underlined, and from its middle a stroke leads to the note.
  - The two offsets of the part are taken as numbers of characters.
  - No picture is drawn of a part that starts or ends beyond the line; if only the end is
    beyond it, the heading of the picture remains.
-/

import LineLisp.Log
import LineLisp.Text.Blank
import LineLisp.Text.Bytes

namespace LineLisp

structure Diagnostic where
  message : String
  note : String
  span : Span
  deriving DecidableEq, Repr

namespace Diagnostic

def ofParseError (e : ParseError) : Diagnostic :=
  match e with
  | .unexpectedEnd span => ⟨"Unexpected EOF", "this expression is never closed", span⟩
  | .unmatchedClose span => ⟨"Unexpected ')'", "no matching '('", span⟩

def ofEvalError (e : EvalError) (span : Span) : Diagnostic :=
  match e with
  | .arityMismatch procedure _ _ => ⟨s!"Arity mismatch calling `{procedure}`", e.message, span⟩
  | .missingOperand form _ => ⟨s!"Malformed `{form.name}` form", e.message, span⟩
  | .emptyForm => ⟨"Empty form", "`()` has no operator to dispatch on", span⟩
  | .notASymbol form found =>
    ⟨s!"Not a symbol: {found}", s!"`{form.name}` needs a symbol here", span⟩
  | .typeMismatch expected found =>
    ⟨"Type mismatch", s!"Expected {expected.text}, found {found.name}", span⟩
  | .stackLimitExceeded limit =>
    ⟨"Stack limit exceeded", s!"More than {limit} nested calls", span⟩
  | .sinkFull => ⟨"Output error", EvalError.sinkFullReason, span⟩

/-- The diagnostic of an error in a line. -/
def ofError (line : String) : LineError → Diagnostic
  | .parse e => ofParseError e
  | .evaluation e => ofEvalError e ⟨0, Text.byteLength line.toList⟩

/-! ## Picture -/

/-- The name of the source that diagnostics are about. -/
def source : String := "REPL"

/-- How wide a character is drawn that is the `column`th one of the line. -/
def width (column : Nat) (c : Char) : Nat := if c = '\t' then 4 - column % 4 else 1

/-- The line as it is drawn. -/
def drawn (cs : List Char) : List Char :=
  cs.zipIdx.flatMap fun (c, column) =>
    if Text.isBlankChar c then List.replicate (width column c) ' ' else [c]

/-- A row below the line, up to one column beyond the part: for each character of the line,
    what `mark` says is drawn in its first column and in its further ones. -/
def row (cs : List Char) (stop : Nat) (mark : Nat → Char × Char) : List Char :=
  ((cs ++ List.replicate (stop + 2) ' ').take (stop + 2)).zipIdx.flatMap fun (c, column) =>
    (mark column).1 :: List.replicate (width column c - 1) (mark column).2

namespace Mark

/-- Where the stroke to the note begins. -/
def middle (part : Span) : Nat := max ((part.start + part.stop) / 2) part.start

def underline (part : Span) (column : Nat) : Char × Char :=
  let inside := part.start ≤ column && column < part.stop
  if column = middle part then if inside then ('┬', '─') else ('│', ' ')
  else if inside then ('─', '─') else (' ', ' ')

def stroke (part : Span) (column : Nat) : Char × Char :=
  if column < middle part then (' ', ' ')
  else if column = middle part then ('╰', '─') else ('─', '─')

end Mark

/-- The rows of the picture. -/
def picture (d : Diagnostic) (cs : List Char) : List String :=
  let part := d.span
  let shown := Text.trimEnd cs
  let heading := [s!"   ╭─[ {source}:1:{part.start + 1} ]", "   │"]
  if cs.length < part.start ∨ part.start < part.stop ∧ cs.length < part.stop - 1 then []
  else if cs.length < part.stop then heading ++ ["   │ ", "───╯"]
  else heading ++ [
    " 1 │ " ++ String.ofList (drawn shown),
    "   │ " ++ String.ofList (row shown part.stop (Mark.underline part)),
    "   │ " ++ String.ofList (row shown part.stop (Mark.stroke part)) ++ " " ++ d.note,
    "───╯"]

/-- The diagnostic of a line as text. -/
def render (d : Diagnostic) (line : String) : String :=
  String.join ((("Error: " ++ d.message) :: d.picture line.toList).map (· ++ "\n"))

end Diagnostic

end LineLisp
