/-
  LineLisp.Log — what the interpreter notes about its work, apart from its output: each
  event with its level and its text. Failed lines are noted with the fields of their errors
  by name and texts in quotes.
-/

import LineLisp.EvalError
import LineLisp.Reader
import LineLisp.Text.Quoted

namespace LineLisp

/-- The ways in which a line fails. -/
inductive LineError where
  | parse (e : ParseError)
  | evaluation (e : EvalError)
  deriving DecidableEq, Repr

namespace LineError

def message : LineError → String
  | parse e => "parse error: " ++ e.message
  | evaluation e => "evaluation error: " ++ e.message

end LineError

/-! ## Errors by their fields -/

/-- A name with fields in braces. -/
def fieldsText (name : String) (fields : List (String × String)) : String :=
  name ++ " \x7b " ++ ", ".intercalate (fields.map fun (field, value) => field ++ ": " ++ value) ++
    " \x7d"

def Span.fields (s : Span) : String :=
  fieldsText "Span" [("start", toString s.start), ("end", toString s.stop)]

def ParseError.fields : ParseError → String
  | unexpectedEnd span => fieldsText "UnexpectedEof" [("span", span.fields)]
  | unmatchedClose span => fieldsText "UnmatchedCloseParen" [("span", span.fields)]

def EvalError.fields : EvalError → String
  | arityMismatch procedure expected found =>
    fieldsText "ArityMismatch" [("procedure", Text.quoted procedure),
      ("expected", toString expected), ("found", toString found)]
  | missingOperand form position =>
    fieldsText "MissingOperand" [("form", Text.quoted form.name), ("position", toString position)]
  | emptyForm => "EmptyForm"
  | notASymbol form found =>
    fieldsText "NotASymbol" [("form", Text.quoted form.name), ("found", Text.quoted found)]
  | typeMismatch expected found =>
    fieldsText "TypeMismatch" [("expected", Text.quoted expected.text),
      ("found", Text.quoted found.name)]
  | stackLimitExceeded limit => fieldsText "StackLimitExceeded" [("limit", toString limit)]
  | sinkFull => "Output(" ++ Text.quoted sinkFullReason ++ ")"

def LineError.fields : LineError → String
  | parse e => "Parse(" ++ e.fields ++ ")"
  | evaluation e => "Eval(" ++ e.fields ++ ")"

/-! ## Events -/

inductive LogLevel where
  | trace
  | debug
  deriving DecidableEq, Repr

def LogLevel.name : LogLevel → String
  | trace => "TRACE"
  | debug => "DEBUG"

inductive LogEvent where
  /-- A line was split into so many tokens. -/
  | tokensRead (count : Nat)
  /-- A list that starts with a tree of this text, which is no symbol, was evaluated. -/
  | inertForm (head : String)
  /-- A name was set that was not bound. -/
  | undefinedVariable (name : String)
  /-- A name was called that is not bound to a procedure. -/
  | notAProcedure (name : String)
  /-- A closure is entered under a name, while `depth` others are active. -/
  | calling (name : String) (depth : Nat)
  | lineFailed (e : LineError)
  deriving DecidableEq, Repr

namespace LogEvent

def level : LogEvent → LogLevel
  | calling .. => .trace
  | _ => .debug

def message : LogEvent → String
  | tokensRead count => s!"read {count} token(s)"
  | inertForm head => s!"form head {head} is not a symbol, yielding nil"
  | undefinedVariable name => "UndefinedVariable(" ++ Text.quoted name ++ ")"
  | notAProcedure name => s!"'{name}' is not bound to a procedure, yielding nil"
  | calling name depth => s!"calling '{name}' at depth {depth}"
  | lineFailed e => e.fields

def text (e : LogEvent) : String := e.level.name ++ " " ++ e.message

end LogEvent

end LineLisp
