/-
  LineLisp.EvalError — the ways in which evaluation fails, each with its message.
-/

import LineLisp.Keyword
import LineLisp.Kind
import LineLisp.Primitive

namespace LineLisp

/-- What a value should have been. -/
inductive Expectation where
  | numberFor (p : Primitive)
  | parameterList
  | repeatCount
  deriving DecidableEq, Repr

namespace Expectation

def text : Expectation → String
  | numberFor p => s!"a number for '{p.name}'"
  | parameterList => "a parameter list"
  | repeatCount => "an integer repeat count"

end Expectation

inductive EvalError where
  /-- A procedure, under the name that it was called by, got too few or too many arguments. -/
  | arityMismatch (procedure : String) (expected found : Nat)
  /-- A special form has no operand at a position, the first being 1. -/
  | missingOperand (form : Keyword) (position : Nat)
  | emptyForm
  /-- A special form has another tree, here as its text, where a symbol should be. -/
  | notASymbol (form : Keyword) (found : String)
  | typeMismatch (expected : Expectation) (found : Kind)
  | stackLimitExceeded (limit : Nat)
  /-- The output takes no more lines. -/
  | sinkFull
  deriving DecidableEq, Repr

namespace EvalError

/-- Why a line could not be written. -/
def sinkFullReason : String := "sink full"

def message : EvalError → String
  | arityMismatch procedure expected found =>
    s!"'{procedure}' expects {expected} argument(s), got {found}"
  | missingOperand form position => s!"'{form.name}' is missing operand {position}"
  | emptyForm => "cannot evaluate an empty form"
  | notASymbol form found => s!"'{form.name}' expects a symbol, got {found}"
  | typeMismatch expected found => s!"expected {expected.text}, got {found.name}"
  | stackLimitExceeded limit => s!"call depth limit of {limit} exceeded"
  | sinkFull => s!"failed to write output: {sinkFullReason}"

end EvalError

end LineLisp
