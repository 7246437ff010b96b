/-
  LineLisp.Keyword — the words that begin special forms. A form is recognised by its first
  symbol, whatever that symbol is bound to.
-/

namespace LineLisp

inductive Keyword where
  | conditional
  | define
  | assign
  | lambda
  | quote
  | iterate
  deriving DecidableEq, Repr

namespace Keyword

def all : List Keyword := [conditional, define, assign, lambda, quote, iterate]

theorem mem_all (k : Keyword) : k ∈ all := by cases k <;> decide

def name : Keyword → String
  | conditional => "if"
  | define => "define"
  | assign => "set!"
  | lambda => "lambda"
  | quote => "quote"
  | iterate => "repeat"

/-- The keyword that is written `s`. -/
def ofName? (s : String) : Option Keyword := all.find? (·.name = s)

theorem name_injective {j k : Keyword} (h : j.name = k.name) : j = k := by
  revert h; cases j <;> cases k <;> decide

theorem ofName?_eq_some_iff {s : String} {k : Keyword} : ofName? s = some k ↔ k.name = s := by
  constructor
  · intro h; simpa using List.find?_some h
  · rintro rfl; cases k <;> decide

end Keyword

end LineLisp
