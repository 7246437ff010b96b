/-
  LineLisp.Value — the data of the language: program trees and results alike. A closure
  holds its identity, its parameters, its body, which is a tree, and the scope that it was
  made in. The text of a value is what the interpreter prints; a tree of numbers, symbols
  and lists is printed as it can be read. Equality compares lists by their elements,
  numbers as numbers of one width, primitives by arity and name and closures by identity.
-/

import LineLisp.Number.Basic
import LineLisp.Primitive

namespace LineLisp

/-- The place of a scope in the heap of scopes. -/
abbrev ScopeId := Nat

/-- The identity of a closure: no two evaluations of `lambda` give the same. -/
abbrev ClosureId := Nat

inductive Value where
  | number (n : Number)
  | symbol (name : String)
  | list (elements : List Value)
  | primitive (p : Primitive)
  | closure (id : ClosureId) (params : List String) (body : Value) (scope : ScopeId)
  | nil

/-- What can be applied to arguments. -/
inductive Procedure where
  | primitive (p : Primitive)
  | closure (params : List String) (body : Value) (scope : ScopeId)

namespace Value

def int (n : Int32) : Value := .number (.int n)

def symbol? : Value → Option String
  | symbol name => some name
  | _ => none

def procedure? : Value → Option Procedure
  | primitive p => some (.primitive p)
  | closure _ params body scope => some (.closure params body scope)
  | _ => none

def kind : Value → Kind
  | number n => n.kind
  | symbol _ => .symbol
  | list _ => .list
  | primitive _ => .procedure
  | closure .. => .procedure
  | nil => .nil

/-- Only the 32-bit zero is false. -/
def isTrue : Value → Bool
  | number (.whole (.int n)) => n ≠ 0
  | _ => true

/-! ## Text -/

mutual

def text : Value → String
  | number n => n.text
  | symbol name => name
  | list elements => "(" ++ " ".intercalate (texts elements) ++ ")"
  | primitive p => "#<primitive:" ++ p.name ++ ">"
  | closure _ params _ _ => "#<lambda (" ++ " ".intercalate params ++ ")>"
  | nil => "nil"

def texts : List Value → List String
  | [] => []
  | v :: vs => v.text :: texts vs

end

theorem texts_eq_map (vs : List Value) : texts vs = vs.map text := by
  induction vs with
  | nil => rfl
  | cons v vs ih => simp [texts, ih]

/-! ## Equality -/

mutual

def equal : Value → Value → Bool
  | number m, number n => m.equal n
  | symbol s, symbol t => s = t
  | list vs, list ws => equalAll vs ws
  | primitive p, primitive q => p.arity = q.arity && p.name = q.name
  | closure i _ _ _, closure j _ _ _ => i = j
  | nil, nil => true
  | _, _ => false

def equalAll : List Value → List Value → Bool
  | [], [] => true
  | v :: vs, w :: ws => v.equal w && equalAll vs ws
  | _, _ => false

end

end Value

end LineLisp
