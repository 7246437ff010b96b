/-
  LineLisp.Form — the meaning of a list, given the meaning of its elements. An operand is a
  tree together with the computation that evaluates it in a scope, so that each form says
  which operands it evaluates, when and where. Operands are numbered from 1; surplus ones
  are ignored. A missing operand is an error only when the form comes to it.
  - `conditional` evaluates its first operand and then one of the two others.
  - `define` and `assign` bind a name in the scope of the form after evaluation.
  - `lambda` and `quote` evaluate nothing.
  - `iterate` evaluates a count once and its body that often, each value going to the output.
  - In an application the procedure is looked up before the operands are evaluated, and
    they are evaluated even if there is none.
-/

import LineLisp.Machine
import LineLisp.Settings

namespace LineLisp

/-- Evaluation in a scope. -/
abbrev Meaning := ScopeId → Eval Value

/-- What a procedure does when it is called by a name with arguments. -/
abbrev Application := Procedure → String → List Value → Eval Value

structure Operand where
  tree : Value
  eval : Meaning

namespace Form

def operand (form : Keyword) (operands : List Operand) (position : Nat) : Eval Operand :=
  match operands[position - 1]? with
  | some o => pure o
  | none => .fail (.missingOperand form position)

/-- The name that a tree is. -/
def symbol (form : Keyword) (tree : Value) : Eval String :=
  match tree.symbol? with
  | some name => pure name
  | none => .fail (.notASymbol form tree.text)

def conditional (operands : List Operand) : Meaning := fun scope => do
  let condition ← (← operand .conditional operands 1).eval scope
  let branch ← operand .conditional operands (if condition.isTrue then 2 else 3)
  branch.eval scope

def define (operands : List Operand) : Meaning := fun scope => do
  let name ← symbol .define (← operand .define operands 1).tree
  let value ← (← operand .define operands 2).eval scope
  Eval.define scope name value
  return value

/-- What the output says about setting a name that is not bound. -/
def undefinedWarning (name : String) : String := s!"WARNING: setting undefined variable '{name}'"

/-- Notes and reports that a name is set that is not bound. -/
def warnUndefined (name : String) : Eval Unit := do
  .note (.undefinedVariable name)
  Eval.emit (undefinedWarning name)

def assign (settings : Settings) (operands : List Operand) : Meaning := fun scope => do
  let name ← symbol .assign (← operand .assign operands 1).tree
  let right ← operand .assign operands 2
  unless ← Eval.isBound scope name do warnUndefined name
  let value ← right.eval (if settings.setReadsGlobal then Heap.globalScope else scope)
  Eval.define scope name value
  return value

/-- The names of a parameter list. -/
def parameters : List Value → Eval (List String)
  | [] => pure []
  | tree :: trees => do
    let name ← symbol .lambda tree
    let names ← parameters trees
    return name :: names

def lambda (operands : List Operand) : Meaning := fun scope => do
  match (← operand .lambda operands 1).tree with
  | .list trees =>
    let params ← parameters trees
    Eval.newClosure params (← operand .lambda operands 2).tree scope
  | tree => .fail (.typeMismatch .parameterList tree.kind)

def quote (operands : List Operand) : Meaning := fun _ =>
  return (← operand .quote operands 1).tree

/-- How often a count asks for; never if it is negative. -/
def count : Value → Eval Nat
  | .number n => match n.whole? with
    | some k => pure k.toNat
    | none => .fail (.typeMismatch .repeatCount n.kind)
  | v => .fail (.typeMismatch .repeatCount v.kind)

def iterate (operands : List Operand) : Meaning := fun scope => do
  let times ← count (← (← operand .iterate operands 1).eval scope)
  let body ← operand .iterate operands 2
  Eval.iterate times do
    let value ← body.eval scope
    Eval.emit value.text
  return .nil

/-- The values of all operands, from the first to the last. -/
def arguments (scope : ScopeId) : List Operand → Eval (List Value)
  | [] => pure []
  | o :: os => do
    let value ← o.eval scope
    let values ← arguments scope os
    return value :: values

def application (apply : Application) (name : String) (operands : List Operand) : Meaning :=
  fun scope => do
    let callee ← Eval.lookup scope name
    let values ← arguments scope operands
    match callee.bind Value.procedure? with
    | some p => apply p name values
    | none =>
      .note (.notAProcedure name)
      return .nil

/-- A special form. -/
def special (settings : Settings) : Keyword → List Operand → Meaning
  | .conditional => conditional
  | .define => define
  | .assign => assign settings
  | .lambda => lambda
  | .quote => quote
  | .iterate => iterate

/-- A list of these elements. -/
def meaning (settings : Settings) (apply : Application) : List Operand → Meaning
  | [] => fun _ => .fail .emptyForm
  | head :: operands => match head.tree with
    | .symbol name => match Keyword.ofName? name with
      | some keyword => special settings keyword operands
      | none => application apply name operands
    | tree => fun _ => do
      .note (.inertForm tree.text)
      return .nil

end Form

end LineLisp
