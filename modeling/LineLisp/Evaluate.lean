/-
  LineLisp.Evaluate — evaluation of trees. Symbols are looked up, an unbound one being nil;
  lists are forms; all else is itself. Calling a closure evaluates its body in a new scope
  inside the one that it was made in. As a closure's body is no part of the tree that calls
  it, evaluation is defined for so many nested calls; more calls do not change what has come
  to an end.
-/

import LineLisp.Form

namespace LineLisp

/-! ## Trees -/

mutual

/-- Evaluation of a tree, given what applications do. -/
def Value.meaning (settings : Settings) (apply : Application) : Value → Meaning
  | .symbol name => fun scope => return (← Eval.lookup scope name).getD .nil
  | .list elements => Form.meaning settings apply (Value.operands settings apply elements)
  | v => fun _ => pure v

def Value.operands (settings : Settings) (apply : Application) : List Value → List Operand
  | [] => []
  | v :: vs => ⟨v, v.meaning settings apply⟩ :: Value.operands settings apply vs

end

theorem Value.operands_eq_map (settings : Settings) (apply : Application) (vs : List Value) :
    Value.operands settings apply vs = vs.map fun v => ⟨v, v.meaning settings apply⟩ := by
  induction vs with
  | nil => rfl
  | cons v vs ih => simp [Value.operands, ih]

/-! ## Procedures -/

namespace Primitive

/-- The number that a value is, as an argument of a primitive. -/
def number (p : Primitive) : Value → Except EvalError Number
  | .number n => .ok n
  | v => .error (.typeMismatch (.numberFor p) v.kind)

/-- A primitive of two arguments. -/
def binary (p : Primitive) (op : Number → Number → Number) (v w : Value) :
    Except EvalError Value := do
  let m ← p.number v
  let n ← p.number w
  return .number (op m n)

/-- A primitive of one argument. -/
def unary (p : Primitive) (op : Number → Number) (v : Value) : Except EvalError Value := do
  let n ← p.number v
  return .number (op n)

/-- The result for as many arguments as the primitive takes; none for any other number. -/
def result? (p : Primitive) (args : List Value) : Option (Except EvalError Value) :=
  match p, args with
  | add, [v, w] => some (p.binary Number.add v w)
  | multiply, [v, w] => some (p.binary Number.mul v w)
  | abs, [v] => some (p.unary Number.abs v)
  | _, _ => none

end Primitive

namespace Procedure

/-- Lets a call begin unless as many as allowed are active. -/
def enter (settings : Settings) (name : String) : Eval Unit := do
  let depth := (← get).depth
  match settings.maxDepth with
  | some limit => if limit ≤ depth then .fail (.stackLimitExceeded limit)
  | none => pure ()
  .note (.calling name depth)

/-- Applies a procedure, given what evaluates the bodies of closures. -/
def applyWith (settings : Settings) (body : Value → Meaning) : Application
  | primitive p, name, args => match p.result? args with
    | some (.ok v) => pure v
    | some (.error e) => .fail e
    | none => .fail (.arityMismatch name p.arity args.length)
  | closure params tree scope, name, args => do
    if args.length ≠ params.length then .fail (.arityMismatch name params.length args.length)
    enter settings name
    let inner ← Eval.newScope (some scope) (params.zip args)
    Eval.nested (body tree inner)

end Procedure

/-! ## Bounded calls -/

/-- Evaluation with at most so many calls inside each other. -/
def evaluateWithin (settings : Settings) : Nat → Value → Meaning
  | 0 => Value.meaning settings (Procedure.applyWith settings fun _ _ => .unfinished)
  | n + 1 => Value.meaning settings (Procedure.applyWith settings (evaluateWithin settings n))

/-- Evaluates a tree in a scope. -/
def evaluate (settings : Settings) (tree : Value) : Meaning :=
  evaluateWithin settings settings.callBound tree

/-- Applies a procedure, called by a name, to values. -/
def Procedure.apply (settings : Settings) : Application :=
  Procedure.applyWith settings (evaluateWithin settings settings.callBound)

end LineLisp
