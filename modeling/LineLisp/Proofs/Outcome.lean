/-
  LineLisp.Proofs.Outcome — what a computation comes to from a machine, step by step, and
  what it means that an evaluation ends. Evaluation is defined within a number of calls; it
  ends with an outcome if it comes to it within some number of them.
-/

import LineLisp.Line
import Mathlib

namespace LineLisp

/-- What a computation comes to: a value or a reason to stop, and the machine it leaves. -/
abbrev Outcome (ε α : Type) := EStateM.Result (Stop ε) Machine α

namespace Outcome

variable {ε α : Type}

def machine : Outcome ε α → Machine
  | .ok _ m => m
  | .error _ m => m

/-- The outcome is a value or an error. -/
def Finished : Outcome ε α → Prop
  | .error .unfinished _ => False
  | _ => True

@[simp] theorem machine_ok (a : α) (m : Machine) : machine (.ok a m : Outcome ε α) = m := rfl
@[simp] theorem machine_error (e : Stop ε) (m : Machine) : machine (.error e m : Outcome ε α) = m := rfl

/-- The outcome with its machine changed. -/
def onMachine (f : Machine → Machine) : Outcome ε α → Outcome ε α
  | .ok a m => .ok a (f m)
  | .error e m => .error e (f m)

@[simp] theorem onMachine_ok (f : Machine → Machine) (a : α) (m : Machine) :
    onMachine f (.ok a m : Outcome ε α) = .ok a (f m) := rfl
@[simp] theorem onMachine_error (f : Machine → Machine) (e : Stop ε) (m : Machine) :
    onMachine f (.error e m : Outcome ε α) = .error e (f m) := rfl

@[simp] theorem machine_onMachine (f : Machine → Machine) (r : Outcome ε α) :
    machine (onMachine f r) = f (machine r) := by
  cases r <;> rfl

@[simp] theorem finished_ok (a : α) (m : Machine) : Finished (.ok a m : Outcome ε α) := trivial
@[simp] theorem finished_failed (e : ε) (m : Machine) : Finished (.error (.failed e) m : Outcome ε α) := trivial

@[simp] theorem finished_onMachine (f : Machine → Machine) (r : Outcome ε α) :
    Finished (onMachine f r) ↔ Finished r := by
  cases r with
  | ok _ _ => exact Iff.rfl
  | error e _ => cases e <;> exact Iff.rfl

end Outcome

/-! ## Steps -/

namespace Run

variable {ε α β : Type}

theorem bind_apply (x : Run ε α) (f : α → Run ε β) (m : Machine) :
    (x >>= f) m = match x m with
      | .ok a m' => f a m'
      | .error e m' => .error e m' := by
  show EStateM.bind x f m = _
  unfold EStateM.bind
  cases x m <;> rfl

theorem bind_of_ok {x : Run ε α} {m m' : Machine} {a : α} (h : x m = .ok a m') (f : α → Run ε β) :
    (x >>= f) m = f a m' := by
  rw [bind_apply, h]

theorem bind_of_error {x : Run ε α} {m m' : Machine} {e : Stop ε} (h : x m = .error e m')
    (f : α → Run ε β) : (x >>= f) m = .error e m' := by
  rw [bind_apply, h]

@[simp] theorem get_apply (m : Machine) : (get : Run ε Machine) m = .ok m m := rfl
@[simp] theorem fail_apply (e : ε) (m : Machine) : (fail e : Run ε α) m = .error (.failed e) m := rfl

theorem bind_eq_ok {x : Run ε α} {f : α → Run ε β} {m m' : Machine} {b : β}
    (h : (x >>= f) m = .ok b m') : ∃ a m₁, x m = .ok a m₁ ∧ f a m₁ = .ok b m' := by
  rw [bind_apply] at h
  cases hx : x m with
  | ok a m₁ => exact ⟨a, m₁, rfl, by rwa [hx] at h⟩
  | error e m₁ => rw [hx] at h; cases h

theorem fail_bind (e : ε) (f : α → Run ε β) : (fail e : Run ε α) >>= f = fail e := by
  funext m
  exact bind_of_error rfl f

end Run

namespace Eval

@[simp] theorem lookup_apply (scope : ScopeId) (name : String) (m : Machine) :
    lookup scope name m = .ok (m.heap.get? scope name) m := rfl

@[simp] theorem isBound_apply (scope : ScopeId) (name : String) (m : Machine) :
    isBound scope name m = .ok (m.heap.contains scope name) m := rfl

theorem emit_of_full {m : Machine} (h : m.sink.isFull = true) (line : String) :
    emit line m = .error (.failed .sinkFull) m := by
  rw [emit, if_pos h]

theorem emit_of_room {m : Machine} (h : m.sink.isFull = false) (line : String) :
    emit line m = .ok () { m with sink := m.sink.write line } := by
  rw [emit, if_neg (by simp [h])]

end Eval

/-! ## Calls -/

/-- The machine with one call less active. -/
def Machine.left (m : Machine) : Machine := { m with depth := m.depth - 1 }

theorem Eval.nested_apply {α : Type} (x : Eval α) (m : Machine) :
    nested x m = Outcome.onMachine .left (x { m with depth := m.depth + 1 }) := by
  unfold nested
  cases x { m with depth := m.depth + 1 } <;> rfl

namespace Procedure

/-- The machine in which the body of a closure begins: the call is noted and active, and its
    scope, around which is the one that the closure was made in, binds the parameters. -/
def entered (m : Machine) (name : String) (params : List String) (args : List Value)
    (outer : ScopeId) : Machine where
  heap := (m.heap.push (.ofBindings (some outer) (params.zip args))).2
  depth := m.depth + 1
  sink := m.sink
  log := m.log.push (.calling name m.depth)

/-- The call of a closure for which there are as many arguments as parameters. -/
def call (settings : Settings) (name : String) (params : List String) (args : List Value)
    (outer : ScopeId) (body : Meaning) : Eval Value := do
  enter settings name
  let inner ← Eval.newScope (some outer) (params.zip args)
  Eval.nested (body inner)

theorem applyWith_closure (settings : Settings) (body : Value → Meaning) (params : List String)
    (tree : Value) (outer : ScopeId) (name : String) (args : List Value) :
    applyWith settings body (.closure params tree outer) name args =
      if args.length = params.length then call settings name params args outer (body tree)
      else .fail (.arityMismatch name params.length args.length) := by
  by_cases h : args.length = params.length
  · rw [if_pos h]
    simp only [applyWith, ne_eq, h, not_true_eq_false, if_false]
    rfl
  · rw [if_neg h]
    simp only [applyWith, ne_eq, h, not_false_eq_true, if_true]
    exact Run.fail_bind _ _

/-- Fewer calls than allowed are active. -/
def MayEnter (settings : Settings) (m : Machine) : Prop :=
  ∀ limit, settings.maxDepth = some limit → m.depth < limit

/-- The error of a call for which there is no room. -/
def tooDeep {α : Type} (settings : Settings) (m : Machine) : Outcome EvalError α :=
  .error (.failed (.stackLimitExceeded (settings.maxDepth.getD 0))) m

theorem enter_of_not_mayEnter {settings : Settings} {m : Machine} (h : ¬ MayEnter settings m)
    (name : String) : enter settings name m = tooDeep settings m := by
  obtain ⟨limit, hs, hle⟩ : ∃ limit, settings.maxDepth = some limit ∧ limit ≤ m.depth := by
    simpa [MayEnter] using h
  simp only [enter, tooDeep, hs]
  rw [Run.bind_apply, Run.get_apply]
  simp only [if_pos hle, Run.fail_bind, Run.fail_apply, Option.getD_some]

theorem enter_of_mayEnter {settings : Settings} {m : Machine} (h : MayEnter settings m) (name : String) :
    enter settings name m = .ok () { m with log := m.log.push (.calling name m.depth) } := by
  simp only [enter]
  rw [Run.bind_apply, Run.get_apply]
  cases hs : settings.maxDepth with
  | none => rfl
  | some limit =>
    simp only [if_neg (Nat.not_le.mpr (h limit hs))]
    rfl

theorem call_of_not_mayEnter {settings : Settings} {m : Machine} (h : ¬ MayEnter settings m)
    (name : String) (params : List String) (args : List Value) (outer : ScopeId) (body : Meaning) :
    call settings name params args outer body m = tooDeep settings m :=
  Run.bind_of_error (enter_of_not_mayEnter h name) _

theorem call_of_mayEnter {settings : Settings} {m : Machine} (h : MayEnter settings m)
    (name : String) (params : List String) (args : List Value) (outer : ScopeId) (body : Meaning) :
    call settings name params args outer body m =
      Outcome.onMachine .left (body m.heap.frames.size (entered m name params args outer)) := by
  unfold call
  rw [Run.bind_of_ok (enter_of_mayEnter h name), Run.bind_apply]
  exact Eval.nested_apply _ _

end Procedure

/-! ## Lines -/

@[simp] theorem Run.machine_mapError {ε ε' α : Type} (f : ε → ε') (x : Run ε α) (m : Machine) :
    Outcome.machine (mapError f x m) = Outcome.machine (x m) := by
  unfold mapError
  cases x m with
  | ok a m' => rfl
  | error e m' => cases e <;> rfl

theorem Run.mapError_of_ok {ε ε' α : Type} (f : ε → ε') {x : Run ε α} {a : α} {m m' : Machine} (h : x m = .ok a m') :
    mapError f x m = .ok a m' := by
  rw [mapError, h]

theorem Run.mapError_of_failed {ε ε' α : Type} (f : ε → ε') {x : Run ε α} {e : ε} {m m' : Machine}
    (h : x m = .error (.failed e) m') : mapError f x m = .error (.failed (f e)) m' := by
  rw [mapError, h]

theorem Run.ok_of_mapError {ε ε' α : Type} {f : ε → ε'} {x : Run ε α} {a : α} {m m' : Machine}
    (h : mapError f x m = .ok a m') : x m = .ok a m' := by
  unfold mapError at h
  split at h
  · next hx => cases h; exact hx
  · cases h
  · cases h

theorem Line.runTrees_eq (settings : Settings) (r : Reader) :
    runTrees settings r = match r.read.1 with
      | .error e => .fail (.parse e)
      | .ok tree => Run.mapError .evaluation (runTree settings tree) >>= fun _ =>
        if r.read.2.isExhausted then pure () else runTrees settings r.read.2 := by
  rw [runTrees]
  cases r.read.1 <;> rfl

/-! ## Ends -/

namespace Procedure

/-- Application with at most so many calls inside its own. -/
def applyWithin (settings : Settings) : Nat → Application
  | 0 => applyWith settings fun _ _ => .unfinished
  | n + 1 => applyWith settings (evaluateWithin settings n)

end Procedure

theorem evaluateWithin_eq (settings : Settings) (n : Nat) :
    evaluateWithin settings n = Value.meaning settings (Procedure.applyWithin settings n) := by
  cases n <;> rfl

/-- A computation that is given so many calls ends from a machine with an outcome. -/
def Ends {ε α : Type} (within : Nat → Run ε α) (m : Machine) (r : Outcome ε α) : Prop :=
  (∃ n, within n m = r) ∧ r.Finished

/-- Evaluation of a tree ends with an outcome. -/
abbrev Evaluates (settings : Settings) (tree : Value) (scope : ScopeId) (m : Machine)
    (r : Outcome EvalError Value) : Prop :=
  Ends (fun n => evaluateWithin settings n tree scope) m r

/-- Application of a procedure ends with an outcome. -/
abbrev Applies (settings : Settings) (p : Procedure) (name : String) (args : List Value)
    (m : Machine) (r : Outcome EvalError Value) : Prop :=
  Ends (fun n => Procedure.applyWithin settings n p name args) m r

end LineLisp
