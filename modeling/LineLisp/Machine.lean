/-
  LineLisp.Machine — the state of an interpreter and the steps that evaluation is made of. A
  computation takes a machine and ends with a value, with an error, or unfinished, and a
  machine; an error keeps all that was done before it.
  - The output is the lines that its sink took; a sink may take only so many.
  - The depth is the number of closure calls that are active; `nested` counts one more
    while a computation runs, however it ends.
-/

import LineLisp.Log
import LineLisp.Scope

namespace LineLisp

/-- The lines written so far, and how many more are taken; any number if none is given. -/
structure Sink where
  lines : Array String
  room : Option Nat

namespace Sink

def empty (room : Option Nat) : Sink := ⟨#[], room⟩

def isFull (s : Sink) : Bool := s.room = some 0

/-- The sink, which is not full, with one more line. -/
def write (s : Sink) (line : String) : Sink := ⟨s.lines.push line, s.room.map (· - 1)⟩

/-- The lines as text, each ended. -/
def text (s : Sink) : String := String.join (s.lines.toList.map (· ++ "\n"))

end Sink

structure Machine where
  heap : Heap
  depth : Nat
  sink : Sink
  log : Array LogEvent

/-- Why a computation ended without a value: an error, or no end within the calls that it
    was given. -/
inductive Stop (ε : Type) where
  | failed (e : ε)
  | unfinished

/-- A computation that may fail with an `ε`. -/
abbrev Run (ε α : Type) := EStateM (Stop ε) Machine α

abbrev Eval (α : Type) := Run EvalError α

namespace Machine

/-- The global scope alone, no call active, and room in the sink for so many lines. -/
def initial (room : Option Nat) : Machine := ⟨.initial, 0, .empty room, #[]⟩

/-- The machine without the lines and events so far. -/
def drained (m : Machine) : Machine := { m with sink := .empty m.sink.room, log := #[] }

end Machine

namespace Run

variable {ε α : Type}

def fail (e : ε) : Run ε α := throw (.failed e)

def unfinished : Run ε α := throw .unfinished

/-- Notes an event. -/
def note (event : LogEvent) : Run ε Unit := modify fun m => { m with log := m.log.push event }

/-- The same computation with its errors renamed. -/
def mapError {ε' : Type} (f : ε → ε') (x : Run ε α) : Run ε' α := fun m =>
  match x m with
  | .ok a m' => .ok a m'
  | .error (.failed e) m' => .error (.failed (f e)) m'
  | .error .unfinished m' => .error .unfinished m'

end Run

namespace Eval

variable {α : Type}

/-- Writes a line to the sink; a full one loses it. -/
def emit (line : String) : Eval Unit := fun m =>
  if m.sink.isFull then .error (.failed .sinkFull) m
  else .ok () { m with sink := m.sink.write line }

def lookup (scope : ScopeId) (name : String) : Eval (Option Value) :=
  return (← get).heap.get? scope name

def isBound (scope : ScopeId) (name : String) : Eval Bool :=
  return (← get).heap.contains scope name

/-- Binds a name in the scope's own frame. -/
def define (scope : ScopeId) (name : String) (v : Value) : Eval Unit :=
  modify fun m => { m with heap := m.heap.define scope name v }

/-- A new scope around nothing yet, with these bindings. -/
def newScope (outer : Option ScopeId) (bindings : List (String × Value)) : Eval ScopeId := fun m =>
  let (scope, heap) := m.heap.push (.ofBindings outer bindings)
  .ok scope { m with heap }

def newClosure (params : List String) (body : Value) (scope : ScopeId) : Eval Value := fun m =>
  let (closure, heap) := m.heap.makeClosure params body scope
  .ok closure { m with heap }

/-- Runs a computation with one more call active. -/
def nested (x : Eval α) : Eval α := fun m =>
  match x { m with depth := m.depth + 1 } with
  | .ok a m' => .ok a { m' with depth := m'.depth - 1 }
  | .error e m' => .error e { m' with depth := m'.depth - 1 }

/-- Runs a computation `n` times. -/
def iterate (n : Nat) (x : Eval Unit) : Eval Unit :=
  match n with
  | 0 => pure ()
  | n + 1 => do
    x
    iterate n x

end Eval

end LineLisp
