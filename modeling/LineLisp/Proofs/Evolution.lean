/-
  LineLisp.Proofs.Evolution — how a machine may change while something is evaluated. An
  evolution is a relation of machines, one for each scope in which a form may stand, that
  every single step keeps to; whatever is evaluated then keeps to it, however it ends.
  - `Evolution.evaluate` and `Evolution.apply`: from the steps to whole evaluations and
    applications.
  - `Grows`: the depth is as before, and lines and events are only ever added.
-/

import LineLisp.Proofs.Simulation

namespace LineLisp

/-- What may become of a machine while a form in a scope is evaluated. -/
structure Evolution (settings : Settings) where
  rel : ScopeId → Machine → Machine → Prop
  refl (s : ScopeId) (m : Machine) : rel s m m
  trans {s : ScopeId} {m₁ m₂ m₃ : Machine} : rel s m₁ m₂ → rel s m₂ m₃ → rel s m₁ m₃
  inGlobal {s : ScopeId} {m m' : Machine} : settings.setReadsGlobal = true →
    rel Heap.globalScope m m' → rel s m m'
  note (s : ScopeId) (m : Machine) (event : LogEvent) : rel s m { m with log := m.log.push event }
  write (s : ScopeId) (m : Machine) (line : String) : rel s m { m with sink := m.sink.write line }
  define (s : ScopeId) (m : Machine) (name : String) (v : Value) :
    rel s m { m with heap := m.heap.define s name v }
  makeClosure (s : ScopeId) (m : Machine) :
    rel s m { m with heap := { m.heap with closures := m.heap.closures + 1 } }
  call (s : ScopeId) {m m' : Machine} {name : String} {params : List String} {args : List Value}
    {outer : ScopeId} : rel m.heap.frames.size (Procedure.entered m name params args outer) m' → rel s m m'.left

namespace Evolution

variable {settings : Settings} (E : Evolution settings)

/-- Computations that keep to an evolution; the second one plays no part. -/
def congruence : Congruence settings settings where
  rel s _ x _ := ∀ m, E.rel s m (Outcome.machine (x m))
  sameReads := .refl settings
  pure s _ _ m := E.refl s m
  fail s _ _ m := E.refl s m
  bind {s _ _ x _ f _} hx hf m := by
    have h := hx m
    rw [Run.bind_apply]
    cases hxm : x m with
    | ok a m' => exact E.trans (by simpa [hxm] using h) (hf a m')
    | error e m' => simpa [hxm] using h
  inGlobal hg hx m := E.inGlobal hg (hx m)
  lookup s _ m := E.refl s m
  isBound s _ m := E.refl s m
  note s event _ m := E.note s m event
  emit s line m := by
    cases hm : m.sink.isFull with
    | true => rw [Eval.emit_of_full hm]; exact E.refl s m
    | false => rw [Eval.emit_of_room hm]; exact E.write s m line
  define s name v m := E.define s m name v
  newClosure s _ _ m := E.makeClosure s m

theorem calls : E.congruence.Calls where
  unfinished s _ m := E.refl s m
  call hbody s name params args outer m := by
    by_cases h : Procedure.MayEnter settings m
    · rw [Procedure.call_of_mayEnter h, Outcome.machine_onMachine]
      exact E.call s (hbody _ _)
    · rw [Procedure.call_of_not_mayEnter h]
      exact E.refl s m

theorem evaluate (n : Nat) (t : Value) (s : ScopeId) (m : Machine) :
    E.rel s m (Outcome.machine (evaluateWithin settings n t s m)) :=
  E.calls.evaluateWithin (Nat.le_refl n) t s m

theorem apply (n : Nat) (p : Procedure) (name : String) (args : List Value) (s : ScopeId) (m : Machine) :
    E.rel s m (Outcome.machine (Procedure.applyWithin settings n p name args m)) :=
  E.calls.applyWithin (Nat.le_refl n) s p name args m

end Evolution

/-! ## Growth -/

/-- The later machine is as deep as the earlier one and has its lines and events, and maybe
    more after them. -/
structure Grows (m m' : Machine) : Prop where
  depth : m'.depth = m.depth
  lines : m.sink.lines.toList <+: m'.sink.lines.toList
  log : m.log.toList <+: m'.log.toList

theorem Grows.refl (m : Machine) : Grows m m := ⟨rfl, List.prefix_rfl, List.prefix_rfl⟩

theorem Grows.trans {m₁ m₂ m₃ : Machine} (h : Grows m₁ m₂) (h' : Grows m₂ m₃) : Grows m₁ m₃ :=
  ⟨h'.depth.trans h.depth, h.lines.trans h'.lines, h.log.trans h'.log⟩

def growth (settings : Settings) : Evolution settings where
  rel _ := Grows
  refl _ := Grows.refl
  trans := Grows.trans
  inGlobal _ h := h
  note _ m event := ⟨rfl, List.prefix_rfl, by simp⟩
  write _ m line := ⟨rfl, by simp [Sink.write], List.prefix_rfl⟩
  define _ m name v := ⟨rfl, List.prefix_rfl, List.prefix_rfl⟩
  makeClosure _ m := ⟨rfl, List.prefix_rfl, List.prefix_rfl⟩
  call _ {m m'} {name params args outer} h := by
    refine ⟨?_, h.lines, ?_⟩
    · show m'.depth - 1 = m.depth
      rw [h.depth]
      rfl
    · have hnote : m.log.toList <+: (m.log.push (.calling name m.depth)).toList := by simp
      exact hnote.trans h.log

theorem evaluateWithin_grows (settings : Settings) (n : Nat) (t : Value) (s : ScopeId) (m : Machine) :
    Grows m (Outcome.machine (evaluateWithin settings n t s m)) :=
  (growth settings).evaluate n t s m

theorem applyWithin_grows (settings : Settings) (n : Nat) (p : Procedure) (name : String)
    (args : List Value) (m : Machine) :
    Grows m (Outcome.machine (Procedure.applyWithin settings n p name args m)) :=
  (growth settings).apply n p name args Heap.globalScope m

end LineLisp
