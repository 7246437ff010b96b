/-
  LineLisp.Proofs.Reachable — the states that an interpreter comes to, starting from the
  global scope alone, by evaluating trees, applying procedures, running lines, defining names
  and making scopes, whatever the settings and however each of these ends.
  - `Line.run_keeps`: what evaluation and output keep is kept by running a line.
  - `Machine.Reachable.wellFormed` and `Machine.Reachable.depth_eq`: in every state that is
    reached the heap is well-formed, and no call is active.
-/

import LineLisp.Proofs.WellFormed

namespace LineLisp

/-! ## Lines -/

/-- Trees that are read hold no closures. -/
theorem Value.ofAtom_within (n : Nat) (s : String) : (ofAtom s).Within n := by
  unfold ofAtom
  split
  · exact .number _
  · exact .symbol _

theorem Reader.readWithin_within (n stop : Nat) {opened : List OpenList} {ts : List Token} {tree : Value}
    (ho : ∀ l ∈ opened, ∀ v ∈ l.elements, v.Within n) (h : (readWithin stop opened ts).1 = .ok tree) :
    tree.Within n := by
  induction ts generalizing opened with
  | nil => cases h
  | cons t ts ih =>
    unfold readWithin at h
    split at h
    · exact ih (by simpa using ho) h
    · cases h
    · cases h
      exact .list (by simpa using ho)
    · refine ih ?_ h
      simp only [List.forall_mem_cons] at ho ⊢
      exact ⟨⟨.list (by simpa using ho.1), ho.2.1⟩, ho.2.2⟩
    · cases h
      exact Value.ofAtom_within n _
    · refine ih ?_ h
      simp only [List.forall_mem_cons] at ho ⊢
      exact ⟨⟨Value.ofAtom_within n _, ho.1⟩, ho.2⟩

theorem Reader.read_within {r : Reader} {tree : Value} (h : r.read.1 = .ok tree) (n : Nat) : tree.Within n :=
  readWithin_within n r.stop (fun _ hl => absurd hl List.not_mem_nil) h

namespace Line

variable {settings : Settings} {P : Machine → Prop}

/-- What is kept by notes, by output and by the evaluation of trees that are read. -/
structure Kept (settings : Settings) (P : Machine → Prop) : Prop where
  note {m : Machine} (event : LogEvent) : P m → P { m with log := m.log.push event }
  write {m : Machine} (line : String) : P m → P { m with sink := m.sink.write line }
  evaluate {m : Machine} {tree : Value} : (∀ n, tree.Within n) → P m →
    P (Outcome.machine (evaluate settings tree Heap.globalScope m))

theorem Kept.emit (h : Kept settings P) (line : String) {m : Machine} (hm : P m) :
    P (Outcome.machine (Eval.emit line m)) := by
  cases hfull : m.sink.isFull with
  | true => rw [Eval.emit_of_full hfull]; exact hm
  | false => rw [Eval.emit_of_room hfull]; exact h.write line hm

theorem kept_bind {ε α β : Type} {x : Run ε α} {f : α → Run ε β} {m : Machine} (hx : P (Outcome.machine (x m)))
    (hf : ∀ a m', P m' → P (Outcome.machine (f a m'))) : P (Outcome.machine ((x >>= f) m)) := by
  rw [Run.bind_apply]
  cases hxm : x m with
  | ok a m' => exact hf a m' (by rw [hxm] at hx; exact hx)
  | error e m' => rw [hxm] at hx; exact hx

theorem Kept.runTree (h : Kept settings P) {tree : Value} (ht : ∀ n, tree.Within n) {m : Machine} (hm : P m) :
    P (Outcome.machine (runTree settings tree m)) := by
  unfold Line.runTree
  refine kept_bind (h.emit _ hm) fun _ m₁ h₁ => ?_
  exact kept_bind (h.evaluate ht h₁) fun v m₂ h₂ => h.emit _ h₂

theorem Kept.runTrees (h : Kept settings P) (r : Reader) {m : Machine} (hm : P m) :
    P (Outcome.machine (runTrees settings r m)) := by
  induction r using runTrees.induct generalizing m with
  | case1 r e hr =>
    rw [runTrees_eq, hr]
    exact hm
  | case2 r tree hr ih =>
    rw [runTrees_eq, hr]
    refine kept_bind ?_ fun _ m₁ h₁ => ?_
    · rw [Run.machine_mapError]
      exact h.runTree (Reader.read_within hr) hm
    · cases hx : r.read.2.isExhausted with
      | true => exact h₁
      | false => exact ih h₁

/-- What evaluation and output keep is kept by running a line. -/
theorem Kept.run (h : Kept settings P) (line : String) {m : Machine} (hm : P m) :
    P (Outcome.machine (run settings line m)) := by
  refine kept_bind (h.note _ hm) fun _ m₁ h₁ => ?_
  refine kept_bind ?_ fun _ m₂ h₂ => h.runTrees _ h₂
  rw [Run.machine_mapError]
  exact h.emit _ h₁

end Line

/-! ## States -/

namespace Machine

/-- The states that an interpreter comes to by whole operations. -/
inductive Reachable : Machine → Prop
  | initial (room : Option Nat) : Reachable (.initial room)
  | evaluate {settings : Settings} {tree : Value} {scope : ScopeId} {m : Machine}
      {r : Outcome EvalError Value} : Reachable m → tree.Within m.heap.frames.size →
        scope < m.heap.frames.size → Evaluates settings tree scope m r → Reachable r.machine
  | apply {settings : Settings} {p : Procedure} {name : String} {args : List Value} {m : Machine}
      {r : Outcome EvalError Value} : Reachable m → p.Within m.heap.frames.size →
        (∀ a ∈ args, a.Within m.heap.frames.size) → Applies settings p name args m r → Reachable r.machine
  | line {settings : Settings} {line : String} {m : Machine} {r : Outcome LineError Unit} :
      Reachable m → Line.run settings line m = r → r.Finished → Reachable r.machine
  | define {m : Machine} (scope : ScopeId) (name : String) {v : Value} :
      Reachable m → v.Within m.heap.frames.size → Reachable { m with heap := m.heap.define scope name v }
  | newScope {m : Machine} {outer : Option ScopeId} {bindings : List (String × Value)} :
      Reachable m → (∀ o, outer = some o → o < m.heap.frames.size) →
        (∀ b ∈ bindings, b.2.Within m.heap.frames.size) →
          Reachable { m with heap := (m.heap.push (.ofBindings outer bindings)).2 }
  | note {m : Machine} (event : LogEvent) : Reachable m → Reachable { m with log := m.log.push event }
  | drained {m : Machine} : Reachable m → Reachable m.drained

/-- Nothing is active and the heap is well-formed. -/
def Idle (m : Machine) : Prop := m.heap.WellFormed ∧ m.depth = 0

theorem Idle.evaluateWithin {m : Machine} (h : m.Idle) (settings : Settings) (n : Nat) {tree : Value}
    {scope : ScopeId} (ht : tree.Within m.heap.frames.size) (hs : scope < m.heap.frames.size) :
    Idle (Outcome.machine (LineLisp.evaluateWithin settings n tree scope m)) :=
  ⟨(evaluateWithin_sound h.1 n ht hs).wellFormed, (evaluateWithin_grows settings n tree scope m).depth.trans h.2⟩

theorem kept_idle (settings : Settings) : Line.Kept settings Idle where
  note _ h := h
  write _ h := h
  evaluate ht h := h.evaluateWithin settings settings.callBound (ht _) h.1.nonempty

theorem Reachable.idle {m : Machine} (h : m.Reachable) : m.Idle := by
  induction h with
  | initial room => exact ⟨Heap.WellFormed.initial, rfl⟩
  | evaluate _ ht hs he ih =>
    obtain ⟨⟨n, rfl⟩, -⟩ := he
    exact ih.evaluateWithin _ n ht hs
  | @apply settings p name args m _ _ hp hargs ha ih =>
    obtain ⟨⟨n, rfl⟩, -⟩ := ha
    exact ⟨(applyWithin_sound ih.1 n name hp hargs).wellFormed,
      (applyWithin_grows settings n p name args m).depth.trans ih.2⟩
  | @line settings _ _ _ _ hr _ ih =>
    subst hr
    exact (kept_idle settings).run _ ih
  | define scope name _ hv ih => exact ⟨ih.1.define scope name hv, ih.2⟩
  | newScope _ ho hbs ih => exact ⟨ih.1.push ho hbs, ih.2⟩
  | note event _ ih => exact ih
  | drained _ ih => exact ih

theorem Reachable.wellFormed {m : Machine} (h : m.Reachable) : m.heap.WellFormed := h.idle.1

theorem Reachable.depth_eq {m : Machine} (h : m.Reachable) : m.depth = 0 := h.idle.2

end Machine

end LineLisp
