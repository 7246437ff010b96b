/-
  LineLisp.Proofs.CallBound — the number of calls that evaluation is given. It decides only
  whether evaluation ends.
  - `evaluateWithin_mono`: what has ended stays the same with more calls, so that `Evaluates`
    is a partial function.
  - `evaluateWithin_finished`: under a limit on active calls, as many calls as the limit leaves
    room for are enough.
-/

import LineLisp.Proofs.Evolution

namespace LineLisp

variable {settings : Settings}

/-! ## More calls -/

theorem Outcome.Finished.bind {ε α β : Type} {x x' : Run ε α} {f f' : α → Run ε β} {m : Machine}
    (hx : Finished (x m) → x' m = x m) (hf : ∀ a m', Finished (f a m') → f' a m' = f a m')
    (h : Finished ((x >>= f) m)) : (x' >>= f') m = (x >>= f) m := by
  rw [Run.bind_apply] at h
  rw [Run.bind_apply, Run.bind_apply]
  cases hxm : x m with
  | ok a m' =>
    rw [hxm] at h
    rw [hx (by simp [hxm]), hxm]
    exact hf a m' h
  | error e m' =>
    rw [hxm] at h
    cases e with
    | failed e => rw [hx (by simp [hxm]), hxm]
    | unfinished => exact h.elim

/-- Where the first computation ends, the second one ends in the same way. -/
def endsAlike (settings : Settings) : Congruence settings settings where
  rel _ _ x x' := ∀ m, Outcome.Finished (x m) → x' m = x m
  sameReads := .refl settings
  pure _ _ _ _ _ := rfl
  fail _ _ _ _ _ := rfl
  bind hx hf m := Outcome.Finished.bind (hx m) hf
  inGlobal _ h := h
  lookup _ _ _ _ := rfl
  isBound _ _ _ _ := rfl
  note _ _ _ _ _ := rfl
  emit _ _ _ _ := rfl
  define _ _ _ _ _ := rfl
  newClosure _ _ _ _ _ := rfl

theorem endsAlike_calls : (endsAlike settings).Calls where
  unfinished _ _ _ h := h.elim
  call hbody s name params args outer m h := by
    by_cases hm : Procedure.MayEnter settings m
    · rw [Procedure.call_of_mayEnter hm] at h ⊢
      rw [Procedure.call_of_mayEnter hm, hbody _ _ ((Outcome.finished_onMachine _ _).mp h)]
    · rw [Procedure.call_of_not_mayEnter hm, Procedure.call_of_not_mayEnter hm]

theorem evaluateWithin_mono {n n' : Nat} (hn : n ≤ n') {tree : Value} {scope : ScopeId} {m : Machine}
    (h : Outcome.Finished (evaluateWithin settings n tree scope m)) :
    evaluateWithin settings n' tree scope m = evaluateWithin settings n tree scope m :=
  endsAlike_calls.evaluateWithin hn tree scope m h

theorem applyWithin_mono {n n' : Nat} (hn : n ≤ n') {p : Procedure} {name : String} {args : List Value}
    {m : Machine} (h : Outcome.Finished (Procedure.applyWithin settings n p name args m)) :
    Procedure.applyWithin settings n' p name args m = Procedure.applyWithin settings n p name args m :=
  endsAlike_calls.applyWithin hn Heap.globalScope p name args m h

theorem Ends.unique {ε α : Type} {within : Nat → Run ε α} {m : Machine} {r r' : Outcome ε α}
    (mono : ∀ n n', n ≤ n' → Outcome.Finished (within n m) → within n' m = within n m)
    (h : Ends within m r) (h' : Ends within m r') : r = r' := by
  obtain ⟨⟨n, rfl⟩, hn⟩ := h
  obtain ⟨⟨n', rfl⟩, hn'⟩ := h'
  rcases Nat.le_total n n' with hle | hle
  · exact (mono n n' hle hn).symm
  · exact mono n' n hle hn'

theorem Evaluates.unique {tree : Value} {scope : ScopeId} {m : Machine} {r r' : Outcome EvalError Value}
    (h : Evaluates settings tree scope m r) (h' : Evaluates settings tree scope m r') : r = r' :=
  Ends.unique (fun _ _ hn => evaluateWithin_mono hn) h h'

theorem Applies.unique {p : Procedure} {name : String} {args : List Value} {m : Machine}
    {r r' : Outcome EvalError Value} (h : Applies settings p name args m r)
    (h' : Applies settings p name args m r') : r = r' :=
  Ends.unique (fun _ _ hn => applyWithin_mono hn) h h'

/-! ## Enough calls -/

/-- Computations that end in every machine where the limit leaves room for no more than `n`
    calls, at the depth at which they began. -/
def endsWithin (settings : Settings) (limit n : Nat) : Congruence settings settings where
  rel _ _ x _ := ∀ m : Machine, limit ≤ m.depth + n →
    Outcome.Finished (x m) ∧ (Outcome.machine (x m)).depth = m.depth
  sameReads := .refl settings
  pure _ _ _ _ _ := ⟨trivial, rfl⟩
  fail _ _ _ _ _ := ⟨trivial, rfl⟩
  bind {s _ _ x _ f _} hx hf m hm := by
    obtain ⟨hfin, hdepth⟩ := hx m hm
    rw [Run.bind_apply]
    cases hxm : x m with
    | ok a m' =>
      rw [hxm, Outcome.machine_ok] at hdepth
      obtain ⟨hfin', hdepth'⟩ := hf a m' (by omega)
      exact ⟨hfin', hdepth'.trans hdepth⟩
    | error e m' =>
      rw [hxm] at hfin hdepth
      cases e with
      | failed e => exact ⟨trivial, hdepth⟩
      | unfinished => exact hfin.elim
  inGlobal _ h := h
  lookup _ _ _ _ := ⟨trivial, rfl⟩
  isBound _ _ _ _ := ⟨trivial, rfl⟩
  note _ _ _ _ _ := ⟨trivial, rfl⟩
  emit _ line m _ := by
    cases hm : m.sink.isFull with
    | true => rw [Eval.emit_of_full hm]; exact ⟨trivial, rfl⟩
    | false => rw [Eval.emit_of_room hm]; exact ⟨trivial, rfl⟩
  define _ _ _ _ _ := ⟨trivial, rfl⟩
  newClosure _ _ _ _ _ := ⟨trivial, rfl⟩

/-- The body of a closure runs one call deeper and is given one call less. -/
theorem endsWithin_graded {limit : Nat} (hs : settings.maxDepth = some limit) :
    Congruence.Graded (endsWithin settings limit) where
  zero s name params args outer m hm := by
    have henter : ¬ Procedure.MayEnter settings m := fun h => Nat.not_lt.mpr hm (h limit hs)
    rw [Procedure.call_of_not_mayEnter henter]
    exact ⟨trivial, rfl⟩
  succ {n body _} hbody s name params args outer m hm := by
    by_cases henter : Procedure.MayEnter settings m
    · have hroom : limit ≤ (Procedure.entered m name params args outer).depth + n := by
        simp only [Procedure.entered]
        omega
      obtain ⟨hfin, hdepth⟩ := hbody m.heap.frames.size _ hroom
      rw [Procedure.call_of_mayEnter henter, Outcome.finished_onMachine, Outcome.machine_onMachine]
      exact ⟨hfin, congrArg Nat.pred hdepth⟩
    · rw [Procedure.call_of_not_mayEnter henter]
      exact ⟨trivial, rfl⟩

/-- As many calls as the limit leaves room for are enough. -/
theorem applyWithin_finished {limit n : Nat} (hs : settings.maxDepth = some limit) {m : Machine}
    (hn : limit ≤ m.depth + n) (p : Procedure) (name : String) (args : List Value) :
    Outcome.Finished (Procedure.applyWithin settings n p name args m) :=
  ((endsWithin_graded hs).applyWithin n Heap.globalScope p name args m hn).1

theorem evaluateWithin_finished {limit n : Nat} (hs : settings.maxDepth = some limit) {m : Machine}
    (hn : limit ≤ m.depth + n) (tree : Value) (scope : ScopeId) :
    Outcome.Finished (evaluateWithin settings n tree scope m) :=
  ((endsWithin_graded hs).evaluateWithin n tree scope m hn).1

end LineLisp
