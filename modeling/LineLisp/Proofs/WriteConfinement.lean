/-
  LineLisp.Proofs.WriteConfinement — which scopes an evaluation may change. A form binds
  names in the scope that it stands in and nowhere else; `set!` may take what it evaluates to
  the global scope, and the body of a closure stands in a scope that is new.
  - `writes_confined`: of the scopes that there are before it, an evaluation changes at most
    its own and, where `set!` reads globally, the global one; an application at most the
    latter. No scope gets another one around it and no name becomes unbound.
-/

import LineLisp.Proofs.Evolution

namespace LineLisp

/-- The scopes of the earlier heap are there in the later one, within the same scopes and with
    the same names bound; those outside of `P` are as they were. -/
structure Heap.ConfinedTo (P : ScopeId → Prop) (h h' : Heap) : Prop where
  kept : ∀ (id : ScopeId) (f : Frame), h.frames[id]? = some f → ¬ P id → h'.frames[id]? = some f
  extended : ∀ (id : ScopeId) (f : Frame), h.frames[id]? = some f → ∃ f' : Frame, h'.frames[id]? = some f' ∧ f'.outer = f.outer ∧
    ∀ name, f.contains name → f'.contains name

namespace Heap.ConfinedTo

variable {P Q : ScopeId → Prop} {h₁ h₂ h₃ : Heap}

theorem of_frames_eq (h : h₂.frames = h₁.frames) : ConfinedTo P h₁ h₂ :=
  ⟨fun _ _ hf _ => h ▸ hf, fun _ f hf => ⟨f, h ▸ hf, rfl, fun _ hn => hn⟩⟩

theorem trans (h : ConfinedTo P h₁ h₂) (h' : ConfinedTo P h₂ h₃) : ConfinedTo P h₁ h₃ := by
  refine ⟨fun id f hf hP => h'.kept id f (h.kept id f hf hP) hP, fun id f hf => ?_⟩
  obtain ⟨f₂, hf₂, ho₂, hn₂⟩ := h.extended id f hf
  obtain ⟨f₃, hf₃, ho₃, hn₃⟩ := h'.extended id f₂ hf₂
  exact ⟨f₃, hf₃, ho₃.trans ho₂, fun name hname => hn₃ name (hn₂ name hname)⟩

/-- Only what holds of scopes that exist matters. -/
theorem mono (h : ConfinedTo P h₁ h₂) (hPQ : ∀ id < h₁.frames.size, P id → Q id) : ConfinedTo Q h₁ h₂ := by
  refine ⟨fun id f hf hQ => h.kept id f hf fun hP => hQ (hPQ id ?_ hP), h.extended⟩
  exact (Array.getElem?_eq_some_iff.mp hf).1

theorem define (h : Heap) (id : ScopeId) (name : String) (v : Value) :
    ConfinedTo (· = id) h (h.define id name v) := by
  refine ⟨fun i f hf hi => ?_, fun i f hf => ?_⟩
  · rw [frames_define, if_neg (Ne.symm hi), hf]
  · rw [frames_define, hf]
    split
    · exact ⟨f.define name v, rfl, rfl, fun m hm => Frame.contains_define hm name v⟩
    · exact ⟨f, rfl, rfl, fun _ hn => hn⟩

theorem push (h : Heap) (f : Frame) : ConfinedTo P h (h.push f).2 :=
  ⟨fun _ _ hg _ => frames_push hg f, fun _ g hg => ⟨g, frames_push hg f, rfl, fun _ hn => hn⟩⟩

end Heap.ConfinedTo

/-- The scope where `set!` evaluates, if that is not the scope of the form. -/
def Settings.SetReads (settings : Settings) (id : ScopeId) : Prop :=
  settings.setReadsGlobal = true ∧ id = Heap.globalScope

def confinement (settings : Settings) : Evolution settings where
  rel s m m' := m.heap.ConfinedTo (fun id => id = s ∨ settings.SetReads id) m'.heap
  refl _ _ := .of_frames_eq rfl
  trans := .trans
  inGlobal hg h := h.mono fun _ _ hP => .inr (hP.elim (fun h => ⟨hg, h⟩) id)
  note _ _ _ := .of_frames_eq rfl
  write _ _ _ := .of_frames_eq rfl
  define s m name v := (Heap.ConfinedTo.define m.heap s name v).mono fun _ _ => .inl
  makeClosure _ _ := .of_frames_eq rfl
  call s {m m'} {name params args outer} h := by
    -- The scope of the call is none of those before it.
    have hpush := Heap.ConfinedTo.push (P := fun id => id = m.heap.frames.size ∨ settings.SetReads id)
      m.heap (.ofBindings (some outer) (params.zip args))
    refine (hpush.trans h).mono fun id hid hP => ?_
    rcases hP with rfl | hP
    · exact absurd hid (Nat.lt_irrefl _)
    · exact .inr hP

theorem evaluateWithin_confined (settings : Settings) (n : Nat) (tree : Value) (scope : ScopeId) (m : Machine) :
    m.heap.ConfinedTo (fun id => id = scope ∨ settings.SetReads id)
      (Outcome.machine (evaluateWithin settings n tree scope m)).heap :=
  (confinement settings).evaluate n tree scope m

theorem applyWithin_confined (settings : Settings) (n : Nat) (p : Procedure) (name : String)
    (args : List Value) (m : Machine) :
    m.heap.ConfinedTo settings.SetReads (Outcome.machine (Procedure.applyWithin settings n p name args m)).heap := by
  -- An application stands in no scope: the bound holds for one that does not exist.
  refine ((confinement settings).apply n p name args m.heap.frames.size m).mono fun id hid hP => ?_
  rcases hP with rfl | hP
  · exact absurd hid (Nat.lt_irrefl _)
  · exact hP

/-- Whatever an evaluation or an application ends with, the scopes that it changes are its own
    and the global one at most, as the settings say; the scope that a closure was made in is
    not changed by its call. -/
theorem writes_confined (settings : Settings) (m : Machine) :
    (∀ tree scope r, Evaluates settings tree scope m r →
      m.heap.ConfinedTo (fun id => id = scope ∨ settings.SetReads id) r.machine.heap) ∧
    (∀ p name args r, Applies settings p name args m r →
      m.heap.ConfinedTo settings.SetReads r.machine.heap) ∧
    (∀ params body outer name args r f, Applies settings (.closure params body outer) name args m r →
      ¬ settings.SetReads outer → m.heap.frames[outer]? = some f → r.machine.heap.frames[outer]? = some f) := by
  refine ⟨?_, ?_, ?_⟩
  · rintro tree scope r ⟨⟨n, rfl⟩, -⟩
    exact evaluateWithin_confined settings n tree scope m
  · rintro p name args r ⟨⟨n, rfl⟩, -⟩
    exact applyWithin_confined settings n p name args m
  · rintro params body outer name args r f ⟨⟨n, rfl⟩, -⟩ houter hf
    exact (applyWithin_confined settings n _ name args m).kept outer f hf houter

/-- A closure that sets `n`, made in a scope inside the global one that binds `n` to 1. -/
def setter : Procedure := .closure [] (.list [.symbol "set!", .symbol "n", .int 2]) 1

def setterMachine : Machine where
  heap := ⟨#[⟨none, [("f", .closure 0 [] (.list [.symbol "set!", .symbol "n", .int 2]) 1)]⟩,
    ⟨some 0, [("n", .int 1)]⟩], 1⟩
  depth := 0
  sink := .empty none
  log := #[]

/-- The call binds `n` in its own scope: neither the global scope nor the one that the closure
    was made in has changed. -/
theorem writes_confined_setter :
    (∃ r, Evaluates .standard (.list [.symbol "f"]) 1 setterMachine r ∧ setterMachine.heap.ConfinedTo
      (fun id => id = 1 ∨ Settings.standard.SetReads id) r.machine.heap) ∧
    (∃ r, Applies .standard setter "f" [] setterMachine r ∧
      setterMachine.heap.ConfinedTo Settings.standard.SetReads r.machine.heap) ∧
    ∃ r, Applies .standard setter "f" [] setterMachine r ∧
      r.machine.heap.frames[1]? = some ⟨some 0, [("n", .int 1)]⟩ := by
  obtain ⟨heval, happly, hmade⟩ := writes_confined .standard setterMachine
  have h₁ : Evaluates .standard (.list [.symbol "f"]) 1 setterMachine
      (evaluateWithin .standard 1 (.list [.symbol "f"]) 1 setterMachine) := ⟨⟨1, rfl⟩, by cbv⟩
  have h₂ : Applies .standard setter "f" [] setterMachine
      (Procedure.applyWithin .standard 1 setter "f" [] setterMachine) := ⟨⟨1, rfl⟩, by cbv⟩
  exact ⟨⟨_, h₁, heval _ _ _ h₁⟩, ⟨_, h₂, happly _ _ _ _ h₂⟩,
    ⟨_, h₂, hmade _ _ _ _ _ _ _ h₂ (by simp [Settings.SetReads, Heap.globalScope]) rfl⟩⟩

end LineLisp
