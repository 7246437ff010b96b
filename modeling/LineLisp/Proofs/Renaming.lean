/-
  LineLisp.Proofs.Renaming — one evaluation beside another in which scopes and closures go by
  other names. A naming says which scopes and closures of two heaps stand for each other; the
  next ones that are made on both sides do, so that the naming need not grow while they are made.
  - `Heap.Renamed.get?`: names are bound to renamed values in scopes that stand for each other.
  - `Machine.Twins`: machines that have only the names of scopes and closures between them, and
    have written and noted the same since the runs began.
  - `Machine.Twins.evaluateWithin` and `Machine.Twins.applyWithin`: twins stay twins, however the
    evaluation of renamed trees and the application of renamed procedures ends.
-/

import LineLisp.Proofs.WellFormed

namespace Option.Rel

variable {α β γ δ : Type} {R : α → β → Prop} {S : γ → δ → Prop} {x : Option α} {y : Option β}

theorem isSome_eq (h : Option.Rel R x y) : x.isSome = y.isSome := by
  cases h <;> rfl

theorem map {f : α → γ} {g : β → δ} (h : Option.Rel R x y) (hfg : ∀ a b, R a b → S (f a) (g b)) :
    Option.Rel S (x.map f) (y.map g) := by
  cases h with
  | none => exact .none
  | some h => exact .some (hfg _ _ h)

theorem imp {S : α → β → Prop} (h : Option.Rel R x y) (hRS : ∀ a b, x = .some a → R a b → S a b) :
    Option.Rel S x y := by
  cases h with
  | none => exact .none
  | some h => exact .some (hRS _ _ rfl h)

theorem exists_of_eq_some (h : Option.Rel R x y) {a : α} (hx : x = .some a) : ∃ b, y = .some b ∧ R a b := by
  subst hx
  cases h with
  | some h => exact ⟨_, rfl, h⟩

end Option.Rel

namespace LineLisp

/-! ## Values -/

/-- Which scopes and which closures stand for each other. Scopes stand for others in order. -/
structure Naming where
  scope : ScopeId → ScopeId → Prop
  closure : ClosureId → ClosureId → Prop
  ordered {s s' t t' : ScopeId} : scope s s' → scope t t' → (s < t ↔ s' < t')

theorem Naming.eq_iff {ν : Naming} {s s' t t' : ScopeId} (hs : ν.scope s s') (ht : ν.scope t t') :
    s = t ↔ s' = t' := by
  have hlt := ν.ordered hs ht
  have hgt := ν.ordered ht hs
  rw [← not_iff_not, ← Ne, ← Ne, ← lt_or_lt_iff_ne, ← lt_or_lt_iff_ne, hlt, hgt]

namespace Value

/-- A closure of this identity that was made in this scope occurs in the value: among its
    elements, as itself, or in the body of one that does. -/
inductive Contains (c : ClosureId) (s : ScopeId) : Value → Prop
  | element {v : Value} {vs : List Value} : v ∈ vs → Contains c s v → Contains c s (.list vs)
  | made {params : List String} {body : Value} : Contains c s (.closure c params body s)
  | body {id : ClosureId} {params : List String} {body : Value} {scope : ScopeId} :
      Contains c s body → Contains c s (.closure id params body scope)

/-- The values are the same but for the names of scopes and closures. -/
inductive Renamed (ν : Naming) : Value → Value → Prop
  | number (n : Number) : Renamed ν (.number n) (.number n)
  | symbol (name : String) : Renamed ν (.symbol name) (.symbol name)
  | list {vs vs' : List Value} : List.Forall₂ (Renamed ν) vs vs' → Renamed ν (.list vs) (.list vs')
  | primitive (p : Primitive) : Renamed ν (.primitive p) (.primitive p)
  | closure {c c' : ClosureId} {params : List String} {body body' : Value} {s s' : ScopeId} : ν.closure c c' →
      Renamed ν body body' → ν.scope s s' → Renamed ν (.closure c params body s) (.closure c' params body' s')
  | nil : Renamed ν .nil .nil

namespace Renamed

variable {μ ν : Naming} {v v' : Value}

theorem alike (h : v.Renamed ν v') : v.Alike (Renamed ν) v' := by
  cases h with
  | number n => exact .number n
  | symbol name => exact .symbol name
  | list h => exact .list h
  | primitive p => exact .primitive p
  | closure _ hbody _ => exact .closure _ _ _ _ _ _ _ hbody
  | nil => exact .nil

theorem text_eq (h : v.Renamed ν v') : v.text = v'.text := Value.text_eq (fun _ _ => alike) v v' h

/-- A naming may be exchanged for another one of what occurs in the value. -/
theorem imp (h : v.Renamed μ v') (hν : ∀ c c' s s', v.Contains c s → μ.closure c c' → μ.scope s s' →
    ν.closure c c' ∧ ν.scope s s') : v.Renamed ν v' := by
  induction v using Value.induction generalizing v' with
  | number n => cases h; exact .number n
  | symbol name => cases h; exact .symbol name
  | list vs ih =>
    cases h with
    | @list _ vs' hvs =>
      refine .list ?_
      induction hvs with
      | nil => exact .nil
      | @cons u u' us us' hu _ ihus =>
        refine .cons (ih u List.mem_cons_self hu fun c c' s s' hc => hν c c' s s' (.element List.mem_cons_self hc)) ?_
        refine ihus (fun v hv => ih v (List.mem_cons_of_mem _ hv)) fun c c' s s' hc => hν c c' s s' ?_
        cases hc with
        | element hv hc => exact .element (List.mem_cons_of_mem _ hv) hc
  | primitive p => cases h; exact .primitive p
  | closure id params body scope ih =>
    cases h with
    | closure hc hbody hs =>
      obtain ⟨hc, hs⟩ := hν _ _ _ _ .made hc hs
      exact .closure hc (ih hbody fun c c' s s' hin => hν c c' s s' (.body hin)) hs
  | nil => cases h; exact .nil

/-- A value is its own renaming where its closures keep their names. -/
theorem refl (v : Value) (hν : ∀ c s, v.Contains c s → ν.closure c c ∧ ν.scope s s) : v.Renamed ν v := by
  induction v using Value.induction with
  | number n => exact .number n
  | symbol name => exact .symbol name
  | list vs ih =>
    exact .list (List.forall₂_same.mpr fun v hv => ih v hv fun c s hc => hν c s (.element hv hc))
  | primitive p => exact .primitive p
  | closure id params body scope ih =>
    obtain ⟨hc, hs⟩ := hν _ _ .made
    exact .closure hc (ih fun c s hin => hν c s (.body hin)) hs
  | nil => exact .nil

/-- What occurs in a value has a name in its renaming. -/
theorem of_contains (h : v.Renamed ν v') {c : ClosureId} {s : ScopeId} (hc : v.Contains c s) :
    (∃ c', ν.closure c c') ∧ ∃ s', ν.scope s s' := by
  induction hc generalizing v' with
  | @element u vs hu _ ih =>
    cases h with
    | list hvs =>
      obtain ⟨i, hi, rfl⟩ := List.mem_iff_getElem.mp hu
      exact ih (hvs.get hi (hvs.length_eq ▸ hi))
  | made =>
    cases h with
    | closure hc _ hs => exact ⟨⟨_, hc⟩, _, hs⟩
  | body _ ih =>
    cases h with
    | closure _ hbody _ => exact ih hbody

end Renamed

end Value

/-! ## Scopes -/

/-- The frames stand in scopes that stand for each other and bind the same names to renamed
    values. -/
structure Frame.Renamed (ν : Naming) (f f' : Frame) : Prop where
  outer : Option.Rel ν.scope f.outer f'.outer
  get? (name : String) : Option.Rel (Value.Renamed ν) (f.get? name) (f'.get? name)

namespace Frame.Renamed

variable {ν : Naming} {f f' : Frame}

theorem define (h : Renamed ν f f') (name : String) {v v' : Value} (hv : v.Renamed ν v') :
    Renamed ν (f.define name v) (f'.define name v') := by
  refine ⟨h.outer, fun m => ?_⟩
  rw [get?_define, get?_define]
  split
  · exact .some hv
  · exact h.get? m

theorem ofBindings {outer outer' : Option ScopeId} (houter : Option.Rel ν.scope outer outer')
    {params : List String} {args args' : List Value} (hargs : List.Forall₂ (Value.Renamed ν) args args') :
    Renamed ν (.ofBindings outer (params.zip args)) (.ofBindings outer' (params.zip args')) := by
  have step {f f' : Frame} (h : Renamed ν f f') :
      Renamed ν ((params.zip args).foldl (fun f b => f.define b.1 b.2) f)
        ((params.zip args').foldl (fun f b => f.define b.1 b.2) f') := by
    induction hargs generalizing params f f' with
    | nil => simpa using h
    | cons hv _ ih =>
      cases params with
      | nil => exact h
      | cons p ps => exact ih (h.define p hv)
  exact step ⟨houter, fun _ => .none⟩

end Frame.Renamed

namespace Heap

/-- What a name is bound to in a scope is what its frame says or, if it says nothing, the scope
    around it. -/
theorem get?_eq (h : Heap) (id : ScopeId) (name : String) :
    h.get? id name = h.frames[id]?.elim none fun f =>
      (f.get? name).or (f.outer.elim none fun o => if o < id then h.get? o name else none) := by
  unfold get?
  rw [chain]
  cases h.frames[id]? with
  | none => rfl
  | some f =>
    simp only [Option.elim_some, List.findSome?_cons]
    cases f.get? name with
    | some v => rfl
    | none =>
      cases f.outer with
      | none => rfl
      | some o =>
        by_cases ho : o < id
        · simp [ho]
        · simp [ho]

theorem contains_eq_isSome (h : Heap) (id : ScopeId) (name : String) :
    h.contains id name = (h.get? id name).isSome := by
  simp only [contains, get?, List.isSome_findSome?, Frame.contains_eq_isSome]

/-- Scopes that stand for each other are both there, with renamed frames, or both not. -/
def Renamed (ν : Naming) (h h' : Heap) : Prop :=
  ∀ s s', ν.scope s s' → Option.Rel (Frame.Renamed ν) h.frames[s]? h'.frames[s']?

namespace Renamed

variable {ν : Naming} {h h' : Heap}

/-- Names are bound to renamed values in scopes that stand for each other. -/
theorem get? (hh : Renamed ν h h') {s s' : ScopeId} (hs : ν.scope s s') (name : String) :
    Option.Rel (Value.Renamed ν) (h.get? s name) (h'.get? s' name) := by
  induction s using Nat.strongRecOn generalizing s' with
  | _ s ih =>
    rw [get?_eq, get?_eq]
    have hframe := hh s s' hs
    revert hframe
    generalize h.frames[s]? = x
    generalize h'.frames[s']? = x'
    intro hframe
    cases hframe with
    | none => exact .none
    | @some f f' hf =>
      have hname := hf.get? name
      have houter := hf.outer
      simp only [Option.elim_some]
      revert hname houter
      generalize f.get? name = x
      generalize f'.get? name = x'
      generalize f.outer = y
      generalize f'.outer = y'
      intro hname houter
      cases hname with
      | some hv => exact .some hv
      | none =>
        simp only [Option.none_or]
        cases houter with
        | none => exact .none
        | @some o o' ho =>
          -- As scopes stand for others in order, the link is followed on both sides or on neither.
          simp only [Option.elim_some]
          by_cases hlt : o < s
          · rw [if_pos hlt, if_pos ((ν.ordered ho hs).mp hlt)]
            exact ih o hlt ho
          · rw [if_neg hlt, if_neg (mt (ν.ordered ho hs).mpr hlt)]
            exact .none

theorem contains (hh : Renamed ν h h') {s s' : ScopeId} (hs : ν.scope s s') (name : String) :
    h.contains s name = h'.contains s' name := by
  rw [contains_eq_isSome, contains_eq_isSome]
  exact (hh.get? hs name).isSome_eq

theorem define (hh : Renamed ν h h') {s s' : ScopeId} (hs : ν.scope s s') (name : String) {v v' : Value}
    (hv : v.Renamed ν v') : Renamed ν (h.define s name v) (h'.define s' name v') := by
  intro t t' ht
  rw [frames_define, frames_define]
  have hframe := hh t t' ht
  by_cases heq : s = t
  · rw [if_pos heq, if_pos ((Naming.eq_iff hs ht).mp heq)]
    exact hframe.map fun _ _ hf => hf.define name hv
  · rw [if_neg heq, if_neg (mt (Naming.eq_iff hs ht).mpr heq)]
    exact hframe

theorem push (hh : Renamed ν h h') (hnew : ν.scope h.frames.size h'.frames.size) {f f' : Frame}
    (hf : f.Renamed ν f') : Renamed ν (h.push f).2 (h'.push f').2 := by
  intro t t' ht
  simp only [Heap.push, Array.getElem?_push]
  by_cases heq : t = h.frames.size
  · rw [if_pos heq, if_pos ((Naming.eq_iff ht hnew).mp heq)]
    exact .some hf
  · rw [if_neg heq, if_neg (mt (Naming.eq_iff ht hnew).mpr heq)]
    exact hh t t' ht

end Renamed

end Heap

/-! ## Twins -/

/-- The same was added to both. -/
def Appended {α : Type} (before before' after after' : Array α) : Prop :=
  ∃ added : List α, after.toList = before.toList ++ added ∧ after'.toList = before'.toList ++ added

theorem Appended.refl {α : Type} (a a' : Array α) : Appended a a' a a' := ⟨[], by simp⟩

theorem Appended.push {α : Type} {a a' b b' : Array α} (h : Appended a a' b b') (x : α) :
    Appended a a' (b.push x) (b'.push x) := by
  obtain ⟨added, hb, hb'⟩ := h
  exact ⟨added ++ [x], by simp [hb], by simp [hb']⟩

/-- What two runs, begun from two machines, have come to: machines that have only the names of
    scopes and closures between them, also of those that are made next. -/
structure Machine.Twins (ν : Naming) (start start' m m' : Machine) : Prop where
  heap : m.heap.Renamed ν m'.heap
  scopes (i : Nat) : ν.scope (m.heap.frames.size + i) (m'.heap.frames.size + i)
  closures (i : Nat) : ν.closure (m.heap.closures + i) (m'.heap.closures + i)
  depth : m.depth = m'.depth
  room : m.sink.room = m'.sink.room
  lines : Appended start.sink.lines start'.sink.lines m.sink.lines m'.sink.lines
  events : Appended start.log start'.log m.log m'.log

/-- Ends of two runs: the same error, or the same value but for its names, and twin machines. -/
inductive Outcome.Twins (ν : Naming) (start start' : Machine) :
    Outcome EvalError Value → Outcome EvalError Value → Prop
  | ok {v v' : Value} {m m' : Machine} : v.Renamed ν v' → Machine.Twins ν start start' m m' →
      Twins ν start start' (.ok v m) (.ok v' m')
  | error (e : Stop EvalError) {m m' : Machine} : Machine.Twins ν start start' m m' →
      Twins ν start start' (.error e m) (.error e m')

namespace Machine.Twins

variable {ν : Naming} {start start' m m' : Machine}

theorem note (h : Twins ν start start' m m') (event : LogEvent) :
    Twins ν start start' { m with log := m.log.push event } { m' with log := m'.log.push event } :=
  { h with events := h.events.push event }

theorem write (h : Twins ν start start' m m') (line : String) :
    Twins ν start start' { m with sink := m.sink.write line } { m' with sink := m'.sink.write line } :=
  { h with room := congrArg (Option.map (· - 1)) h.room, lines := h.lines.push line }

theorem define (h : Twins ν start start' m m') {s s' : ScopeId} (hs : ν.scope s s') (name : String) {v v' : Value}
    (hv : v.Renamed ν v') : Twins ν start start' { m with heap := m.heap.define s name v }
      { m' with heap := m'.heap.define s' name v' } :=
  { h with
    heap := h.heap.define hs name hv
    scopes := by
      intro i
      rw [Heap.size_define, Heap.size_define]
      exact h.scopes i }

theorem makeClosure (h : Twins ν start start' m m') : Twins ν start start'
    { m with heap := { m.heap with closures := m.heap.closures + 1 } }
    { m' with heap := { m'.heap with closures := m'.heap.closures + 1 } } :=
  { h with
    closures := by
      intro i
      have hnext := h.closures (1 + i)
      rwa [← Nat.add_assoc, ← Nat.add_assoc] at hnext }

theorem enter (h : Twins ν start start' m m') (name : String) (params : List String) {args args' : List Value}
    (hargs : List.Forall₂ (Value.Renamed ν) args args') {outer outer' : ScopeId} (houter : ν.scope outer outer') :
    Twins ν start start' (Procedure.entered m name params args outer)
      (Procedure.entered m' name params args' outer') where
  heap := h.heap.push (h.scopes 0) (.ofBindings (.some houter) hargs)
  scopes i := by
    have hnext := h.scopes (1 + i)
    simp only [Procedure.entered, Heap.size_push]
    rwa [← Nat.add_assoc, ← Nat.add_assoc] at hnext
  closures := h.closures
  depth := congrArg (· + 1) h.depth
  room := h.room
  lines := h.lines
  events := by
    simp only [Procedure.entered, ← h.depth]
    exact h.events.push _

end Machine.Twins

theorem Outcome.Twins.left {ν : Naming} {start start' : Machine} {r r' : Outcome EvalError Value}
    (h : Twins ν start start' r r') : Twins ν start start' (r.onMachine .left) (r'.onMachine .left) := by
  cases h with
  | ok hv hm => exact .ok hv { hm with depth := congrArg (· - 1) hm.depth }
  | error e hm => exact .error e { hm with depth := congrArg (· - 1) hm.depth }

theorem Outcome.Twins.finished_iff {ν : Naming} {start start' : Machine} {r r' : Outcome EvalError Value}
    (h : Twins ν start start' r r') : r.Finished ↔ r'.Finished := by
  cases h with
  | ok _ _ => exact Iff.rfl
  | error e _ => cases e <;> exact Iff.rfl

/-! ## Evaluation -/

section Evaluation

variable {settings : Settings} {ν : Naming} {start start' : Machine}

/-- Evaluations that take twins to twins. -/
def twinning (settings : Settings) (ν : Naming) (start start' : Machine)
    (hglobal : settings.setReadsGlobal = true → ν.scope Heap.globalScope Heap.globalScope) :
    Simulation settings settings where
  World := Unit
  le _ _ := True
  value _ := Value.Renamed ν
  scope _ := ν.scope
  rel _ _ _ x x' := ∀ m m', Machine.Twins ν start start' m m' → Outcome.Twins ν start start' (x m) (x' m')
  le_refl _ := trivial
  le_trans _ _ := trivial
  value_mono _ h := h
  scope_mono _ h := h
  alike := Value.Renamed.alike
  nil _ := .nil
  result _ h := by
    obtain ⟨n, rfl⟩ := Primitive.result?_ok h
    exact .number n
  global _ := hglobal
  sameReads := .refl settings
  pure hv _ _ hm := .ok hv hm
  fail e _ _ hm := .error _ hm
  bind {_ _ _ x x' f f'} hx hf m m' hm := by
    have h := hx m m' hm
    rw [Run.bind_apply, Run.bind_apply]
    generalize x m = r at h ⊢
    generalize x' m' = r' at h ⊢
    cases h with
    | ok hv hm₁ => exact hf () _ _ trivial hv _ _ hm₁
    | error e hm₁ => exact .error e hm₁
  inGlobal _ h := h
  lookup name hs hf m m' hm := hf _ _ (hm.heap.get? hs name) m m' hm
  isBound {_ s s' f f'} name hs hf m m' hm := by
    rw [Run.bind_of_ok (Eval.isBound_apply s name m), Run.bind_of_ok (Eval.isBound_apply s' name m'),
      hm.heap.contains hs name]
    exact hf _ m m' hm
  note _ hf m m' hm := hf () trivial _ _ (hm.note _)
  emit {_ _ _ f f'} line hf m m' hm := by
    have hfull : m.sink.isFull = m'.sink.isFull := by simp only [Sink.isFull, hm.room]
    cases h : m.sink.isFull with
    | true =>
      rw [Run.bind_of_error (Eval.emit_of_full h line), Run.bind_of_error (Eval.emit_of_full (hfull ▸ h) line)]
      exact .error _ hm
    | false =>
      rw [Run.bind_of_ok (Eval.emit_of_room h line), Run.bind_of_ok (Eval.emit_of_room (hfull ▸ h) line)]
      exact hf () trivial _ _ (hm.write line)
  define name hs hv hf m m' hm := hf () trivial _ _ (hm.define hs name hv)
  newClosure params hs hb m m' hm := .ok (.closure (hm.closures 0) hb hs) hm.makeClosure

variable (hglobal : settings.setReadsGlobal = true → ν.scope Heap.globalScope Heap.globalScope)

/-- The body of a closure runs in a scope that stands for the one on the other side. -/
theorem twinning_lockstep : (twinning settings ν start start' hglobal).Lockstep where
  unfinished _ _ hm := .error _ hm
  call {body body'} hbody _ s s' i i' params t t' outer outer' name args args' _ hc hargs _ m m' hm := by
    have hmay : Procedure.MayEnter settings m ↔ Procedure.MayEnter settings m' := by
      simp only [Procedure.MayEnter, hm.depth]
    by_cases henter : Procedure.MayEnter settings m
    · rw [Procedure.call_of_mayEnter henter, Procedure.call_of_mayEnter (hmay.mp henter)]
      cases hc with
      | closure _ ht houter =>
        exact (hbody () _ _ t t' (hm.scopes 0) ht _ _ (hm.enter name params hargs houter)).left
    · rw [Procedure.call_of_not_mayEnter henter, Procedure.call_of_not_mayEnter (mt hmay.mpr henter)]
      exact .error _ hm

namespace Machine.Twins

variable {m m' : Machine}

include hglobal

theorem evaluateWithin (h : Twins ν start start' m m') (n : Nat) {tree tree' : Value} (ht : tree.Renamed ν tree')
    {s s' : ScopeId} (hs : ν.scope s s') : Outcome.Twins ν start start'
      (LineLisp.evaluateWithin settings n tree s m) (LineLisp.evaluateWithin settings n tree' s' m') :=
  (twinning_lockstep hglobal).evaluateWithin (w := ()) n ht hs m m' h

/-- The procedures of a value and its renaming are applied in any pair of scopes that stand for
    each other, such as the next ones. -/
theorem applyWithin (h : Twins ν start start' m m') (n : Nat) {f f' : Value} (hf : f.Renamed ν f') {p p' : Procedure}
    (hp : f.procedure? = some p) (hp' : f'.procedure? = some p') (name : String) {args args' : List Value}
    (hargs : List.Forall₂ (Value.Renamed ν) args args') : Outcome.Twins ν start start'
      (Procedure.applyWithin settings n p name args m) (Procedure.applyWithin settings n p' name args' m') :=
  (twinning_lockstep hglobal).applyWithin n () _ _ f f' p p' name args args' (h.scopes 0) hf hp hp' hargs m m' h

end Machine.Twins

end Evaluation

end LineLisp
