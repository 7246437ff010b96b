/-
  LineLisp.Proofs.Repetition — a procedure has no memory of its calls where `set!` evaluates in
  its own scope. A call changes none of the scopes that there are before it, so a second one
  begins in a heap that has only grown; it makes its scopes and closures further on.
  - `Naming.later`: what the second call makes stands for what the first one made, and all else
    for itself.
  - `calls_repeat`: the second call ends as the first one, in the same error or with the same result
    under these names, writes the same lines, and again leaves every earlier scope alone.
-/

import LineLisp.Proofs.Renaming
import LineLisp.Proofs.Reachable
import LineLisp.Proofs.WriteConfinement

namespace LineLisp

/-! ## Names of later scopes -/

theorem Value.Within.lt_of_contains {n : Nat} {v : Value} (h : v.Within n) {c : ClosureId} {s : ScopeId}
    (hc : v.Contains c s) : s < n := by
  induction hc with
  | element hv _ ih =>
    cases h with
    | list hvs => exact ih (hvs _ hv)
  | made =>
    cases h with
    | closure _ hs => exact hs
  | body _ ih =>
    cases h with
    | closure hbody _ => exact ih hbody

/-- A closure of this identity occurs in what a name is bound to. -/
def Heap.Holds (h : Heap) (c : ClosureId) : Prop :=
  ∃ (s : ScopeId) (f : Frame) (name : String) (v : Value) (t : ScopeId),
    h.frames[s]? = some f ∧ f.get? name = some v ∧ v.Contains c t

/-- A closure of this identity occurs in the body of the procedure. -/
def Procedure.Holds (c : ClosureId) : Procedure → Prop
  | primitive _ => False
  | closure _ body _ => ∃ t, body.Contains c t

/-- A closure of this identity is there before the call. -/
def KnownBefore (m : Machine) (p : Procedure) (args : List Value) (c : ClosureId) : Prop :=
  m.heap.Holds c ∨ p.Holds c ∨ ∃ a ∈ args, ∃ t, a.Contains c t

/-- The numbers from `n` on, moved up by `d`. -/
def movedFrom (n d s : Nat) : Nat := if s < n then s else s + d

theorem movedFrom_of_lt {n s : Nat} (h : s < n) (d : Nat) : movedFrom n d s = s := if_pos h

theorem movedFrom_add {n n' : Nat} (h : n ≤ n') (i : Nat) : movedFrom n (n' - n) (n + i) = n' + i := by
  rw [movedFrom, if_neg (by omega)]
  omega

theorem movedFrom_lt_iff (n d s t : Nat) : s < t ↔ movedFrom n d s < movedFrom n d t := by
  unfold movedFrom
  split <;> split <;> omega

/-- The names on the way from `m` to a later machine, when what was done from `m` is done from
    there: scopes that there are in `m` and closures that are known keep their names, those that are
    made from `m` stand for those made from the later machine, in order. -/
def Naming.later (m later : Machine) (known : ClosureId → Prop) : Naming where
  scope s s' := s' = movedFrom m.heap.frames.size (later.heap.frames.size - m.heap.frames.size) s
  closure c c' := known c ∧ c' = c ∨ ∃ i, c = m.heap.closures + i ∧ c' = later.heap.closures + i
  ordered := by
    rintro s _ t _ rfl rfl
    exact movedFrom_lt_iff _ _ s t

namespace Naming

variable {m later : Machine} {known : ClosureId → Prop}

theorem later_scope_of_lt {s : ScopeId} (hs : s < m.heap.frames.size) : (Naming.later m later known).scope s s :=
  (movedFrom_of_lt hs _).symm

/-- Values of the first machine keep their names. -/
theorem renamed_later {v : Value} (h : v.Within m.heap.frames.size) (hknown : ∀ c s, v.Contains c s → known c) :
    v.Renamed (.later m later known) v :=
  .refl v fun c s hc => ⟨.inl ⟨hknown c s hc, rfl⟩, later_scope_of_lt (h.lt_of_contains hc)⟩

end Naming

/-- Where a later heap has the scopes of the first one, it is the same but for what was made. -/
theorem Heap.renamed_later {m later : Machine} {known : ClosureId → Prop} (hm : m.heap.WellFormed)
    (hsize : m.heap.frames.size ≤ later.heap.frames.size)
    (hkept : ∀ (id : ScopeId) (f : Frame), m.heap.frames[id]? = some f → later.heap.frames[id]? = some f)
    (hknown : ∀ c, m.heap.Holds c → known c) : m.heap.Renamed (.later m later known) later.heap := by
  rintro s _ rfl
  by_cases hs : s < m.heap.frames.size
  · have hf : m.heap.frames[s]? = some m.heap.frames[s] := Array.getElem?_eq_getElem hs
    rw [movedFrom_of_lt hs, hf, hkept s _ hf]
    -- The frame has not changed, and all that it leads to is older than what was made.
    refine .some ⟨?_, fun name => ?_⟩
    · cases ho : m.heap.frames[s].outer with
      | none => exact .none
      | some o => exact .some (Naming.later_scope_of_lt (Nat.lt_trans (hm.outer hf ho) hs))
    · cases hv : m.heap.frames[s].get? name with
      | none => exact .none
      | some v =>
        obtain ⟨l₁, l₂, hl, -⟩ := List.lookup_eq_some_iff.mp hv
        have hin : v.Within m.heap.frames.size := hm.within (b := (name, v)) hf (by rw [hl]; simp)
        exact .some (Naming.renamed_later hin fun c t hc => hknown c ⟨s, _, name, v, t, hf, hv, hc⟩)
  · obtain ⟨i, rfl⟩ := Nat.exists_eq_add_of_le (Nat.le_of_not_lt hs)
    rw [movedFrom_add hsize, Array.getElem?_eq_none (Nat.le_add_right _ i),
      Array.getElem?_eq_none (Nat.le_add_right _ i)]
    exact .none

/-! ## Unlimited sinks -/

/-- A sink that takes any number of lines stays one. -/
def staysUnlimited (settings : Settings) : Evolution settings where
  rel _ m m' := m.sink.room = none → m'.sink.room = none
  refl _ _ h := h
  trans h h' hm := h' (h hm)
  inGlobal _ h := h
  note _ _ _ h := h
  write _ m line h := by rw [Sink.write, h]; rfl
  define _ _ _ _ h := h
  makeClosure _ _ h := h
  call _ _ _ _ _ _ _ h := h

/-! ## Calls again -/

/-- What comes of a call from a machine and of the same call from where it ended: the same error
    or renamed values of the same text, the same lines, and heaps that are renamed. No scope that
    there is before a call is changed by it. -/
structure Outcome.Repeats (ν : Naming) (m : Machine) (r r' : Outcome EvalError Value) : Prop where
  value {v : Value} {m₁ : Machine} : r = .ok v m₁ →
    ∃ v' m₂, r' = .ok v' m₂ ∧ v.Renamed ν v' ∧ v.text = v'.text
  error {e : Stop EvalError} {m₁ : Machine} : r = .error e m₁ → ∃ m₂, r' = .error e m₂
  lines : Appended m.sink.lines r.machine.sink.lines r.machine.sink.lines r'.machine.sink.lines
  heap : r.machine.heap.Renamed ν r'.machine.heap
  kept {id : ScopeId} {f : Frame} : m.heap.frames[id]? = some f → r.machine.heap.frames[id]? = some f
  keptAgain {id : ScopeId} {f : Frame} : r.machine.heap.frames[id]? = some f → r'.machine.heap.frames[id]? = some f

theorem Outcome.Twins.repeats {ν : Naming} {m : Machine} {r r' : Outcome EvalError Value}
    (h : Twins ν m r.machine r r')
    (hkept : ∀ (id : ScopeId) (f : Frame), m.heap.frames[id]? = some f → r.machine.heap.frames[id]? = some f)
    (hagain : ∀ (id : ScopeId) (f : Frame), r.machine.heap.frames[id]? = some f →
      r'.machine.heap.frames[id]? = some f) : Repeats ν m r r' := by
  have htwins : Machine.Twins ν m r.machine r.machine r'.machine := by
    cases h with
    | ok _ hm => exact hm
    | error _ hm => exact hm
  refine ⟨?_, ?_, htwins.lines, htwins.heap, hkept _ _, hagain _ _⟩
  · rintro v m₁ rfl
    cases h with
    | ok hv _ => exact ⟨_, _, rfl, hv, hv.text_eq⟩
  · rintro e m₁ rfl
    cases h with
    | error _ _ => exact ⟨_, rfl⟩

section Calls

variable {settings : Settings} (hset : settings.setReadsGlobal = false)

include hset

/-- No scope that there is before a call is changed by it. -/
theorem applyWithin_keeps (n : Nat) (p : Procedure) (name : String) (args : List Value) (m : Machine) {id : ScopeId}
    {f : Frame} (hf : m.heap.frames[id]? = some f) :
    (Outcome.machine (Procedure.applyWithin settings n p name args m)).heap.frames[id]? = some f :=
  (applyWithin_confined settings n p name args m).kept id f hf fun h =>
    absurd (hset.symm.trans h.1) Bool.false_ne_true

/-- After a call the machine is a twin of the one before it. -/
theorem twins_later {m : Machine} (hm : m.heap.WellFormed) (hroom : m.sink.room = none) {p : Procedure}
    (hp : p.Within m.heap.frames.size) {args : List Value} (hargs : ∀ a ∈ args, a.Within m.heap.frames.size)
    (n : Nat) (name : String) {r : Outcome EvalError Value} (hr : Procedure.applyWithin settings n p name args m = r) :
    Machine.Twins (.later m r.machine (KnownBefore m p args)) m r.machine m r.machine := by
  subst hr
  have hsound : Outcome.Sound m.heap.frames.size (Procedure.applyWithin settings n p name args m) :=
    applyWithin_sound hm n name hp hargs
  have hsize := hsound.size_le
  refine ⟨?_, fun i => (movedFrom_add hsize i).symm, fun i => .inr ⟨i, rfl, rfl⟩,
    (applyWithin_grows settings n p name args m).depth.symm, ?_, .refl _ _, .refl _ _⟩
  · exact Heap.renamed_later hm hsize (fun id f hf => applyWithin_keeps hset n p name args m hf) fun _ => .inl
  · exact hroom.trans ((staysUnlimited settings).apply n p name args Heap.globalScope m hroom).symm

end Calls

/-- A procedure stands for itself. -/
theorem renamed_later_procedure {m : Machine} (later : Machine) {p : Procedure} (hp : p.Within m.heap.frames.size)
    (args : List Value) : ∃ f f' : Value, f.Renamed (.later m later (KnownBefore m p args)) f' ∧
      f.procedure? = some p ∧ f'.procedure? = some p := by
  obtain ⟨v, hv, hin⟩ := hp
  cases v with
  | primitive q => exact ⟨_, _, .primitive q, hv, hv⟩
  | closure id params body scope =>
    obtain rfl := Option.some.inj hv
    cases hin with
    | closure hbody hs =>
      -- A procedure does not say what its closure is called: the next ones stand for each other.
      have hrenamed : body.Renamed (.later m later (KnownBefore m (.closure params body scope) args)) body :=
        Naming.renamed_later hbody fun c s hc => .inr (.inl ⟨s, hc⟩)
      exact ⟨.closure m.heap.closures params body scope, .closure later.heap.closures params body scope,
        .closure (.inr ⟨0, rfl, rfl⟩) hrenamed (Naming.later_scope_of_lt hs), rfl, rfl⟩
  | _ => cases hv

/-- A procedure that is called again, with the same arguments and where its call has ended, ends in
    the same error or with the same result up to the names of what the calls themselves have made,
    and writes the same lines. Neither call changes a scope that there is before it. -/
theorem calls_repeat {settings : Settings} (hset : settings.setReadsGlobal = false) {m : Machine} (hm : m.Reachable)
    (hroom : m.sink.room = none) {p : Procedure} (hp : p.Within m.heap.frames.size) {args : List Value}
    (hargs : ∀ a ∈ args, a.Within m.heap.frames.size) {name : String} {r : Outcome EvalError Value}
    (h : Applies settings p name args m r) :
    ∃ r', Applies settings p name args r.machine r' ∧
      Outcome.Repeats (.later m r.machine (KnownBefore m p args)) m r r' := by
  obtain ⟨⟨n, hr⟩, hfin⟩ := h
  replace hr : Procedure.applyWithin settings n p name args m = r := hr
  have htwins := twins_later hset hm.wellFormed hroom hp hargs n name hr
  obtain ⟨f, f', hf, hproc, hproc'⟩ := renamed_later_procedure r.machine hp args
  have hsame : List.Forall₂ (Value.Renamed (.later m r.machine (KnownBefore m p args))) args args :=
    List.forall₂_same.mpr fun a ha => Naming.renamed_later (hargs a ha) fun c s hc => .inr (.inr ⟨a, ha, s, hc⟩)
  have hglobal (h : settings.setReadsGlobal = true) : (Naming.later m r.machine (KnownBefore m p args)).scope
      Heap.globalScope Heap.globalScope := absurd (hset.symm.trans h) Bool.false_ne_true
  have hagain := htwins.applyWithin hglobal n hf hproc hproc' name hsame
  rw [hr] at hagain
  refine ⟨_, ⟨⟨n, rfl⟩, hagain.finished_iff.mp hfin⟩, hagain.repeats (fun id f hf => ?_) fun id f hf => ?_⟩
  · rw [← hr]
    exact applyWithin_keeps hset n p name args m hf
  · exact applyWithin_keeps hset n p name args r.machine hf

/-- A tree that evaluates to a closure. -/
def makesClosure : Value := .list [.symbol "lambda", .list [], .symbol "x"]

def maker : Procedure := .closure ["x"] makesClosure 0

/-- Two calls of a closure that makes closures, each in a scope of its own. -/
theorem calls_repeat_maker : ∃ r, Applies ⟨false, none⟩ maker "make" [.int 1] (.initial none) r ∧
    ∃ r', Applies ⟨false, none⟩ maker "make" [.int 1] r.machine r' ∧
      Outcome.Repeats (.later (.initial none) r.machine (KnownBefore (.initial none) maker [.int 1]))
        (.initial none) r r' := by
  have hbody : makesClosure.Within 1 := .list <| List.forall_mem_cons.mpr ⟨.symbol _, List.forall_mem_cons.mpr
    ⟨.list fun _ h => absurd h List.not_mem_nil, List.forall_mem_singleton.mpr (.symbol _)⟩⟩
  have hmaker : maker.Within 1 := ⟨.closure 0 ["x"] makesClosure 0, rfl, .closure hbody Nat.zero_lt_one⟩
  have hargs : ∀ a ∈ [Value.int 1], a.Within 1 := by
    intro a ha
    obtain rfl := List.mem_singleton.mp ha
    exact .number _
  have hfin (global : Frame) : Outcome.Finished (Procedure.applyWithin ⟨false, none⟩ 1 maker "make" [.int 1]
      ⟨⟨#[global], 0⟩, 0, .empty none, #[]⟩) := by cbv
  have hr : Applies ⟨false, none⟩ maker "make" [.int 1] (.initial none) _ := ⟨⟨1, rfl⟩, hfin .global⟩
  exact ⟨_, hr, calls_repeat rfl (.initial none) rfl hmaker hargs hr⟩

end LineLisp
