/-
  LineLisp.Proofs.LexicalScope — an evaluation depends on what it can reach and on nothing else.
  From some scopes those are in reach that stand around them and those in which closures were
  made that their names are bound to; closures also occur inside of lists and of bodies.
  - `Machine.AgreeFrom`: machines that differ at most in scopes out of reach of some roots, and
    in what their closures are called.
  - `sees_only_reachable`: from such machines evaluation and application end in the same way, in
    machines that agree in the same sense, also on what the result brings in reach. The roots are
    the scope, the tree and, where `set!` reads globally, the global scope; of an application,
    the procedure and its arguments, but not the scope of the caller.
-/

import LineLisp.Proofs.Renaming
import LineLisp.Proofs.WriteConfinement

namespace LineLisp

/-! ## Reach -/

/-- A closure that was made in the scope occurs in the value. -/
def Value.Captures (s : ScopeId) (v : Value) : Prop := ∃ c, v.Contains c s

/-- It is the procedure of a value in which a closure occurs that was made in the scope. -/
def Procedure.Captures (s : ScopeId) (p : Procedure) : Prop := ∃ v : Value, v.procedure? = some p ∧ v.Captures s

theorem Procedure.exists_value (p : Procedure) : ∃ v : Value, v.procedure? = some p := by
  cases p with
  | primitive q => exact ⟨.primitive q, rfl⟩
  | closure params body scope => exact ⟨.closure 0 params body scope, rfl⟩

/-- The scopes in reach of the roots. -/
inductive Heap.Reaches (h : Heap) (roots : ScopeId → Prop) : ScopeId → Prop
  | root {s : ScopeId} : roots s → Reaches h roots s
  | outer {s o : ScopeId} {f : Frame} : Reaches h roots s → h.frames[s]? = some f → f.outer = some o →
      Reaches h roots o
  | captured {s t : ScopeId} {f : Frame} {name : String} {v : Value} : Reaches h roots s →
      h.frames[s]? = some f → f.get? name = some v → v.Captures t → Reaches h roots t

/-- Scopes keep their names, closures may change theirs to the same in another sense. -/
def Naming.sameScopes (same : ClosureId → ClosureId → Prop) : Naming where
  scope := Eq
  closure := same
  ordered := by
    rintro s _ t _ rfl rfl
    exact Iff.rfl

/-- Where closures keep their names too, nothing is renamed. -/
theorem Value.renamed_sameScopes_eq_iff {v v' : Value} : v.Renamed (.sameScopes Eq) v' ↔ v = v' := by
  refine ⟨fun h => ?_, fun h => h ▸ .refl v fun _ _ _ => ⟨rfl, rfl⟩⟩
  induction v using Value.induction generalizing v' with
  | number n => cases h; rfl
  | symbol name => cases h; rfl
  | list vs ih =>
    cases h with
    | @list _ vs' hvs =>
      congr 1
      induction hvs with
      | nil => rfl
      | cons hu _ ihus =>
        rw [ih _ List.mem_cons_self hu, ihus fun v hv => ih v (List.mem_cons_of_mem _ hv)]
  | primitive p => cases h; rfl
  | closure id params body scope ih =>
    cases h with
    | closure hc hbody hs => rw [hc, ih hbody, hs]
  | nil => cases h; rfl

/-- Machines with the same depth, sink and number of scopes that agree on the scopes in reach of
    the roots: where one of them is there, it is there on both sides, inside the same scope and
    with the same names bound to the same values. Closures are the same in the sense of `same`,
    also those that are made next; if the machines have made equally many, that may be equality. -/
structure Machine.AgreeFrom (same : ClosureId → ClosureId → Prop) (roots : ScopeId → Prop) (m m' : Machine) :
    Prop where
  depth : m.depth = m'.depth
  sink : m.sink = m'.sink
  size : m.heap.frames.size = m'.heap.frames.size
  closures (i : Nat) : same (m.heap.closures + i) (m'.heap.closures + i)
  scopes {s : ScopeId} : m.heap.Reaches roots s →
    Option.Rel (Frame.Renamed (.sameScopes same)) m.heap.frames[s]? m'.heap.frames[s]?

/-- The same error, or the same value, and machines that agree, also on what the value brings in
    reach. -/
inductive Outcome.AgreeFrom (same : ClosureId → ClosureId → Prop) (roots : ScopeId → Prop) :
    Outcome EvalError Value → Outcome EvalError Value → Prop
  | ok {v v' : Value} {m m' : Machine} : v.Renamed (.sameScopes same) v' →
      Machine.AgreeFrom same (fun s => roots s ∨ v.Captures s) m m' → AgreeFrom same roots (.ok v m) (.ok v' m')
  | error (e : Stop EvalError) {m m' : Machine} : Machine.AgreeFrom same roots m m' →
      AgreeFrom same roots (.error e m) (.error e m')

/-! ## Twins in sight -/

variable {same : ClosureId → ClosureId → Prop} {roots : ScopeId → Prop} {m m' : Machine}

/-- Only the scopes in sight have names at all. -/
def Naming.inSight (same : ClosureId → ClosureId → Prop) (sight : ScopeId → Prop) : Naming where
  scope s s' := s = s' ∧ sight s
  closure := same
  ordered := by
    rintro s _ t _ ⟨rfl, -⟩ ⟨rfl, -⟩
    exact Iff.rfl

/-- The scopes in reach and those that are made next. -/
def Machine.Sight (m : Machine) (roots : ScopeId → Prop) (s : ScopeId) : Prop :=
  m.heap.Reaches roots s ∨ m.heap.frames.size ≤ s

theorem Machine.inSight_root (m : Machine) (same : ClosureId → ClosureId → Prop) {s : ScopeId} (hs : roots s) :
    (Naming.inSight same (m.Sight roots)).scope s s :=
  ⟨rfl, .inl (.root hs)⟩

/-- A value whose closures were made in roots stands for itself. -/
theorem Value.renamed_inSight (v : Value) (hsame : ∀ c, same c c) (m : Machine) (h : ∀ s, v.Captures s → roots s) :
    v.Renamed (.inSight same (m.Sight roots)) v :=
  .refl v fun c s hc => ⟨hsame c, m.inSight_root same (h s ⟨c, hc⟩)⟩

/-- Machines that agree on what is in reach are twins as far as one can see. -/
theorem Machine.AgreeFrom.twins (h : AgreeFrom same roots m m') :
    Twins (.inSight same (m.Sight roots)) m m' m m' where
  heap := by
    rintro s _ ⟨rfl, hs | hs⟩
    · -- What a scope in reach stands in, and what its values hold, is in reach too.
      refine (h.scopes hs).imp fun f f' hf hframe => ⟨?_, fun name => ?_⟩
      · exact hframe.outer.imp fun o o' ho heq => ⟨heq, .inl (.outer hs hf ho)⟩
      · refine (hframe.get? name).imp fun v v' hv hvalue => hvalue.imp fun c c' t t' hin hc ht => ?_
        exact ⟨hc, ht, .inl (.captured hs hf hv ⟨c, hin⟩)⟩
    · rw [Array.getElem?_eq_none hs, Array.getElem?_eq_none (h.size ▸ hs)]
      exact .none
  scopes i := ⟨congrArg (· + i) h.size, .inr (Nat.le_add_right _ i)⟩
  closures := h.closures
  depth := h.depth
  room := congrArg (·.room) h.sink
  lines := .refl _ _
  events := .refl _ _

namespace Machine.Twins

variable {sight : ScopeId → Prop} {start start' : Machine}

/-- What is in reach of scopes in sight is in sight. -/
theorem sight_of_reaches (h : Twins (.inSight same sight) start start' m m') (hroots : ∀ s, roots s → sight s)
    {s : ScopeId} (hs : m.heap.Reaches roots s) : sight s := by
  induction hs with
  | root hs => exact hroots _ hs
  | outer _ hf ho ih =>
    obtain ⟨f', -, hframe⟩ := (h.heap _ _ ⟨rfl, ih⟩).exists_of_eq_some hf
    obtain ⟨o', -, -, hsight⟩ := hframe.outer.exists_of_eq_some ho
    exact hsight
  | captured _ hf hv hin ih =>
    obtain ⟨f', -, hframe⟩ := (h.heap _ _ ⟨rfl, ih⟩).exists_of_eq_some hf
    obtain ⟨v', -, hvalue⟩ := (hframe.get? _).exists_of_eq_some hv
    obtain ⟨c, hin⟩ := hin
    obtain ⟨-, s', -, hsight⟩ := hvalue.of_contains hin
    exact hsight

theorem agreeFrom (h : Twins (.inSight same sight) start start' m m') (hsink : start.sink = start'.sink)
    (hroots : ∀ s, roots s → sight s) : AgreeFrom same roots m m' where
  depth := h.depth
  sink := by
    obtain ⟨added, hlines, hlines'⟩ := h.lines
    have hsame : m.sink.lines = m'.sink.lines := Array.ext' (by rw [hlines, hlines', hsink])
    have hroom := h.room
    cases hm : m.sink
    cases hm' : m'.sink
    simp_all
  size := (h.scopes 0).1
  closures := h.closures
  scopes hs := by
    refine (h.heap _ _ ⟨rfl, h.sight_of_reaches hroots hs⟩).imp fun f f' _ hframe => ⟨?_, fun name => ?_⟩
    · exact hframe.outer.imp fun o o' _ ho => ho.1
    · exact (hframe.get? name).imp fun v v' _ hvalue => hvalue.imp fun c c' t t' _ hc ht => ⟨hc, ht.1⟩

end Machine.Twins

theorem Outcome.Twins.agreeFrom {sight : ScopeId → Prop} {start start' : Machine} {r r' : Outcome EvalError Value}
    (h : Twins (.inSight same sight) start start' r r') (hsink : start.sink = start'.sink)
    (hroots : ∀ s, roots s → sight s) : AgreeFrom same roots r r' := by
  cases h with
  | error e hm => exact .error e (hm.agreeFrom hsink hroots)
  | ok hv hm =>
    refine .ok (hv.imp fun c c' t t' _ hc ht => ⟨hc, ht.1⟩) (hm.agreeFrom hsink ?_)
    rintro s (hs | ⟨c, hin⟩)
    · exact hroots s hs
    · obtain ⟨-, s', -, hsight⟩ := hv.of_contains hin
      exact hsight

theorem Outcome.AgreeFrom.finished_iff {r r' : Outcome EvalError Value} (h : AgreeFrom same roots r r') :
    r.Finished ↔ r'.Finished := by
  cases h with
  | ok _ _ => exact Iff.rfl
  | error e _ => cases e <;> exact Iff.rfl

/-! ## Noninterference -/

/-- Both runs end or neither does, and then they agree. -/
def EndAlike (same : ClosureId → ClosureId → Prop) (roots : ScopeId → Prop)
    (ends ends' : Outcome EvalError Value → Prop) : Prop :=
  (∀ r, ends r → ∃ r', ends' r' ∧ Outcome.AgreeFrom same roots r r') ∧
    ∀ r', ends' r' → ∃ r, ends r ∧ Outcome.AgreeFrom same roots r r'

theorem EndAlike.of_within {within : Nat → Eval Value}
    (h : ∀ n, Outcome.AgreeFrom same roots (within n m) (within n m')) :
    EndAlike same roots (Ends within m) (Ends within m') := by
  constructor
  · rintro r ⟨⟨n, rfl⟩, hfin⟩
    exact ⟨_, ⟨⟨n, rfl⟩, (h n).finished_iff.mp hfin⟩, h n⟩
  · rintro r' ⟨⟨n, rfl⟩, hfin⟩
    exact ⟨_, ⟨⟨n, rfl⟩, (h n).finished_iff.mpr hfin⟩, h n⟩

/-- From machines that agree on all that is in reach of a scope, of a tree and of what `set!` reads,
    the tree is evaluated in the same way in the scope. A procedure is applied in the same way where
    they agree on all that is in reach of it, of its arguments and of what `set!` reads. -/
theorem sees_only_reachable (settings : Settings) {same : ClosureId → ClosureId → Prop}
    (hsame : ∀ c, same c c) (m m' : Machine) :
    (∀ (tree : Value) (scope : ScopeId),
      let roots s := s = scope ∨ tree.Captures s ∨ settings.SetReads s
      Machine.AgreeFrom same roots m m' →
        EndAlike same roots (Evaluates settings tree scope m) (Evaluates settings tree scope m')) ∧
    (∀ (p : Procedure) (name : String) (args : List Value),
      let roots s := p.Captures s ∨ (∃ a ∈ args, a.Captures s) ∨ settings.SetReads s
      Machine.AgreeFrom same roots m m' →
        EndAlike same roots (Applies settings p name args m) (Applies settings p name args m')) := by
  constructor
  · intro tree scope roots h
    refine .of_within fun n => ?_
    have hglobal (hg : settings.setReadsGlobal = true) : roots Heap.globalScope := .inr (.inr ⟨hg, rfl⟩)
    have htree : tree.Renamed (.inSight same (m.Sight roots)) tree :=
      tree.renamed_inSight hsame m fun s hs => .inr (.inl hs)
    have hscope : roots scope := .inl rfl
    have hends := h.twins.evaluateWithin (fun hg => m.inSight_root same (hglobal hg)) n htree (m.inSight_root same hscope)
    exact hends.agreeFrom h.sink fun s hs => .inl (.root hs)
  · intro p name args roots h
    refine .of_within fun n => ?_
    have hglobal (hg : settings.setReadsGlobal = true) : roots Heap.globalScope := .inr (.inr ⟨hg, rfl⟩)
    obtain ⟨f, hp⟩ := p.exists_value
    have hf : f.Renamed (.inSight same (m.Sight roots)) f :=
      f.renamed_inSight hsame m fun s hs => .inl ⟨f, hp, hs⟩
    have hargs : List.Forall₂ (Value.Renamed (.inSight same (m.Sight roots))) args args :=
      List.forall₂_same.mpr fun a ha => a.renamed_inSight hsame m fun s hs => .inr (.inl ⟨a, ha, hs⟩)
    have hends := h.twins.applyWithin (fun hg => m.inSight_root same (hglobal hg)) n hf hp hp name hargs
    exact hends.agreeFrom h.sink fun s hs => .inl (.root hs)

/-- A closure that gives `x`, made in the global scope. -/
def readsX : Value := .closure 0 [] (.symbol "x") 0

def aroundX : Frame := ⟨none, [("x", .int 10), ("f", readsX)]⟩

/-- A scope that binds `x` to `n`, inside the global one, which binds it to 10 and `f` to the closure. -/
def shadowing (n : Int32) : Machine where
  heap := ⟨#[aroundX, ⟨some 0, [("x", .int n)]⟩], 1⟩
  depth := 0
  sink := .empty none
  log := #[]

theorem readsX_captures {s : ScopeId} (h : readsX.Captures s) : s = 0 := by
  obtain ⟨c, h⟩ := h
  cases h with
  | made => rfl
  | body h => cases h

/-- The inner scope is out of reach of the global one. -/
theorem shadowing_agree (n n' : Int32) {roots : ScopeId → Prop} (hroots : ∀ s, roots s → s = 0) :
    Machine.AgreeFrom Eq roots (shadowing n) (shadowing n') where
  depth := rfl
  sink := rfl
  size := rfl
  closures _ := rfl
  scopes {s} hs := by
    have hglobal : s = 0 := by
      induction hs with
      | root hs => exact hroots _ hs
      | @outer _ o f _ hf ho ih =>
        subst ih
        obtain rfl : aroundX = f := Option.some.inj hf
        cases ho
      | @captured _ t f name v _ hf hv hin ih =>
        subst ih
        obtain rfl : aroundX = f := Option.some.inj hf
        simp only [Frame.get?, aroundX, List.lookup_cons, List.lookup_nil] at hv
        split at hv
        · cases hv
          obtain ⟨c, hin⟩ := hin
          cases hin
        · split at hv
          · cases hv
            exact readsX_captures hin
          · cases hv
    subst hglobal
    have hframe : Frame.Renamed (.sameScopes Eq) aroundX aroundX := by
      refine ⟨.none, fun name => ?_⟩
      cases aroundX.get? name with
      | none => exact .none
      | some v => exact .some (Value.renamed_sameScopes_eq_iff.mpr rfl)
    exact .some hframe

/-- What the inner scope binds `x` to makes no difference to a call of `f`. -/
theorem sees_only_reachable_shadowing :
    (∃ r', Evaluates .standard (.list [.symbol "f"]) 0 (shadowing 2) r' ∧ Outcome.AgreeFrom Eq
      (fun s => s = 0 ∨ Value.Captures s (.list [.symbol "f"]) ∨ Settings.standard.SetReads s)
      (evaluateWithin .standard 1 (.list [.symbol "f"]) 0 (shadowing 1)) r') ∧
    ∃ r', Applies .standard (.closure [] (.symbol "x") 0) "f" [] (shadowing 2) r' ∧ Outcome.AgreeFrom Eq
      (fun s => Procedure.Captures s (.closure [] (.symbol "x") 0) ∨ (∃ a ∈ [], Value.Captures s a) ∨
        Settings.standard.SetReads s)
      (Procedure.applyWithin .standard 1 (.closure [] (.symbol "x") 0) "f" [] (shadowing 1)) r' := by
  obtain ⟨heval, happly⟩ := sees_only_reachable .standard (@rfl ClosureId) (shadowing 1) (shadowing 2)
  have htree : ∀ s, s = 0 ∨ Value.Captures s (.list [.symbol "f"]) ∨ Settings.standard.SetReads s → s = 0 := by
    rintro s (rfl | ⟨c, hin⟩ | ⟨-, rfl⟩)
    · rfl
    · cases hin with
      | element hv hin =>
        obtain rfl := List.mem_singleton.mp hv
        cases hin
    · rfl
  have hproc : ∀ s, Procedure.Captures s (.closure [] (.symbol "x") 0) ∨ (∃ a ∈ [], Value.Captures s a) ∨
      Settings.standard.SetReads s → s = 0 := by
    rintro s (⟨v, hv, c, hin⟩ | ⟨a, ha, -⟩ | ⟨-, rfl⟩)
    · cases v <;> cases hv
      cases hin with
      | made => rfl
      | body hin => cases hin
    · cases ha
    · rfl
  have h₁ : Evaluates .standard (.list [.symbol "f"]) 0 (shadowing 1) _ := ⟨⟨1, rfl⟩, by cbv⟩
  have h₂ : Applies .standard (.closure [] (.symbol "x") 0) "f" [] (shadowing 1) _ := ⟨⟨1, rfl⟩, by cbv⟩
  exact ⟨(heval _ 0 (shadowing_agree 1 2 htree)).1 _ h₁, (happly _ "f" [] (shadowing_agree 1 2 hproc)).1 _ h₂⟩

end LineLisp
