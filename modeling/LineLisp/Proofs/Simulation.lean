/-
  LineLisp.Proofs.Simulation — couplings in which trees and values are related in one way. A
  simulation compares two evaluations: related trees in related scopes, the values that
  they give, and the computations themselves. Worlds say how much of the two machines is
  related so far; what is related in a world stays so in later ones.
  - `Simulation.toCoupling`: any related values are code wherever the scopes are related.
  - `Simulation.applyWith`: applications are related if calls of related closures are.
  - `Simulation.Calls` and `Simulation.Lockstep`: from calls to whole evaluations, which the second
    side is given as many calls for as the first one, or more.
  - `Congruence`: the case of equal trees and values in the same scope, with one relation of
    computations for each scope; `Congruence.evaluateWithin` starts from the calls alone.
-/

import LineLisp.Proofs.Coupling

namespace LineLisp

/-! ## Trees -/

/-- Values of one shape, the elements of lists being related. -/
inductive Value.Alike (R : Value → Value → Prop) : Value → Value → Prop
  | number (n : Number) : Alike R (.number n) (.number n)
  | symbol (name : String) : Alike R (.symbol name) (.symbol name)
  | list {vs vs' : List Value} : List.Forall₂ R vs vs' → Alike R (.list vs) (.list vs')
  | primitive (p : Primitive) : Alike R (.primitive p) (.primitive p)
  | closure (id id' : ClosureId) (params : List String) (body body' : Value) (scope scope' : ScopeId) :
      R body body' → Alike R (.closure id params body scope) (.closure id' params body' scope')
  | nil : Alike R .nil .nil

namespace Value.Alike

variable {R : Value → Value → Prop} {v v' : Value}

theorem refl (v : Value) : Alike Eq v v := by
  cases v with
  | number n => exact .number n
  | symbol name => exact .symbol name
  | list vs => exact .list (List.forall₂_refl vs)
  | primitive p => exact .primitive p
  | closure => exact .closure _ _ _ _ _ _ _ rfl
  | nil => exact .nil

end Value.Alike

/-- Values that are of one shape all the way down differ only in the identities, the bodies and the
    scopes of closures. -/
theorem Value.similar {R : Value → Value → Prop} (hR : ∀ v v', R v v' → Alike R v v') (v v' : Value)
    (h : R v v') : v.Similar v' := by
  induction v using Value.induction generalizing v' with
  | list vs ih =>
    cases hR _ _ h with
    | @list _ vs' hvs =>
      refine .list ?_
      clear h
      induction hvs with
      | nil => exact .nil
      | cons hv _ ihvs =>
        exact .cons (ih _ List.mem_cons_self _ hv) (ihvs fun w hw => ih w (List.mem_cons_of_mem _ hw))
  | number n => cases hR _ _ h; exact .number n
  | symbol name => cases hR _ _ h; exact .symbol name
  | primitive p => cases hR _ _ h; exact .primitive p
  | closure id params body scope ih => cases hR _ _ h; exact .closure _ _ _ _ _ _ _
  | nil => cases hR _ _ h; exact .nil

/-- Values that are of one shape all the way down are printed in the same way. -/
theorem Value.text_eq {R : Value → Value → Prop} (hR : ∀ v v', R v v' → Alike R v v') (v v' : Value)
    (h : R v v') : v.text = v'.text :=
  (Value.similar hR v v' h).text_eq

/-! ## Simulations -/

/-- Under both settings `set!` evaluates in the same scope. -/
def Settings.SameReads (settings settings' : Settings) : Prop :=
  settings.setReadsGlobal = settings'.setReadsGlobal

theorem Settings.SameReads.refl (settings : Settings) : settings.SameReads settings := rfl

/-- A relation of evaluations under two settings, closed under the steps of evaluation. Each
    clause that steps the machines leaves it to the rest of the computation to go on from
    there, in the same world or in a later one. -/
structure Simulation (settings settings' : Settings) where
  World : Type
  le : World → World → Prop
  value : World → Value → Value → Prop
  scope : World → ScopeId → ScopeId → Prop
  /-- Evaluations on behalf of forms that stand in two scopes. -/
  rel : World → ScopeId → ScopeId → Eval Value → Eval Value → Prop
  le_refl (w : World) : le w w
  le_trans {u v w : World} : le u v → le v w → le u w
  value_mono {w w' : World} {v v' : Value} : le w w' → value w v v' → value w' v v'
  scope_mono {w w' : World} {s s' : ScopeId} : le w w' → scope w s s' → scope w' s s'
  alike {w : World} {v v' : Value} : value w v v' → v.Alike (value w) v'
  protected nil (w : World) : value w .nil .nil
  /-- What primitives give is related to itself. -/
  result {w : World} {p : Primitive} {args args' : List Value} {v : Value} :
    List.Forall₂ (value w) args args' → p.result? args = some (.ok v) → value w v v
  global (w : World) : settings.setReadsGlobal = true → scope w Heap.globalScope Heap.globalScope
  sameReads : settings.SameReads settings'
  protected pure {w : World} {s s' : ScopeId} {v v' : Value} : value w v v' → rel w s s' (pure v) (pure v')
  protected fail {w : World} {s s' : ScopeId} (e : EvalError) : rel w s s' (Run.fail e) (Run.fail e)
  protected bind {w : World} {s s' : ScopeId} {x x' : Eval Value} {f f' : Value → Eval Value} :
    rel w s s' x x' → (∀ w' v v', le w w' → value w' v v' → rel w' s s' (f v) (f' v')) →
      rel w s s' (x >>= f) (x' >>= f')
  /-- What is evaluated in the global scope for a form that stands elsewhere. -/
  inGlobal {w : World} {s s' : ScopeId} {x x' : Eval Value} : settings.setReadsGlobal = true →
    rel w Heap.globalScope Heap.globalScope x x' → rel w s s' x x'
  lookup {w : World} {s s' : ScopeId} {f f' : Option Value → Eval Value} (name : String) :
    scope w s s' → (∀ o o', Option.Rel (value w) o o' → rel w s s' (f o) (f' o')) →
      rel w s s' (Eval.lookup s name >>= f) (Eval.lookup s' name >>= f')
  isBound {w : World} {s s' : ScopeId} {f f' : Bool → Eval Value} (name : String) :
    scope w s s' → (∀ b, rel w s s' (f b) (f' b)) →
      rel w s s' (Eval.isBound s name >>= f) (Eval.isBound s' name >>= f')
  /-- The events that forms note; the begin of a call is not one of them. -/
  protected note {w : World} {s s' : ScopeId} {f f' : Unit → Eval Value} {event : LogEvent} :
    event.level = .debug → (∀ w', le w w' → rel w' s s' (f ()) (f' ())) →
      rel w s s' (Run.note event >>= f) (Run.note event >>= f')
  emit {w : World} {s s' : ScopeId} {f f' : Unit → Eval Value} (line : String) :
    (∀ w', le w w' → rel w' s s' (f ()) (f' ())) → rel w s s' (Eval.emit line >>= f) (Eval.emit line >>= f')
  define {w : World} {s s' : ScopeId} {v v' : Value} {f f' : Unit → Eval Value} (name : String) :
    scope w s s' → value w v v' → (∀ w', le w w' → rel w' s s' (f ()) (f' ())) →
      rel w s s' (Eval.define s name v >>= f) (Eval.define s' name v' >>= f')
  newClosure {w : World} {s s' : ScopeId} {body body' : Value} (params : List String) :
    scope w s s' → value w body body' →
      rel w s s' (Eval.newClosure params body s) (Eval.newClosure params body' s')

namespace Simulation

variable {settings settings' : Settings} (S : Simulation settings settings')
variable {w : S.World} {s s' : ScopeId}

theorem elements {ts ts' : List Value} (h : S.value w (.list ts) (.list ts')) :
    List.Forall₂ (S.value w) ts ts' := by
  cases S.alike h with
  | list h => exact h

/-- Where `set!` evaluates its expression, in related scopes if the form stands in such. -/
theorem readScope (hs : S.scope w s s') : S.scope w (settings.readScope s) (settings'.readScope s') := by
  have hsame : settings.setReadsGlobal = settings'.setReadsGlobal := S.sameReads
  unfold Settings.readScope
  rw [← hsame]
  by_cases hg : settings.setReadsGlobal = true
  · rw [if_pos hg, if_pos hg]
    exact S.global w hg
  · rw [if_neg hg, if_neg hg]
    exact hs

theorem rel_of_readScope {x x' : Eval Value}
    (h : S.rel w (settings.readScope s) (settings'.readScope s') x x') : S.rel w s s' x x' := by
  have hsame : settings.setReadsGlobal = settings'.setReadsGlobal := S.sameReads
  unfold Settings.readScope at h
  rw [← hsame] at h
  by_cases hg : settings.setReadsGlobal = true
  · rw [if_pos hg, if_pos hg] at h
    exact S.inGlobal hg h
  · rwa [if_neg hg, if_neg hg] at h

/-- The coupling in which related values are code wherever the scopes are related. -/
def toCoupling : Coupling settings settings' where
  World := S.World
  le := S.le
  scope := S.scope
  code w s s' t t' := S.value w t t' ∧ S.scope w s s'
  value := S.value
  rel := S.rel
  le_refl := S.le_refl
  le_trans := S.le_trans
  code_mono h ht := ⟨S.value_mono h ht.1, S.scope_mono h ht.2⟩
  value_mono := S.value_mono
  scope_of_code h := h.2
  similar_code h := Value.similar (fun _ _ => S.alike) _ _ h.1
  similar_value h := Value.similar (fun _ _ => S.alike) _ _ h
  elements h := (S.elements h.1).imp fun _ _ ht => ⟨ht, h.2⟩
  constant h _ := h.1
  quoted h := by
    cases S.elements h.1 with
    | cons _ h => cases h with
      | cons h _ => exact h
  assigned {w s s' name e e' surplus surplus'} h := by
    cases S.elements h.1 with
    | cons _ ht => cases ht with
      | cons _ ht => cases ht with
        | cons he _ => exact ⟨⟨he, S.readScope h.2⟩, fun _ => S.rel_of_readScope⟩
  nil := S.nil
  result := S.result
  pure := S.pure
  fail := S.fail
  bind := S.bind
  lookup h := S.lookup _ h.2
  isBound h := S.isBound _ h.2
  note := S.note
  emit := S.emit
  define h := S.define _ h.2
  newClosure h := by
    cases S.elements h.1 with
    | cons _ ht => cases ht with
      | cons _ ht => cases ht with
        | cons hb _ => exact S.newClosure _ h.2 hb

/-- Applications of related procedures to related arguments, from related scopes. -/
abbrev ApplyRel (apply apply' : Application) : Prop := S.toCoupling.ApplyRel apply apply'

variable {S}
variable {apply apply' : Application}

/-- Related trees are evaluated in a related way in related scopes. -/
theorem meaning (happly : S.ApplyRel apply apply') (v : Value) {v' : Value} (hv : S.value w v v')
    (hs : S.scope w s s') :
    S.rel w s s' (v.meaning settings apply s) (v'.meaning settings' apply' s') :=
  Coupling.meaning (C := S.toCoupling) happly v ⟨hv, hs⟩

/-! ## Calls -/

/-- Applications are related if the calls of related closures are. -/
theorem applyWith {body body' : Value → Meaning}
    (hcall : ∀ (w : S.World) (s s' : ScopeId) (i i' : ClosureId) (params : List String) (t t' : Value)
      (outer outer' : ScopeId) (name : String) (args args' : List Value), S.scope w s s' →
        S.value w (.closure i params t outer) (.closure i' params t' outer') →
          List.Forall₂ (S.value w) args args' → args.length = params.length →
            S.rel w s s' (Procedure.call settings name params args outer (body t))
              (Procedure.call settings' name params args' outer' (body' t'))) :
    S.ApplyRel (Procedure.applyWith settings body) (Procedure.applyWith settings' body') :=
  Coupling.applyWith (C := S.toCoupling) hcall

variable (S)

/-- The call of a closure is related to another one if the evaluations of related bodies in related
    scopes are related. -/
structure ClosureCalls : Prop where
  call {body body' : Value → Meaning}
    (hbody : ∀ (w : S.World) (s s' : ScopeId) (t t' : Value), S.scope w s s' → S.value w t t' →
      S.rel w s s' (body t s) (body' t' s'))
    (w : S.World) (s s' : ScopeId) (i i' : ClosureId) (params : List String) (t t' : Value)
    (outer outer' : ScopeId) (name : String) (args args' : List Value) : S.scope w s s' →
      S.value w (.closure i params t outer) (.closure i' params t' outer') →
        List.Forall₂ (S.value w) args args' → args.length = params.length →
          S.rel w s s' (Procedure.call settings name params args outer (body t))
            (Procedure.call settings' name params args' outer' (body' t'))

/-- Besides, calls that are out of bounds are related to anything. -/
structure Calls : Prop extends ClosureCalls S where
  unfinished {w : S.World} {s s' : ScopeId} (x' : Eval Value) : S.rel w s s' Run.unfinished x'

/-- Besides, calls that are out of bounds are related to each other. -/
structure Lockstep : Prop extends ClosureCalls S where
  unfinished {w : S.World} {s s' : ScopeId} : S.rel w s s' Run.unfinished Run.unfinished

variable {S}

theorem ClosureCalls.toCoupling (h : S.ClosureCalls) : S.toCoupling.ClosureCalls where
  call hbody := h.call fun w s s' t t' hs ht => hbody w s s' t t' ⟨ht, hs⟩

theorem Calls.toCoupling (h : S.Calls) : S.toCoupling.Calls where
  toClosureCalls := h.toClosureCalls.toCoupling
  unfinished := h.unfinished

theorem Lockstep.toCoupling (h : S.Lockstep) : S.toCoupling.Lockstep where
  toClosureCalls := h.toClosureCalls.toCoupling
  unfinished := h.unfinished

/-- The second side may take more calls than the first. -/
theorem Calls.applyWithin (h : S.Calls) {n n' : Nat} (hn : n ≤ n') :
    S.ApplyRel (Procedure.applyWithin settings n) (Procedure.applyWithin settings' n') :=
  h.toCoupling.applyWithin hn

theorem Calls.evaluateWithin (h : S.Calls) {n n' : Nat} (hn : n ≤ n') {t t' : Value} (ht : S.value w t t')
    (hs : S.scope w s s') :
    S.rel w s s' (evaluateWithin settings n t s) (evaluateWithin settings' n' t' s') :=
  h.toCoupling.evaluateWithin hn ⟨ht, hs⟩

/-- Both sides take equally many calls. -/
theorem Lockstep.applyWithin (h : S.Lockstep) (n : Nat) :
    S.ApplyRel (Procedure.applyWithin settings n) (Procedure.applyWithin settings' n) :=
  h.toCoupling.applyWithin n

theorem Lockstep.evaluateWithin (h : S.Lockstep) (n : Nat) {t t' : Value} (ht : S.value w t t')
    (hs : S.scope w s s') :
    S.rel w s s' (LineLisp.evaluateWithin settings n t s) (LineLisp.evaluateWithin settings' n t' s') :=
  h.toCoupling.evaluateWithin n ⟨ht, hs⟩

end Simulation

/-! ## Congruences -/

/-- A relation of computations under two settings on behalf of a form in a scope, closed
    under the steps of evaluation where these handle the same values. -/
structure Congruence (settings settings' : Settings) where
  rel (s : ScopeId) {α : Type} : Eval α → Eval α → Prop
  sameReads : settings.SameReads settings'
  protected pure (s : ScopeId) {α : Type} (a : α) : rel s (pure a) (pure a)
  protected fail (s : ScopeId) {α : Type} (e : EvalError) : rel s (Run.fail e : Eval α) (Run.fail e)
  protected bind {s : ScopeId} {α β : Type} {x x' : Eval α} {f f' : α → Eval β} :
    rel s x x' → (∀ a, rel s (f a) (f' a)) → rel s (x >>= f) (x' >>= f')
  inGlobal {s : ScopeId} {x x' : Eval Value} : settings.setReadsGlobal = true →
    rel Heap.globalScope x x' → rel s x x'
  lookup (s : ScopeId) (name : String) : rel s (Eval.lookup s name) (Eval.lookup s name)
  isBound (s : ScopeId) (name : String) : rel s (Eval.isBound s name) (Eval.isBound s name)
  note (s : ScopeId) {event : LogEvent} : event.level = .debug → rel s (Run.note event) (Run.note event)
  emit (s : ScopeId) (line : String) : rel s (Eval.emit line) (Eval.emit line)
  define (s : ScopeId) (name : String) (v : Value) : rel s (Eval.define s name v) (Eval.define s name v)
  newClosure (s : ScopeId) (params : List String) (body : Value) :
    rel s (Eval.newClosure params body s) (Eval.newClosure params body s)

namespace Congruence

variable {settings settings' : Settings} (C : Congruence settings settings')

/-- The simulation with one world, in which nothing is related but what is equal. -/
def toSimulation : Simulation settings settings' where
  World := Unit
  le _ _ := True
  value _ := Eq
  scope _ := Eq
  rel _ s s' x x' := s = s' → C.rel s x x'
  le_refl _ := trivial
  le_trans _ _ := trivial
  value_mono _ h := h
  scope_mono _ h := h
  alike h := h ▸ .refl _
  nil _ := rfl
  result _ _ := rfl
  global _ _ := rfl
  sameReads := C.sameReads
  pure hv _ := hv ▸ C.pure _ _
  fail e _ := C.fail _ e
  bind hx hf hs := C.bind (hx hs) fun v => hf () v v trivial rfl hs
  inGlobal hg hx _ := C.inGlobal hg (hx rfl)
  lookup name hs hf hs' := by
    subst hs
    refine C.bind (C.lookup _ name) fun o => hf o o ?_ rfl
    cases o with
    | none => exact .none
    | some v => exact .some rfl
  isBound name hs hf _ := by
    subst hs
    exact C.bind (C.isBound _ name) fun b => hf b rfl
  note hevent hf hs := C.bind (C.note _ hevent) fun _ => hf () trivial hs
  emit line hf hs := C.bind (C.emit _ line) fun _ => hf () trivial hs
  define name hs hv hf _ := by
    subst hs
    subst hv
    exact C.bind (C.define _ name _) fun _ => hf () trivial rfl
  newClosure params hs hb _ := by
    subst hs
    subst hb
    exact C.newClosure _ params _

theorem meaning {apply apply' : Application}
    (happly : ∀ s p name args, C.rel s (apply p name args) (apply' p name args)) (v : Value) (s : ScopeId) :
    C.rel s (v.meaning settings apply s) (v.meaning settings' apply' s) := by
  refine Simulation.meaning (S := C.toSimulation) (w := ()) ?_ v rfl rfl rfl
  rintro _ s _ f _ p p' name args args' rfl rfl hp hp' hargs hs
  obtain rfl := Option.some.inj (hp.symm.trans hp')
  obtain rfl := List.forall₂_eq_eq_eq ▸ hargs
  exact happly s p name args

theorem rel_of_applyRel {apply apply' : Application} (h : C.toSimulation.ApplyRel apply apply') (s : ScopeId)
    (p : Procedure) (name : String) (args : List Value) : C.rel s (apply p name args) (apply' p name args) := by
  have hargs : List.Forall₂ Eq args args := List.forall₂_refl args
  cases p with
  | primitive q => exact h () s s (.primitive q) _ _ _ _ _ _ rfl rfl rfl rfl hargs rfl
  | closure params t outer => exact h () s s (.closure 0 params t outer) _ _ _ _ _ _ rfl rfl rfl rfl hargs rfl

theorem applyWith {body body' : Value → Meaning}
    (hcall : ∀ (s : ScopeId) (name : String) (params : List String) (args : List Value) (outer : ScopeId)
      (t : Value), C.rel s (Procedure.call settings name params args outer (body t))
        (Procedure.call settings' name params args outer (body' t)))
    (s : ScopeId) (p : Procedure) (name : String) (args : List Value) :
    C.rel s (Procedure.applyWith settings body p name args) (Procedure.applyWith settings' body' p name args) := by
  refine C.rel_of_applyRel (Simulation.applyWith ?_) s p name args
  rintro _ s _ i i' params t _ outer _ name args args' rfl hc hargs - -
  cases hc
  obtain rfl := List.forall₂_eq_eq_eq ▸ hargs
  exact hcall s name params args outer t

/-- A call that is out of bounds is related to anything, and the call of a closure is related
    whenever its body is. -/
structure Calls : Prop where
  unfinished (s : ScopeId) (x' : Eval Value) : C.rel s Run.unfinished x'
  call {body body' : Meaning} (hbody : ∀ s, C.rel s (body s) (body' s)) (s : ScopeId) (name : String)
    (params : List String) (args : List Value) (outer : ScopeId) :
    C.rel s (Procedure.call settings name params args outer body)
      (Procedure.call settings' name params args outer body')

variable {C}

theorem Calls.toSimulation (h : C.Calls) : C.toSimulation.Calls where
  unfinished x' _ := h.unfinished _ x'
  call hbody := by
    rintro _ s _ i i' params t _ outer _ name args args' rfl hc hargs - -
    cases hc
    obtain rfl := List.forall₂_eq_eq_eq ▸ hargs
    exact h.call (fun s => hbody () s s t t rfl rfl rfl) s name params args outer

/-- The second side may take more calls than the first. -/
theorem Calls.applyWithin (h : C.Calls) {n n' : Nat} (hn : n ≤ n') (s : ScopeId) (p : Procedure) (name : String)
    (args : List Value) :
    C.rel s (Procedure.applyWithin settings n p name args) (Procedure.applyWithin settings' n' p name args) :=
  C.rel_of_applyRel (h.toSimulation.applyWithin hn) s p name args

theorem Calls.evaluateWithin (h : C.Calls) {n n' : Nat} (hn : n ≤ n') (t : Value) (s : ScopeId) :
    C.rel s (LineLisp.evaluateWithin settings n t s) (LineLisp.evaluateWithin settings' n' t s) :=
  h.toSimulation.evaluateWithin (w := ()) hn rfl rfl rfl

/-- Congruences for each number of calls: they relate what both sides do within that many calls
    if the call of a closure takes the relation of the bodies up by one. -/
structure Graded (C : Nat → Congruence settings settings') : Prop where
  zero (s : ScopeId) (name : String) (params : List String) (args : List Value) (outer : ScopeId) :
    (C 0).rel s (Procedure.call settings name params args outer fun _ => .unfinished)
      (Procedure.call settings' name params args outer fun _ => .unfinished)
  succ {n : Nat} {body body' : Meaning} (hbody : ∀ s, (C n).rel s (body s) (body' s)) (s : ScopeId)
    (name : String) (params : List String) (args : List Value) (outer : ScopeId) :
    (C (n + 1)).rel s (Procedure.call settings name params args outer body)
      (Procedure.call settings' name params args outer body')

variable {C : Nat → Congruence settings settings'}

theorem Graded.applyWithin (h : Graded C) (n : Nat) (s : ScopeId) (p : Procedure) (name : String)
    (args : List Value) :
    (C n).rel s (Procedure.applyWithin settings n p name args) (Procedure.applyWithin settings' n p name args) := by
  induction n generalizing s p name args with
  | zero => exact (C 0).applyWith (fun s name params args outer _ => h.zero s name params args outer) s p name args
  | succ n ih =>
    refine (C (n + 1)).applyWith (fun s name params args outer t => ?_) s p name args
    refine h.succ (fun s => ?_) s name params args outer
    rw [evaluateWithin_eq, evaluateWithin_eq]
    exact (C n).meaning ih t s

theorem Graded.evaluateWithin (h : Graded C) (n : Nat) (t : Value) (s : ScopeId) :
    (C n).rel s (LineLisp.evaluateWithin settings n t s) (LineLisp.evaluateWithin settings' n t s) := by
  rw [evaluateWithin_eq, evaluateWithin_eq]
  exact (C n).meaning (h.applyWithin n) t s

end Congruence

end LineLisp
