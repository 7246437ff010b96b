/-
  LineLisp.Proofs.Moments — what is done as a sequence of single steps. From one moment to the
  next an event is noted, a line written, a name bound, a closure counted, a call entered or the
  innermost call left; a moment has the calls that were entered and not left, and the machine.
  - `Inside`: the evaluations inside an evaluation, with the calls that are active in them.
  - `Operation.Enters`: the calls that an evaluation, an application or the run of a line enters,
    each with the calls that are active then.
  - `Operation.Ends.leads`: however such an operation ends, it is a sequence of steps in which
    no other calls are entered, and all that are entered are left.
  - `Operation.Runs.leads`: also in operations that never end, every evaluation that begins
    stands at a moment to which such steps lead.
-/

import LineLisp.Proofs.Adequacy
import LineLisp.Proofs.LineRun

namespace LineLisp

/-! ## Calls -/

/-- A call of a closure: the name that it goes by, the number of calls that were active before it,
    its scope, and what the closure is made of. -/
structure Call where
  name : String
  number : Nat
  scope : ScopeId
  params : List String
  body : Value
  outer : ScopeId

/-- The first evaluation, of a form, enters a call, whose body is the second one. -/
inductive Enters (settings : Settings) : Task → Call → Task → Prop
  | call {name : String} {operands args : List Value} {scope : ScopeId} {m m' : Machine} {id : ClosureId}
      {params : List String} {body : Value} {outer : ScopeId} :
      Keyword.ofName? name = none → m.heap.get? scope name = some (.closure id params body outer) →
        EvaluatesAll settings scope operands m args m' → args.length = params.length →
          Procedure.MayEnter settings m' →
            Enters settings ⟨.list (.symbol name :: operands), scope, m⟩
              ⟨name, m'.depth, m'.heap.frames.size, params, body, outer⟩
              ⟨body, m'.heap.frames.size, Procedure.entered m' name params args outer⟩

/-- The first evaluation begins the second one, and not as the body of a call. -/
def HasPart (settings : Settings) (t t' : Task) : Prop := Begins settings t t' ∧ ∀ c, ¬ Enters settings t c t'

/-- The second evaluation begins inside the first one, while these calls are active that were
    entered there, the innermost first. -/
inductive Inside (settings : Settings) (t : Task) : List Call → Task → Prop
  | start : Inside settings t [] t
  | part {cs : List Call} {t₁ t₂ : Task} : Inside settings t cs t₁ → HasPart settings t₁ t₂ → Inside settings t cs t₂
  | body {cs : List Call} {c : Call} {t₁ t₂ : Task} : Inside settings t cs t₁ → Enters settings t₁ c t₂ →
      Inside settings t (c :: cs) t₂

/-- Inside an evaluation a call is entered while these are active. -/
def EntersInside (settings : Settings) (t : Task) (cs : List Call) (c : Call) : Prop :=
  ∃ t₁ t₂, Inside settings t cs t₁ ∧ Enters settings t₁ c t₂

variable {settings : Settings}

theorem Enters.begins {t t' : Task} {c : Call} (h : Enters settings t c t') : Begins settings t t' := by
  cases h with
  | call hname hf hall hlen henter => exact .call hname hf hall hlen henter

theorem Enters.depth {t t' : Task} {c : Call} (h : Enters settings t c t') :
    t'.machine.depth = t.machine.depth + 1 := by
  cases h with
  | call _ _ hall _ _ => exact congrArg (· + 1) hall.grows.depth

namespace HasPart

theorem of_begins {t t' : Task} (h : Begins settings t t') (hdepth : t'.machine.depth = t.machine.depth) :
    HasPart settings t t' := by
  refine ⟨h, fun c hc => ?_⟩
  have := hc.depth
  omega

variable {scope : ScopeId} {m m₁ m' : Machine}

theorem condition (c : Value) (branches : List Value) :
    HasPart settings ⟨.form .conditional (c :: branches), scope, m⟩ ⟨c, scope, m⟩ :=
  of_begins (.condition rfl) rfl

theorem branch {c v b : Value} {branches : List Value} (hc : Evaluates settings c scope m (.ok v m'))
    (hb : (c :: branches)[if v.isTrue then 1 else 2]? = some b) :
    HasPart settings ⟨.form .conditional (c :: branches), scope, m⟩ ⟨b, scope, m'⟩ :=
  of_begins (.branch rfl hc hb) hc.grows.depth

theorem definition (name : String) (e : Value) (surplus : List Value) :
    HasPart settings ⟨.form .define (.symbol name :: e :: surplus), scope, m⟩ ⟨e, scope, m⟩ :=
  of_begins (.definition rfl rfl) rfl

theorem assignment {name : String} (e : Value) (surplus : List Value) (hw : Form.warn scope name m = .ok () m') :
    HasPart settings ⟨.form .assign (.symbol name :: e :: surplus), scope, m⟩
      ⟨e, if settings.setReadsGlobal then Heap.globalScope else scope, m'⟩ :=
  of_begins (.assignment rfl rfl hw) (Form.warn_grows hw).depth

theorem count (c : Value) (operands : List Value) :
    HasPart settings ⟨.form .iterate (c :: operands), scope, m⟩ ⟨c, scope, m⟩ :=
  of_begins (.count rfl) rfl

theorem round {c v body : Value} {surplus : List Value} {n i : Nat} (hc : Evaluates settings c scope m (.ok v m₁))
    (hn : Form.count v m₁ = .ok n m₁) (hi : i < n) (hr : Rounds settings body scope i m₁ m') :
    HasPart settings ⟨.form .iterate (c :: body :: surplus), scope, m⟩ ⟨body, scope, m'⟩ :=
  of_begins (.round rfl hc hn rfl hi hr) (hr.grows.depth.trans hc.grows.depth)

theorem operand {name : String} {operands before after vs : List Value} {e : Value}
    (hname : Keyword.ofName? name = none) (htrees : operands = before ++ e :: after)
    (hall : EvaluatesAll settings scope before m vs m') :
    HasPart settings ⟨.list (.symbol name :: operands), scope, m⟩ ⟨e, scope, m'⟩ := by
  subst htrees
  exact of_begins (.operand hname hall) hall.grows.depth

end HasPart

theorem Inside.trans {t t₁ t₂ : Task} {cs cs' : List Call} (h : Inside settings t cs t₁)
    (h' : Inside settings t₁ cs' t₂) : Inside settings t (cs' ++ cs) t₂ := by
  induction h' with
  | start => exact h
  | part _ hp ih => exact .part ih hp
  | body _ he ih => exact .body ih he

theorem Inside.enters {t t₁ : Task} {cs cs' : List Call} {c : Call} (h : Inside settings t cs t₁)
    (hc : EntersInside settings t₁ cs' c) : EntersInside settings t (cs' ++ cs) c := by
  obtain ⟨t₂, t₃, hin, he⟩ := hc
  exact ⟨t₂, t₃, h.trans hin, he⟩

/-! ## Steps -/

/-- The calls that are active, the innermost first, and the machine. -/
structure Moment where
  calls : List Call
  machine : Machine

namespace Moment

/-- A single step, in which a call may be entered that `E` has for the calls that are active. -/
inductive Step (settings : Settings) (E : List Call → Call → Prop) : Moment → Moment → Prop
  | note {cs : List Call} {m : Machine} {event : LogEvent} : event.level = .debug →
      Step settings E ⟨cs, m⟩ ⟨cs, { m with log := m.log.push event }⟩
  | write {cs : List Call} {m : Machine} (line : String) :
      Step settings E ⟨cs, m⟩ ⟨cs, { m with sink := m.sink.write line }⟩
  | define {cs : List Call} {m : Machine} (scope : ScopeId) (name : String) (v : Value) :
      Step settings E ⟨cs, m⟩ ⟨cs, { m with heap := m.heap.define scope name v }⟩
  | makeClosure {cs : List Call} {m : Machine} :
      Step settings E ⟨cs, m⟩ ⟨cs, { m with heap := { m.heap with closures := m.heap.closures + 1 } }⟩
  | enter {cs : List Call} {c : Call} {m : Machine} {args : List Value} : E cs c → c.number = m.depth →
      c.scope = m.heap.frames.size → args.length = c.params.length → Procedure.MayEnter settings m →
        Step settings E ⟨cs, m⟩ ⟨c :: cs, Procedure.entered m c.name c.params args c.outer⟩
  | leave {cs : List Call} {c : Call} {m : Machine} : Step settings E ⟨c :: cs, m⟩ ⟨cs, m.left⟩

/-- Some steps lead from the one moment to the other. -/
abbrev Leads (settings : Settings) (E : List Call → Call → Prop) : Moment → Moment → Prop :=
  Relation.ReflTransGen (Step settings E)

variable {E E' : List Call → Call → Prop}

/-- The same steps with other calls active around them. -/
theorem Leads.around {base cs cs' : List Call} {m m' : Machine} (hE : ∀ cs c, E cs c → E' (cs ++ base) c)
    (h : Leads settings E ⟨cs, m⟩ ⟨cs', m'⟩) : Leads settings E' ⟨cs ++ base, m⟩ ⟨cs' ++ base, m'⟩ := by
  let inner (x : Moment) : Moment := ⟨x.calls ++ base, x.machine⟩
  refine Relation.ReflTransGen.lift (p := Step settings E') inner (fun x y hstep => ?_) _ _ h
  cases hstep with
  | note hevent => exact .note hevent
  | write line => exact .write line
  | define scope name v => exact .define scope name v
  | makeClosure => exact .makeClosure
  | enter hc hnumber hscope hlen henter => exact .enter (hE _ _ hc) hnumber hscope hlen henter
  | leave => exact .leave

end Moment

open Moment

/-- The steps of an evaluation inside another one are steps of that one. -/
theorem Inside.leads_around {t t₁ : Task} {cs cs₁ cs₂ : List Call} {m m' : Machine} (h : Inside settings t cs t₁)
    (hm : Leads settings (EntersInside settings t₁) ⟨cs₁, m⟩ ⟨cs₂, m'⟩) :
    Leads settings (EntersInside settings t) ⟨cs₁ ++ cs, m⟩ ⟨cs₂ ++ cs, m'⟩ :=
  hm.around fun _ _ hc => h.enters hc

theorem HasPart.leads {t t₁ : Task} {m m' : Machine} (h : HasPart settings t t₁)
    (hm : Leads settings (EntersInside settings t₁) ⟨[], m⟩ ⟨[], m'⟩) :
    Leads settings (EntersInside settings t) ⟨[], m⟩ ⟨[], m'⟩ :=
  (Inside.start.part h).leads_around hm

theorem Eval.emit_leads {E : List Call → Call → Prop} {line : String} {m m' : Machine}
    (h : emit line m = .ok () m') (cs : List Call) : Leads settings E ⟨cs, m⟩ ⟨cs, m'⟩ := by
  cases hm : m.sink.isFull with
  | true => rw [emit_of_full hm] at h; cases h
  | false => rw [emit_of_room hm] at h; cases h; exact .single (.write line)

theorem Form.warn_leads {E : List Call → Call → Prop} {scope : ScopeId} {name : String} {m m' : Machine}
    (h : warn scope name m = .ok () m') (cs : List Call) : Leads settings E ⟨cs, m⟩ ⟨cs, m'⟩ := by
  rw [warn_apply] at h
  split at h
  · cases h
    exact .refl
  · exact .head (.note rfl) (Eval.emit_leads h cs)

/-! ## Evaluations that end -/

theorem BigStep.evaluates {tree : Value} {scope : ScopeId} {m m' : Machine} {r : Except EvalError Value}
    (h : BigStep settings tree scope m r m') : Evaluates settings tree scope m (.ofExcept r m') :=
  h.eventually.ends

theorem BigStepAll.evaluatesAll {trees vs : List Value} {scope : ScopeId} {m m' : Machine}
    {r : Except EvalError (List Value)} :
    BigStepAll settings trees scope m r m' → r = .ok vs → EvaluatesAll settings scope trees m vs m'
  | .nil, hr => by
    cases hr
    exact .nil m
  | .fails _, hr => by cases hr
  | @BigStepAll.cons _ _ _ _ r₁ _ _ _ _ h hs, hr => by
    cases r₁ with
    | error e => cases hr
    | ok vs₁ =>
      cases hr
      exact .cons h.evaluates (hs.evaluatesAll rfl)

theorem EvaluatesAll.bigStepAll {trees vs : List Value} {scope : ScopeId} {m m' : Machine}
    (h : EvaluatesAll settings scope trees m vs m') : BigStepAll settings trees scope m (.ok vs) m' := by
  induction h with
  | nil m => exact .nil
  | cons he _ ih => exact .cons (Evaluates.bigStep he) ih

theorem Rounds.bigStepRounds {body : Value} {scope : ScopeId} {n : Nat} {m m' : Machine}
    (h : Rounds settings body scope n m m') : BigStepRounds settings body scope n m (.ok ()) m' := by
  induction h with
  | zero m => exact .zero
  | @succ _ v _ m₁ _ _ he hw _ ih =>
    cases hm : m₁.sink.isFull with
    | true => rw [Eval.emit_of_full hm] at hw; cases hw
    | false =>
      rw [Eval.emit_of_room hm] at hw
      cases hw
      exact .succ (Evaluates.bigStep he) hm ih

theorem Value.eq_closure {v : Value} {params : List String} {body : Value} {outer : ScopeId}
    (h : v.procedure? = some (.closure params body outer)) : ∃ id, v = .closure id params body outer := by
  cases v with
  | closure id ps b o =>
    cases h
    exact ⟨id, rfl⟩
  | number n => cases h
  | symbol s => cases h
  | list vs => cases h
  | primitive p => cases h
  | nil => cases h

mutual

/-- An evaluation that ends is a sequence of steps. -/
theorem BigStep.leads {tree : Value} {scope : ScopeId} {m m' : Machine} {r : Except EvalError Value} :
    BigStep settings tree scope m r m' →
      Leads settings (EntersInside settings ⟨tree, scope, m⟩) ⟨[], m⟩ ⟨[], m'⟩
  | .symbol => .refl
  | .number => .refl
  | .primitive => .refl
  | .closure => .refl
  | .nil => .refl
  | .emptyForm => .refl
  | .inert _ => .single (.note rfl)
  | .malformed _ => .refl
  | .conditionFails hc => (HasPart.condition _ _).leads hc.leads
  | .ifTrue hc hv ht =>
    ((HasPart.condition _ _).leads hc.leads).trans
      ((HasPart.branch hc.evaluates (by rw [hv]; rfl)).leads ht.leads)
  | .ifFalse hc hv he =>
    ((HasPart.condition _ _).leads hc.leads).trans
      ((HasPart.branch hc.evaluates (by rw [hv]; rfl)).leads he.leads)
  | .noThen hc _ => (HasPart.condition _ _).leads hc.leads
  | .noElse hc _ _ => (HasPart.condition _ _).leads hc.leads
  | .defineFails he => (HasPart.definition _ _ _).leads he.leads
  | .define he => ((HasPart.definition _ _ _).leads he.leads).tail (.define _ _ _)
  | .warningLost _ _ => .single (.note rfl)
  | .assignFails hw he => (Form.warn_leads hw.warn_eq []).trans ((HasPart.assignment _ _ hw.warn_eq).leads he.leads)
  | .assign hw he =>
    ((Form.warn_leads hw.warn_eq []).trans ((HasPart.assignment _ _ hw.warn_eq).leads he.leads)).tail (.define _ _ _)
  | .lambda => .single .makeClosure
  | .quote => .refl
  | .countFails hc => (HasPart.count _ _).leads hc.leads
  | .notACount hc _ => (HasPart.count _ _).leads hc.leads
  | .nothingRepeated hc _ => (HasPart.count _ _).leads hc.leads
  | .iterate hc hn hrounds => by
    refine ((HasPart.count _ _).leads hc.leads).trans (hrounds.leads fun i m₁ hi hr => ?_)
    exact .round hc.evaluates (by rw [Form.count_some hn]; rfl) hi hr
  | .operandFails hname hall => hall.leads fun _ _ _ _ _ => .operand hname
  | .notAProcedure hname hall _ => .tail (hall.leads fun _ _ _ _ _ => .operand hname) (.note rfl)
  | .application hname hall hp happly => by
    refine .trans (hall.leads fun _ _ _ _ _ => .operand hname)
      (happly.leads fun params body outer hclosure hlen henter => ?_)
    subst hclosure
    obtain ⟨v, hf, hv⟩ := Option.bind_eq_some_iff.mp hp
    obtain ⟨id, rfl⟩ := Value.eq_closure hv
    have hbody := Enters.call hname hf (hall.evaluatesAll rfl) hlen henter
    exact ⟨⟨_, _, .start, hbody⟩, fun cs c hc => (Inside.start.body hbody).enters hc⟩

theorem BigStepAll.leads {t : Task} {trees : List Value} {scope : ScopeId} {m m' : Machine}
    {r : Except EvalError (List Value)} :
    BigStepAll settings trees scope m r m' →
      (∀ before e after vs m₁, trees = before ++ e :: after → EvaluatesAll settings scope before m vs m₁ →
        HasPart settings t ⟨e, scope, m₁⟩) →
          Leads settings (EntersInside settings t) ⟨[], m⟩ ⟨[], m'⟩
  | .nil, _ => .refl
  | .fails h, hpart => (hpart [] _ _ [] m rfl (.nil m)).leads h.leads
  | .cons h hs, hpart =>
    ((hpart [] _ _ [] m rfl (.nil m)).leads h.leads).trans <| hs.leads fun before e after _ m₁ htrees hbefore =>
      hpart (_ :: before) e after _ m₁ (congrArg _ htrees) (.cons h.evaluates hbefore)

theorem BigStepRounds.leads {t : Task} {body : Value} {scope : ScopeId} {n : Nat} {m m' : Machine}
    {r : Except EvalError Unit} :
    BigStepRounds settings body scope n m r m' →
      (∀ i m₁, i < n → Rounds settings body scope i m m₁ → HasPart settings t ⟨body, scope, m₁⟩) →
        Leads settings (EntersInside settings t) ⟨[], m⟩ ⟨[], m'⟩
  | .zero, _ => .refl
  | .fails h, hpart => (hpart 0 m (Nat.succ_pos _) (.zero m)).leads h.leads
  | .lineLost h _, hpart => (hpart 0 m (Nat.succ_pos _) (.zero m)).leads h.leads
  | .succ h hm hs, hpart => by
    have hround : Leads settings (EntersInside settings t) _ _ := (hpart 0 m (Nat.succ_pos _) (.zero m)).leads h.leads
    refine (hround.tail (.write _)).trans (hs.leads fun i m₁ hi hr => ?_)
    exact hpart (i + 1) m₁ (Nat.succ_lt_succ hi) (.succ h.evaluates (Eval.emit_of_room hm _) hr)

/-- An application that ends is a sequence of steps, in which the call of the closure, if one is
    applied, is the first to be entered. -/
theorem BigStepApply.leads {E : List Call → Call → Prop} {p : Procedure} {name : String} {args : List Value}
    {m m' : Machine} {r : Except EvalError Value} :
    BigStepApply settings p name args m r m' →
      (∀ params body outer, p = .closure params body outer → args.length = params.length →
        Procedure.MayEnter settings m →
          E [] ⟨name, m.depth, m.heap.frames.size, params, body, outer⟩ ∧
            ∀ cs c, EntersInside settings
              ⟨body, m.heap.frames.size, Procedure.entered m name params args outer⟩ cs c →
                E (cs ++ [⟨name, m.depth, m.heap.frames.size, params, body, outer⟩]) c) →
      Leads settings E ⟨[], m⟩ ⟨[], m'⟩
  | .primitive _, _ => .refl
  | .primitiveArity _, _ => .refl
  | .closureArity _, _ => .refl
  | .tooDeep _ _ _, _ => .refl
  | .call hlen henter hbody, hE => by
    obtain ⟨hc, hinside⟩ := hE _ _ _ rfl hlen henter
    exact .head (.enter hc rfl rfl hlen henter) (.tail (hbody.leads.around hinside) .leave)

end

theorem Evaluates.leads {tree : Value} {scope : ScopeId} {m : Machine} {r : Outcome EvalError Value}
    (h : Evaluates settings tree scope m r) :
    Leads settings (EntersInside settings ⟨tree, scope, m⟩) ⟨[], m⟩ ⟨[], r.machine⟩ := by
  obtain ⟨x, m', rfl⟩ := Outcome.exists_ofExcept h.2
  rw [Outcome.machine_ofExcept]
  exact h.bigStep.leads

/-! ## Evaluations inside -/

/-- What comes before an evaluation that is no body of a call enters and leaves calls. -/
theorem HasPart.leads_to {t t' : Task} (h : HasPart settings t t') :
    Leads settings (EntersInside settings t) ⟨[], t.machine⟩ ⟨[], t'.machine⟩ := by
  obtain ⟨hbegins, hbody⟩ := h
  cases hbegins with
  | condition => exact .refl
  | branch hc he _ => exact (of_begins (.condition hc) rfl).leads he.leads
  | definition => exact .refl
  | assignment _ _ hw => exact Form.warn_leads hw []
  | count => exact .refl
  | round hc he hn hb hi hr =>
    refine ((of_begins (.count hc) rfl).leads he.leads).trans (hr.bigStepRounds.leads fun j m' hj hr' => ?_)
    exact of_begins (.round hc he hn hb (Nat.lt_trans hj hi) hr') (hr'.grows.depth.trans he.grows.depth)
  | operand hname hall =>
    refine hall.bigStepAll.leads fun before e after vs m' htrees hbefore => ?_
    exact operand hname (by rw [htrees, List.append_assoc, List.cons_append]) hbefore
  | call hname hf hall hlen henter => exact absurd (.call hname hf hall hlen henter) (hbody _)

theorem Enters.leads {t t' : Task} {c : Call} (h : Enters settings t c t') :
    ∃ m', Leads settings (EntersInside settings t) ⟨[], t.machine⟩ ⟨[], m'⟩ ∧
      ∀ (E : List Call → Call → Prop) (cs : List Call), E cs c → Step settings E ⟨cs, m'⟩ ⟨c :: cs, t'.machine⟩ := by
  cases h with
  | @call name operands args scope m m' id params body outer hname hf hall hlen henter =>
    exact ⟨m', hall.bigStepAll.leads fun _ _ _ _ _ => .operand hname, fun E cs hc => .enter hc rfl rfl hlen henter⟩

/-- An evaluation inside another one stands at a moment of it. -/
theorem Inside.leads {t t' : Task} {cs : List Call} (h : Inside settings t cs t') :
    Leads settings (EntersInside settings t) ⟨[], t.machine⟩ ⟨cs, t'.machine⟩ := by
  induction h with
  | start => exact .refl
  | part hin hp ih => exact ih.trans (hin.leads_around hp.leads_to)
  | body hin he ih =>
    obtain ⟨m', hm', henter⟩ := he.leads
    exact (ih.trans (hin.leads_around hm')).tail (henter _ _ ⟨_, _, hin, he⟩)

/-! ## Operations -/

/-- The operations that evaluate something. -/
inductive Operation where
  | evaluate (tree : Value) (scope : ScopeId)
  | apply (p : Procedure) (name : String) (args : List Value)
  | line (text : String)

namespace Operation

/-- From one machine the operation comes to another one with a value or an error. -/
inductive Ends (settings : Settings) (m : Machine) : Operation → Machine → Prop
  | evaluate {tree : Value} {scope : ScopeId} {r : Outcome EvalError Value} :
      Evaluates settings tree scope m r → Ends settings m (.evaluate tree scope) r.machine
  | apply {p : Procedure} {name : String} {args : List Value} {r : Outcome EvalError Value} :
      Applies settings p name args m r → Ends settings m (.apply p name args) r.machine
  | line {text : String} {r : Outcome LineError Unit} : Line.run settings text m = r → r.Finished →
      Ends settings m (.line text) r.machine

/-- The operation begins an evaluation while these calls are active that it has entered, the
    innermost first. -/
inductive Runs (settings : Settings) (m : Machine) : Operation → List Call → Task → Prop
  | evaluate {tree : Value} {scope : ScopeId} {cs : List Call} {t : Task} :
      Inside settings ⟨tree, scope, m⟩ cs t → Runs settings m (.evaluate tree scope) cs t
  | apply {params : List String} {body : Value} {outer : ScopeId} {name : String} {args : List Value}
      {cs : List Call} {t : Task} : args.length = params.length → Procedure.MayEnter settings m →
        Inside settings ⟨body, m.heap.frames.size, Procedure.entered m name params args outer⟩ cs t →
          Runs settings m (.apply (.closure params body outer) name args)
            (cs ++ [⟨name, m.depth, m.heap.frames.size, params, body, outer⟩]) t
  | line {text : String} {cs : List Call} {t₀ t : Task} : Line.Begins settings text m t₀ →
      Inside settings t₀ cs t → Runs settings m (.line text) cs t

/-- The operation enters a call while these are active. -/
inductive Enters (settings : Settings) (m : Machine) : Operation → List Call → Call → Prop
  | inside {op : Operation} {cs : List Call} {c : Call} {t t' : Task} : Runs settings m op cs t →
      LineLisp.Enters settings t c t' → Enters settings m op cs c
  | applied {params : List String} {body : Value} {outer : ScopeId} {name : String} {args : List Value} :
      args.length = params.length → Procedure.MayEnter settings m →
        Enters settings m (.apply (.closure params body outer) name args) []
          ⟨name, m.depth, m.heap.frames.size, params, body, outer⟩

variable {m : Machine}

theorem Runs.inside {op : Operation} {cs cs' : List Call} {t t' : Task} (h : Runs settings m op cs t)
    (hin : Inside settings t cs' t') : Runs settings m op (cs' ++ cs) t' := by
  cases h with
  | evaluate h => exact .evaluate (h.trans hin)
  | apply hlen henter h =>
    rw [← List.append_assoc]
    exact .apply hlen henter (h.trans hin)
  | line hbegins h => exact .line hbegins (h.trans hin)

/-- The steps of an evaluation that begins in an operation are steps of that. -/
theorem Runs.leads_around {op : Operation} {cs cs₁ cs₂ : List Call} {t : Task} {m₁ m₂ : Machine}
    (h : Runs settings m op cs t) (hm : Leads settings (EntersInside settings t) ⟨cs₁, m₁⟩ ⟨cs₂, m₂⟩) :
    Leads settings (Enters settings m op) ⟨cs₁ ++ cs, m₁⟩ ⟨cs₂ ++ cs, m₂⟩ := by
  refine hm.around fun cs' c hc => ?_
  obtain ⟨t₁, t₂, hin, he⟩ := hc
  exact .inside (h.inside hin) he

end Operation

/-! ## Lines -/

theorem Run.finished_mapError {ε ε' α : Type} (f : ε → ε') (x : Run ε α) (m : Machine) :
    Outcome.Finished (mapError f x m) ↔ Outcome.Finished (x m) := by
  unfold mapError
  cases x m with
  | ok a m' => exact Iff.rfl
  | error e m' => cases e <;> exact Iff.rfl

/-- Steps lead to where a computation ends, if they do for its parts. -/
theorem leads_bind {ε α β : Type} {E : List Call → Call → Prop} {x : Run ε α} {f : α → Run ε β} {m : Machine}
    (hx : Outcome.Finished (x m) → Leads settings E ⟨[], m⟩ ⟨[], Outcome.machine (x m)⟩)
    (hf : ∀ a m', x m = .ok a m' → Outcome.Finished (f a m') →
      Leads settings E ⟨[], m'⟩ ⟨[], Outcome.machine (f a m')⟩)
    (hfin : Outcome.Finished ((x >>= f) m)) : Leads settings E ⟨[], m⟩ ⟨[], Outcome.machine ((x >>= f) m)⟩ := by
  rw [Run.bind_apply] at hfin ⊢
  cases hxm : x m with
  | ok a m' =>
    rw [hxm] at hx hfin
    exact (hx trivial).trans (hf a m' hxm hfin)
  | error e m' =>
    rw [hxm] at hx hfin
    cases e with
    | failed e => exact hx trivial
    | unfinished => exact hfin.elim

theorem emit_leads_outcome {E : List Call → Call → Prop} (line : String) (m : Machine) :
    Leads settings E ⟨[], m⟩ ⟨[], Outcome.machine (Eval.emit line m)⟩ := by
  cases hm : m.sink.isFull with
  | true =>
    rw [Eval.emit_of_full hm]
    exact .refl
  | false =>
    rw [Eval.emit_of_room hm]
    exact .single (.write line)

namespace Line

variable {text : String} {m m₁ : Machine} {r : Reader}

/-- The calls that the run of a line enters. -/
abbrev calls (settings : Settings) (text : String) (m : Machine) : List Call → Call → Prop :=
  Operation.Enters settings m (.line text)

theorem runTree_leads {tree : Value} (hreach : Reaches settings text m r m₁) (hread : r.read.1 = .ok tree)
    (hfin : Outcome.Finished (runTree settings tree m₁)) :
    Leads settings (calls settings text m) ⟨[], m₁⟩ ⟨[], Outcome.machine (runTree settings tree m₁)⟩ := by
  refine leads_bind (fun _ => emit_leads_outcome _ _) (fun _ m₂ hw hfin => ?_) hfin
  refine leads_bind (fun hfin => ?_) (fun v m₃ _ _ => emit_leads_outcome _ _) hfin
  have hleads := Evaluates.leads ⟨⟨settings.callBound, rfl⟩, hfin⟩
  exact Operation.Runs.leads_around (.line (.tree hreach hread hw) .start) hleads

theorem runTrees_leads (hreach : Reaches settings text m r m₁) (hfin : Outcome.Finished (runTrees settings r m₁)) :
    Leads settings (calls settings text m) ⟨[], m₁⟩ ⟨[], Outcome.machine (runTrees settings r m₁)⟩ := by
  induction r using runTrees.induct generalizing m₁ with
  | case1 r e hread =>
    rw [runTrees_eq, hread]
    exact .refl
  | case2 r tree hread ih =>
    rw [runTrees_eq, hread] at hfin ⊢
    refine leads_bind (fun hfin => ?_) (fun _ m₂ hrun hfin => ?_) hfin
    · rw [Run.machine_mapError]
      exact runTree_leads hreach hread ((Run.finished_mapError _ _ _).mp hfin)
    · cases hmore : r.read.2.isExhausted with
      | true => exact .refl
      | false =>
        rw [hmore] at hfin
        exact ih (.next hreach hread (Run.ok_of_mapError hrun) hmore) hfin

theorem run_leads (hfin : Outcome.Finished (run settings text m)) :
    Leads settings (calls settings text m) ⟨[], m⟩ ⟨[], Outcome.machine (run settings text m)⟩ := by
  rw [run_apply] at hfin ⊢
  refine .head (.note rfl) (leads_bind (fun _ => ?_) (fun _ m₁ hw hfin => ?_) hfin)
  · rw [Run.machine_mapError]
    exact emit_leads_outcome _ _
  · exact runTrees_leads (.start (Run.ok_of_mapError hw)) hfin

theorem Reaches.leads (h : Reaches settings text m r m₁) :
    Leads settings (calls settings text m) ⟨[], m⟩ ⟨[], m₁⟩ := by
  induction h with
  | start hw => exact .head (.note rfl) (Eval.emit_leads hw [])
  | next hreach hread hrun _ ih =>
    have hleads := runTree_leads hreach hread (by rw [hrun]; trivial)
    rw [hrun] at hleads
    exact ih.trans hleads

theorem Begins.leads {t : Task} (h : Begins settings text m t) :
    Leads settings (calls settings text m) ⟨[], m⟩ ⟨[], t.machine⟩ := by
  cases h with
  | tree hreach _ hw => exact hreach.leads.trans (Eval.emit_leads hw [])

end Line

namespace Operation

variable {m m' : Machine} {op : Operation}

/-- However an operation ends, it is a sequence of steps in which no call is entered but those
    that it enters, and all these are left. -/
theorem Ends.leads (h : Ends settings m op m') : Leads settings (Enters settings m op) ⟨[], m⟩ ⟨[], m'⟩ := by
  cases h with
  | evaluate he => exact Runs.leads_around (.evaluate .start) he.leads
  | @apply p name args r ha =>
    obtain ⟨x, m', rfl⟩ := Outcome.exists_ofExcept ha.2
    rw [Outcome.machine_ofExcept]
    refine ha.bigStep.leads fun params body outer hp hlen henter => ?_
    subst hp
    refine ⟨.applied hlen henter, fun cs c hc => ?_⟩
    obtain ⟨t₁, t₂, hin, he⟩ := hc
    exact .inside (.apply hlen henter hin) he
  | line hr hfin =>
    subst hr
    exact Line.run_leads hfin

/-- Every evaluation that begins in an operation stands at a moment of it. -/
theorem Runs.leads {cs : List Call} {t : Task} (h : Runs settings m op cs t) :
    Leads settings (Enters settings m op) ⟨[], m⟩ ⟨cs, t.machine⟩ := by
  cases h with
  | evaluate hin => simpa using leads_around (.evaluate .start) hin.leads
  | @apply params body outer name args cs t hlen henter hin =>
    exact .head (.enter (.applied hlen henter) rfl rfl hlen henter) (leads_around (.apply hlen henter .start) hin.leads)
  | line hbegins hin => simpa using hbegins.leads.trans (leads_around (.line hbegins .start) hin.leads)

/-- Every call that an operation enters is a step at a moment of it. -/
theorem Enters.leads {cs : List Call} {c : Call} (h : Enters settings m op cs c) :
    ∃ m₁ m₂, Leads settings (Enters settings m op) ⟨[], m⟩ ⟨cs, m₁⟩ ∧
      Step settings (Enters settings m op) ⟨cs, m₁⟩ ⟨c :: cs, m₂⟩ := by
  cases h with
  | applied hlen henter => exact ⟨m, _, .refl, .enter (.applied hlen henter) rfl rfl hlen henter⟩
  | @inside _ _ _ t t' hruns he =>
    obtain ⟨m₁, hm₁, henter⟩ := he.leads
    exact ⟨m₁, t'.machine, hruns.leads.trans (hruns.leads_around hm₁), henter _ _ (.inside hruns he)⟩

end Operation

end LineLisp
