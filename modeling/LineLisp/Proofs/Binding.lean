/-
  LineLisp.Proofs.Binding — `define` and `set!` bind all or nothing. They evaluate their expression
  first, whatever that does to the name meanwhile, and bind the name in the frame of their own scope
  last; where the expression fails, nothing is left to do for the form.
  - `Machine.BoundIn`: a name is bound in a scope, and nothing else is different.
  - `BindsAfter`: a form ends as its expression does, but for the name that it binds to a value.
  - `FailsAtOnce`: a form fails before it evaluates anything.
  - `Rejects`: it does so before it writes anything, and leaves the machine as it is.
  - `binds_all_or_nothing`: which of these a form is, by its shape and by what becomes of the warning
    of `set!`.
-/

import LineLisp.Proofs.Adequacy
import LineLisp.Proofs.SetWarnings

namespace LineLisp

variable {settings : Settings}

/-! ## One binding -/

namespace Heap

/-- The scope's own frame comes first. -/
theorem get?_of_own? {h : Heap} {scope : ScopeId} {name : String} {v : Value} (hv : h.own? scope name = some v) :
    h.get? scope name = some v := by
  obtain ⟨f, hf, hname⟩ := Option.bind_eq_some_iff.mp hv
  rw [get?, chain, hf]
  show (f :: _).findSome? _ = _
  rw [List.findSome?_cons, hname]

end Heap

namespace Machine

/-- The machine with a name bound in a scope. -/
def define (m : Machine) (scope : ScopeId) (name : String) (v : Value) : Machine :=
  { m with heap := m.heap.define scope name v }

/-- The scope's own frame binds the name to the value, so that it is what the name means there, whatever
    was bound to it before, in this scope or around it. In all else the machines are the same. -/
structure BoundIn (scope : ScopeId) (name : String) (v : Value) (m m' : Machine) : Prop where
  own : m'.heap.own? scope name = some v
  visible : m'.heap.get? scope name = some v
  others {id : ScopeId} {x : String} : ¬ (id = scope ∧ x = name) → m'.heap.own? id x = m.heap.own? id x
  link (id : ScopeId) : m'.heap.link id = m.heap.link id
  size : m'.heap.frames.size = m.heap.frames.size
  closures : m'.heap.closures = m.heap.closures
  depth : m'.depth = m.depth
  sink : m'.sink = m.sink
  log : m'.log = m.log

theorem boundIn_define {m : Machine} {scope : ScopeId} (hscope : scope < m.heap.frames.size) (name : String)
    (v : Value) : BoundIn scope name v m (m.define scope name v) := by
  have hown : (m.define scope name v).heap.own? scope name = some v := by
    show (m.heap.define scope name v).own? scope name = some v
    rw [Heap.own?_define, if_pos ⟨rfl, rfl, hscope⟩]
  constructor
  case own => exact hown
  case visible => exact Heap.get?_of_own? hown
  case others =>
    intro id x hother
    show (m.heap.define scope name v).own? id x = _
    rw [Heap.own?_define, if_neg fun hall => hother ⟨hall.1, hall.2.1⟩]
  case link => exact fun id => m.heap.link_define scope id name v
  case size => exact m.heap.size_define scope name v
  all_goals rfl

end Machine

/-! ## Forms that bind -/

/-- The outcome with its value bound to a name; an error stays as it is. -/
def Outcome.bound {ε : Type} (scope : ScopeId) (name : String) : Outcome ε Value → Outcome ε Value
  | .ok v m => .ok v (m.define scope name v)
  | .error e m => .error e m

namespace Outcome

variable {ε : Type} {scope : ScopeId} {name : String} {r : Outcome ε Value}

theorem finished_bound : (r.bound scope name).Finished ↔ r.Finished := by
  cases r <;> exact Iff.rfl

theorem bound_eq_ok {v : Value} {m' : Machine} :
    r.bound scope name = .ok v m' ↔ ∃ m, r = .ok v m ∧ m' = m.define scope name v := by
  cases r with
  | ok u m =>
    constructor
    · intro h
      cases h
      exact ⟨m, rfl, rfl⟩
    · rintro ⟨_, h, rfl⟩
      cases h
      rfl
  | error e m => simp [bound]

theorem bound_eq_error {e : Stop ε} {m' : Machine} : r.bound scope name = .error e m' ↔ r = .error e m' := by
  cases r <;> simp [bound]

end Outcome

theorem Eval.bind_define (x : Eval Value) (scope : ScopeId) (name : String) (m : Machine) :
    (x >>= fun v => define scope name v >>= fun _ => pure v) m = Outcome.bound scope name (x m) := by
  rw [Run.bind_apply]
  cases x m <;> rfl

/-- The form evaluates the expression and nothing else. It ends with a value exactly if the expression does,
    with the same one and in the same machine but for the name, which is bound to it in the scope. It
    ends with an error exactly if the expression does, with the same one and in the same machine. -/
structure BindsAfter (settings : Settings) (form expression : Task) (scope : ScopeId) (name : String) : Prop where
  begins {t : Task} : Begins settings form t ↔ t = expression
  value {v : Value} {m' : Machine} : form.Ends settings (.ok v m') ↔
    ∃ m, expression.Ends settings (.ok v m) ∧ m' = m.define scope name v
  bound {v : Value} {m : Machine} : expression.Ends settings (.ok v m) →
    Machine.BoundIn scope name v m (m.define scope name v)
  error {e : EvalError} {m' : Machine} : form.Ends settings (.error (.failed e) m') ↔
    expression.Ends settings (.error (.failed e) m')

/-- It is so if, within any number of calls, the form comes to what the expression does and the binding
    of the name then. -/
theorem BindsAfter.of_within {form expression : Task} {scope : ScopeId} {name : String}
    (hbegins : ∀ t, Begins settings form t ↔ t = expression)
    (hwithin : ∀ k, form.within settings k = Outcome.bound scope name (expression.within settings k))
    (hscope : scope < expression.machine.heap.frames.size) : BindsAfter settings form expression scope name := by
  have hends {r : Outcome EvalError Value} :
      form.Ends settings r ↔ ∃ r', expression.Ends settings r' ∧ r'.bound scope name = r := by
    constructor
    · rintro ⟨⟨k, hk⟩, hfin⟩
      have hr : Outcome.bound scope name (expression.within settings k) = r := (hwithin k).symm.trans hk
      exact ⟨_, ⟨⟨k, rfl⟩, Outcome.finished_bound.mp (hr ▸ hfin)⟩, hr⟩
    · rintro ⟨r', ⟨⟨k, rfl⟩, hfin⟩, rfl⟩
      exact ⟨⟨k, hwithin k⟩, Outcome.finished_bound.mpr hfin⟩
  constructor
  case begins => exact hbegins _
  case value =>
    intro v m'
    rw [hends]
    constructor
    · rintro ⟨r, hr, hbound⟩
      obtain ⟨m, rfl, rfl⟩ := Outcome.bound_eq_ok.mp hbound
      exact ⟨m, hr, rfl⟩
    · rintro ⟨m, hr, rfl⟩
      exact ⟨_, hr, rfl⟩
  case bound =>
    intro v m hv
    exact Machine.boundIn_define (hv.extends.lt_size hscope) name v
  case error =>
    intro e m'
    rw [hends]
    constructor
    · rintro ⟨r, hr, hbound⟩
      rwa [Outcome.bound_eq_error.mp hbound] at hr
    · intro hr
      exact ⟨_, hr, rfl⟩

section Forms

variable {scope : ScopeId} {m : Machine}

theorem define_bindsAfter (hscope : scope < m.heap.frames.size) (name : String) (e : Value) (surplus : List Value) :
    BindsAfter settings ⟨.form .define (.symbol name :: e :: surplus), scope, m⟩ ⟨e, scope, m⟩ scope name := by
  refine .of_within (fun t => ⟨fun h => ?_, fun h => ?_⟩) (fun k => ?_) hscope
  · obtain ⟨_, _, hname, he, rfl⟩ := h.of_form
    cases hname
    cases he
    rfl
  · subst h
    exact .definition rfl rfl
  · rw [Task.within, evaluateWithin_define, Eval.bind_define]
    rfl

/-- After its warning, if there is one. -/
theorem assign_bindsAfter (hscope : scope < m.heap.frames.size) {name : String} {m₀ : Machine}
    (hw : Warned scope name m m₀) (e : Value) (surplus : List Value) :
    BindsAfter settings (.setting name e surplus scope m) ⟨e, settings.readScope scope, m₀⟩ scope name := by
  have hheap : m₀.heap = m.heap := Form.warn_heap hw.warn_eq
  refine .of_within (fun t => ⟨fun h => ?_, fun h => ?_⟩) (fun k => ?_) (hheap ▸ hscope)
  · obtain ⟨_, _, m₁, hname, he, hwarn, rfl⟩ := h.of_form
    cases hname
    cases he
    cases hw.warn_eq.symm.trans hwarn
    rfl
  · subst h
    exact .assignment rfl rfl hw.warn_eq
  · rw [Task.within_setting, Run.bind_of_ok hw.warn_eq]
    exact Eval.bind_define _ _ _ _

end Forms

/-! ## Forms that fail at once -/

/-- The task evaluates nothing and fails with the error, in this machine. -/
structure FailsAtOnce (settings : Settings) (t : Task) (e : EvalError) (m' : Machine) : Prop where
  ends_iff {r : Outcome EvalError Value} : t.Ends settings r ↔ r = .error (.failed e) m'
  begins (t' : Task) : ¬ Begins settings t t'

/-- The task fails with the error before anything is evaluated or written, and leaves the machine as it
    is. -/
structure Rejects (settings : Settings) (t : Task) (e : EvalError) : Prop extends
    FailsAtOnce settings t e t.machine where
  attempts (line : String) (m' : Machine) : ¬ Attempts settings t line m'

/-- A computation that comes to the same within any number of calls ends with that. -/
theorem Ends.iff_of_forall {ε α : Type} {within : Nat → Run ε α} {m : Machine} {r : Outcome ε α}
    (h : ∀ k, within k m = r) (hfin : r.Finished) {r' : Outcome ε α} : Ends within m r' ↔ r' = r := by
  constructor
  · rintro ⟨⟨k, hk⟩, -⟩
    exact hk.symm.trans (h k)
  · rintro rfl
    exact ⟨⟨0, h 0⟩, hfin⟩

theorem Malformed.not_begins {keyword : Keyword} {operands : List Value} {e : EvalError}
    (h : Malformed keyword operands e) (scope : ScopeId) (m : Machine) (t : Task) :
    ¬ Begins settings ⟨.form keyword operands, scope, m⟩ t := by
  intro hbegins
  have hform := hbegins.of_form
  cases h with
  | empty => cases keyword <;> simp [Form.CanBegin] at hform
  | notASymbol hkeyword hsymbol =>
    -- What is evaluated stands after a symbol.
    rcases hkeyword with rfl | rfl
    · obtain ⟨name, _, hname, -⟩ := hform
      cases hname
      cases hsymbol
    · obtain ⟨name, _, _, hname, -⟩ := hform
      cases hname
      cases hsymbol
  | noExpression hkeyword => rcases hkeyword with rfl | rfl <;> simp [Form.CanBegin] at hform
  | noParameterList => exact hform
  | parameter => exact hform
  | noBody => exact hform

theorem Malformed.not_attempts {keyword : Keyword} {operands : List Value} {e : EvalError}
    (h : Malformed keyword operands e) (scope : ScopeId) (m : Machine) (line : String) (m' : Machine) :
    ¬ Attempts settings ⟨.form keyword operands, scope, m⟩ line m' := by
  intro hattempts
  generalize ht : (⟨.form keyword operands, scope, m⟩ : Task) = t at hattempts
  cases hattempts with
  | warning hname hright =>
    obtain ⟨rfl, rfl⟩ := Value.form_injective (Task.mk.inj ht).1
    cases h with
    | empty => cases hname
    | notASymbol _ hsymbol =>
      cases hname
      cases hsymbol
    | noExpression => cases hright
  | output hcount =>
    obtain ⟨rfl, rfl⟩ := Value.form_injective (Task.mk.inj ht).1
    cases h with
    | empty => cases hcount
    | notASymbol hkeyword => rcases hkeyword with hkeyword | hkeyword <;> cases hkeyword
    | noExpression hkeyword => rcases hkeyword with hkeyword | hkeyword <;> cases hkeyword
  | inner hbegins =>
    subst ht
    exact h.not_begins scope m _ hbegins

/-- An error in the shape of a form comes before everything else. -/
theorem Malformed.rejects {keyword : Keyword} {operands : List Value} {e : EvalError}
    (h : Malformed keyword operands e) (scope : ScopeId) (m : Machine) :
    Rejects settings ⟨.form keyword operands, scope, m⟩ e where
  ends_iff := by
    intro r
    exact Ends.iff_of_forall (fun k => congrFun (evaluateWithin_malformed h k scope) m) (Outcome.finished_failed _ _)
  begins := h.not_begins scope m
  attempts := h.not_attempts scope m

/-- A `set!` whose warning is lost evaluates nothing, and binds nothing. -/
theorem assign_failsAtOnce {scope : ScopeId} {name : String} {m : Machine}
    (hbound : m.heap.contains scope name = false) (hfull : m.sink.isFull = true) (e : Value) (surplus : List Value) :
    FailsAtOnce settings (.setting name e surplus scope m) .sinkFull
      { m with log := m.log.push (.undefinedVariable name) } where
  ends_iff := by
    intro r
    refine Ends.iff_of_forall (fun k => ?_) (Outcome.finished_failed _ _)
    exact (Task.within_setting k).trans (Run.bind_of_error (Form.warn_of_full hbound hfull) _)
  begins t h := by
    obtain ⟨_, _, m₁, hname, -, hwarn, -⟩ := h.of_form
    cases hname
    cases (Form.warn_of_full hbound hfull).symm.trans hwarn

/-! ## All or nothing -/

/-- The operands are what the form needs, and any number of others after that. -/
inductive Form.WellShaped : Keyword → List Value → Prop
  | define {name : String} {e : Value} {surplus : List Value} : WellShaped .define (.symbol name :: e :: surplus)
  | assign {name : String} {e : Value} {surplus : List Value} : WellShaped .assign (.symbol name :: e :: surplus)
  | lambda {names : List String} {body : Value} {surplus : List Value} :
      WellShaped .lambda (.list (names.map .symbol) :: body :: surplus)
  | quote {t : Value} {surplus : List Value} : WellShaped .quote (t :: surplus)

/-- The forms that do not look at a value before they have seen all of their operands. -/
theorem Form.wellShaped_or_malformed {keyword : Keyword} (hkeyword : keyword ∈ [.define, .assign, .lambda, .quote])
    (operands : List Value) : WellShaped keyword operands ∨ ∃ e, Malformed keyword operands e := by
  simp only [List.mem_cons, List.not_mem_nil, or_false] at hkeyword
  rcases hkeyword with rfl | rfl | rfl | rfl
  · rcases Malformed.binding_or (.inl rfl) operands with hmalformed | ⟨name, e, surplus, rfl⟩
    · exact .inr hmalformed
    · exact .inl .define
  · rcases Malformed.binding_or (.inr rfl) operands with hmalformed | ⟨name, e, surplus, rfl⟩
    · exact .inr hmalformed
    · exact .inl .assign
  · rcases Malformed.lambda_or operands with hmalformed | ⟨names, body, surplus, rfl⟩
    · exact .inr hmalformed
    · exact .inl .lambda
  · cases operands with
    | nil => exact .inr ⟨_, .empty⟩
    | cons t surplus => exact .inl .quote

/-- In every machine and every scope of it: a `define` binds its name after its expression has been
    evaluated there, and so does `set!` after its warning, if it has to warn and the sink takes the line;
    the expression stands in the scope that the settings say. These bind all or nothing. A `define`,
    `set!`, `lambda` or `quote` that is not of the shape that it must have is rejected, with an error
    that says what is wrong with it. -/
theorem binds_all_or_nothing (settings : Settings) {m : Machine} {scope : ScopeId}
    (hscope : scope < m.heap.frames.size) :
    (∀ name e surplus, BindsAfter settings ⟨.form .define (.symbol name :: e :: surplus), scope, m⟩ ⟨e, scope, m⟩
      scope name) ∧
    (∀ name e surplus,
      (∃ m₀, Warned scope name m m₀ ∧ BindsAfter settings ⟨.form .assign (.symbol name :: e :: surplus), scope, m⟩
        ⟨e, settings.readScope scope, m₀⟩ scope name) ∨
      m.heap.contains scope name = false ∧ m.sink.isFull = true ∧
        FailsAtOnce settings ⟨.form .assign (.symbol name :: e :: surplus), scope, m⟩ .sinkFull
          { m with log := m.log.push (.undefinedVariable name) }) ∧
    ∀ keyword ∈ [Keyword.define, .assign, .lambda, .quote], ∀ operands, ¬ Form.WellShaped keyword operands →
      ∃ e, Malformed keyword operands e ∧ Rejects settings ⟨.form keyword operands, scope, m⟩ e := by
  refine ⟨fun name e surplus => define_bindsAfter hscope name e surplus, fun name e surplus => ?_, ?_⟩
  · rcases Form.warn_cases scope name m with ⟨m₀, hw⟩ | ⟨hbound, hfull⟩
    · exact .inl ⟨m₀, hw, assign_bindsAfter hscope hw e surplus⟩
    · exact .inr ⟨hbound, hfull, assign_failsAtOnce hbound hfull e surplus⟩
  · intro keyword hkeyword operands hshape
    rcases Form.wellShaped_or_malformed hkeyword operands with h | ⟨e, h⟩
    · exact absurd h hshape
    · exact ⟨e, h, h.rejects scope m⟩

/-- In a scope inside the global one that binds `n` to 1. `(set! n (define n 7))` leaves `n` bound to 7 in
    both scopes, since the definition is evaluated in the global one. `(define n (if (define n 3)))`
    fails, and what its expression has bound before that stays. `(define n)` does nothing. -/
theorem binds_all_or_nothing_setter :
    (∃ m, Evaluates .standard (.form .assign [.symbol "n", .form .define [.symbol "n", .int 7]]) 1 setterMachine
      (.ok (.int 7) m) ∧ m.heap.own? 1 "n" = some (.int 7) ∧ m.heap.own? 0 "n" = some (.int 7)) ∧
    (∃ m, Evaluates .standard (.form .define [.symbol "n", .form .conditional [.form .define [.symbol "n", .int 3]]]) 1
      setterMachine (.error (.failed (.missingOperand .conditional 2)) m) ∧ m.heap.own? 1 "n" = some (.int 3)) ∧
    Rejects .standard ⟨.form .define [.symbol "n"], 1, setterMachine⟩ (.missingOperand .define 2) := by
  have hscope : 1 < setterMachine.heap.frames.size := by decide
  have hcontains : setterMachine.heap.contains 1 "n" = true := by cbv
  obtain ⟨hdefine, hassign, hmalformed⟩ := binds_all_or_nothing .standard hscope
  refine ⟨?_, ?_, ?_⟩
  · rcases hassign "n" (.form .define [.symbol "n", .int 7]) [] with ⟨m₀, hw, hbinds⟩ | ⟨hbound, -⟩
    · cases hw with
      | bound =>
        have hvalue : Evaluates .standard (.form .define [.symbol "n", .int 7]) 0 setterMachine
            (.ok (.int 7) (setterMachine.define 0 "n" (.int 7))) := .of_ok (k := 0) rfl
        have hset := hbinds.bound hvalue
        refine ⟨_, hbinds.value.mpr ⟨_, hvalue, rfl⟩, hset.own, ?_⟩
        rw [hset.others (by decide)]
        exact (Machine.boundIn_define (by decide) "n" (.int 7)).own
      | unbound hbound => exact absurd hbound (by simp [hcontains])
    · exact absurd hbound (by simp [hcontains])
  · have hfails : Evaluates .standard (.form .conditional [.form .define [.symbol "n", .int 3]]) 1 setterMachine
        (.error (.failed (.missingOperand .conditional 2)) (setterMachine.define 1 "n" (.int 3))) :=
      ⟨⟨0, rfl⟩, trivial⟩
    exact ⟨_, (hdefine "n" _ []).error.mpr hfails, (Machine.boundIn_define hscope "n" (.int 3)).own⟩
  · obtain ⟨e, he, hrejects⟩ := hmalformed .define (by decide) [.symbol "n"] (by rintro ⟨⟩)
    cases he with
    | notASymbol _ hsymbol => cases hsymbol
    | noExpression => exact hrejects

end LineLisp
