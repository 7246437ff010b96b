/-
  LineLisp.Proofs.Adequacy — the rules of evaluation and the evaluator agree. Each form that is
  not malformed is a computation made of the evaluations of its operands; a rule is one of the
  ways through it.
  - `BigStep.eventually`: evaluation comes to what the rules give, within enough calls.
  - `evaluateWithin_meets`: what evaluation comes to within any number of calls, the rules give.
  - `evaluates_iff_bigStep`: evaluation and application end exactly as the rules say.
-/

import LineLisp.Proofs.BigStep
import LineLisp.Proofs.Propagation

namespace LineLisp

/-! ## Parts of forms -/

/-- The outcome with this value or error. -/
def Outcome.ofExcept {ε α : Type} : Except ε α → Machine → Outcome ε α
  | .ok a, m => .ok a m
  | .error e, m => .error (.failed e) m

theorem Outcome.onMachine_ofExcept {ε α : Type} (f : Machine → Machine) (r : Except ε α) (m : Machine) :
    onMachine f (ofExcept r m) = ofExcept r (f m) := by
  cases r <;> rfl

theorem Outcome.finished_ofExcept {ε α : Type} (r : Except ε α) (m : Machine) : Finished (ofExcept r m) := by
  cases r <;> trivial

theorem Outcome.machine_ofExcept {ε α : Type} (r : Except ε α) (m : Machine) : machine (ofExcept r m) = m := by
  cases r <;> rfl

theorem Outcome.exists_ofExcept {ε α : Type} {r : Outcome ε α} (h : r.Finished) : ∃ x m, r = ofExcept x m := by
  cases r with
  | ok a m => exact ⟨.ok a, m, rfl⟩
  | error e m =>
    cases e with
    | failed e => exact ⟨.error e, m, rfl⟩
    | unfinished => exact h.elim

namespace Form

theorem operand_none {form : Keyword} {f : Value → Operand} {trees : List Value} {i : Nat} (h : trees[i]? = none) :
    operand form (trees.map f) (i + 1) = .fail (.missingOperand form (i + 1)) := by
  simp [operand, h]

theorem count_some {v : Value} {n : Int} (h : v.whole? = some n) : count v = pure n.toNat := by
  cases v with
  | number x =>
    have h : x.whole? = some n := h
    simp only [count, h]
  | _ => cases h

theorem count_none {v : Value} (h : v.whole? = none) : count v = .fail (.typeMismatch .repeatCount v.kind) := by
  cases v with
  | number x =>
    have h : x.whole? = none := h
    simp only [count, h]
    rfl
  | _ => rfl

theorem warn_of_full {scope : ScopeId} {name : String} {m : Machine} (hbound : m.heap.contains scope name = false)
    (hfull : m.sink.isFull = true) :
    warn scope name m = .error (.failed .sinkFull) { m with log := m.log.push (.undefinedVariable name) } := by
  rw [warn_apply, hbound]
  exact Eval.emit_of_full (m := { m with log := m.log.push (.undefinedVariable name) }) hfull _

/-- The warning of `set!` is not needed, or is written, or the sink takes no more lines. -/
theorem warn_cases (scope : ScopeId) (name : String) (m : Machine) :
    (∃ m', Warned scope name m m') ∨ m.heap.contains scope name = false ∧ m.sink.isFull = true := by
  cases hbound : m.heap.contains scope name with
  | true => exact .inl ⟨m, .bound hbound⟩
  | false =>
    cases hfull : m.sink.isFull with
    | true => exact .inr ⟨rfl, rfl⟩
    | false => exact .inl ⟨_, .unbound hbound hfull⟩

end Form

theorem Warned.warn_eq {scope : ScopeId} {name : String} {m m' : Machine} (h : Warned scope name m m') :
    Form.warn scope name m = .ok () m' := by
  rw [Form.warn_apply]
  cases h with
  | bound hbound => rw [if_pos hbound]
  | unbound hbound hfull =>
    rw [if_neg (by simp [hbound])]
    exact Eval.emit_of_room (m := { m with log := m.log.push (.undefinedVariable name) }) hfull _

theorem Primitive.result?_eq_none_iff {p : Primitive} {args : List Value} :
    p.result? args = none ↔ args.length ≠ p.arity := by
  rcases args with _ | ⟨u, _ | ⟨v, _ | ⟨w, args⟩⟩⟩ <;> cases p <;> simp [result?, arity]

/-! ## Forms as computations -/

variable {settings : Settings}

theorem evaluateWithin_malformed {keyword : Keyword} {operands : List Value} {e : EvalError}
    (h : Malformed keyword operands e) (k : Nat) (scope : ScopeId) :
    evaluateWithin settings k (.form keyword operands) scope = .fail e := by
  rw [evaluateWithin_form]
  cases h with
  | empty => cases keyword <;> exact Run.fail_bind _ _
  | @notASymbol _ t surplus hkeyword ht =>
    have hfirst : (Form.operand keyword ((t :: surplus).map (.within settings k)) 1 >>= fun o =>
        Form.symbol keyword o.tree) = .fail (.notASymbol keyword t.text) := Form.symbol_none ht
    rcases hkeyword with rfl | rfl
    · rw [Form.special, Form.define, ← bind_assoc, hfirst, Run.fail_bind]
    · rw [Form.special, Form.assign, ← bind_assoc, hfirst, Run.fail_bind]
  | noExpression hkeyword => rcases hkeyword with rfl | rfl <;> rfl
  | @noParameterList t surplus ht =>
    cases t with
    | list trees => exact absurd rfl (ht trees)
    | _ => rfl
  | @parameter names t after surplus ht =>
    show (Form.parameters (names.map .symbol ++ t :: after) >>= fun params => _) = _
    rw [Form.parameters_notASymbol names ht, Run.fail_bind]
  | @noBody names =>
    show (Form.parameters (names.map .symbol) >>= fun params =>
      Form.operand .lambda ([.list (names.map .symbol)].map (.within settings k)) 2 >>= fun body => _) = _
    rw [Form.parameters_names, pure_bind]
    exact Run.fail_bind _ _

theorem evaluateWithin_conditional (k : Nat) (c : Value) (branches : List Value) (scope : ScopeId) :
    evaluateWithin settings k (.form .conditional (c :: branches)) scope =
      evaluateWithin settings k c scope >>= fun v =>
        Form.operand .conditional ((c :: branches).map (.within settings k)) (if v.isTrue then 2 else 3) >>= fun b =>
          b.eval scope := by
  rw [evaluateWithin_form]
  rfl

theorem evaluateWithin_define (k : Nat) (name : String) (e : Value) (surplus : List Value) (scope : ScopeId) :
    evaluateWithin settings k (.form .define (.symbol name :: e :: surplus)) scope =
      evaluateWithin settings k e scope >>= fun v => Eval.define scope name v >>= fun _ => pure v := by
  rw [evaluateWithin_form]
  rfl

theorem evaluateWithin_assign (k : Nat) (name : String) (e : Value) (surplus : List Value) (scope : ScopeId) :
    evaluateWithin settings k (.form .assign (.symbol name :: e :: surplus)) scope =
      Form.warn scope name >>= fun _ =>
        evaluateWithin settings k e (if settings.setReadsGlobal then Heap.globalScope else scope) >>= fun v =>
          Eval.define scope name v >>= fun _ => pure v := by
  rw [evaluateWithin_form, Form.special, Form.assign_eq]
  rfl

theorem evaluateWithin_lambda (k : Nat) (names : List String) (body : Value) (surplus : List Value)
    (scope : ScopeId) :
    evaluateWithin settings k (.form .lambda (.list (names.map .symbol) :: body :: surplus)) scope =
      Eval.newClosure names body scope := by
  rw [evaluateWithin_form]
  show (Form.parameters (names.map .symbol) >>= fun params => Eval.newClosure params body scope) = _
  rw [Form.parameters_names, pure_bind]

theorem evaluateWithin_quote (k : Nat) (t : Value) (surplus : List Value) (scope : ScopeId) :
    evaluateWithin settings k (.form .quote (t :: surplus)) scope = pure t := by
  rw [evaluateWithin_form]
  rfl

theorem evaluateWithin_iterate (k : Nat) (c : Value) (operands : List Value) (scope : ScopeId) :
    evaluateWithin settings k (.form .iterate (c :: operands)) scope =
      evaluateWithin settings k c scope >>= fun v => Form.count v >>= fun n =>
        Form.operand .iterate ((c :: operands).map (.within settings k)) 2 >>= fun body =>
          Eval.iterate n (body.eval scope >>= fun v => Eval.emit v.text) >>= fun _ => pure .nil := by
  rw [evaluateWithin_form]
  rfl

theorem evaluateWithin_inert {head : Value} (h : head.symbol? = none) (k : Nat) (operands : List Value)
    (scope : ScopeId) :
    evaluateWithin settings k (.list (head :: operands)) scope =
      Run.note (.inertForm head.text) >>= fun _ => pure .nil := by
  rw [evaluateWithin_list]
  cases head with
  | symbol name => cases h
  | _ => rfl

namespace Procedure

theorem not_mayEnter_iff {m : Machine} :
    ¬ MayEnter settings m ↔ ∃ limit, settings.maxDepth = some limit ∧ limit ≤ m.depth := by
  simp [MayEnter]

theorem exists_applyWith (settings : Settings) (k : Nat) :
    ∃ body, applyWithin settings k = applyWith settings body := by
  cases k with
  | zero => exact ⟨_, rfl⟩
  | succ k => exact ⟨_, rfl⟩

theorem applyWithin_primitive (k : Nat) (p : Primitive) (name : String) (args : List Value) :
    applyWithin settings k (.primitive p) name args = match p.result? args with
      | some (.ok v) => pure v
      | some (.error e) => .fail e
      | none => .fail (.arityMismatch name p.arity args.length) := by
  cases k <;> rfl

end Procedure

/-! ## What the rules give -/

/-- From some number of calls on the computation comes to the outcome. -/
def Eventually {ε α : Type} (within : Nat → Run ε α) (m : Machine) (r : Outcome ε α) : Prop :=
  ∃ n, ∀ k, n ≤ k → within k m = r

namespace Eventually

variable {ε α β : Type} {m m' : Machine}

theorem of_eq {within : Nat → Run ε α} {r : Outcome ε α} (h : ∀ k, within k m = r) : Eventually within m r :=
  ⟨0, fun k _ => h k⟩

theorem congr {x y : Nat → Run ε α} {r : Outcome ε α} (hxy : ∀ k, y k = x k) (h : Eventually x m r) :
    Eventually y m r := by
  obtain ⟨n, hn⟩ := h
  exact ⟨n, fun k hk => by rw [hxy, hn k hk]⟩

theorem bind {x : Nat → Run ε α} {f : Nat → α → Run ε β} {a : α} {r : Outcome ε β} (hx : Eventually x m (.ok a m'))
    (hf : Eventually (fun k => f k a) m' r) : Eventually (fun k => x k >>= f k) m r := by
  obtain ⟨n₁, h₁⟩ := hx
  obtain ⟨n₂, h₂⟩ := hf
  refine ⟨max n₁ n₂, fun k hk => ?_⟩
  exact (Run.bind_of_ok (h₁ k (by omega)) _).trans (h₂ k (by omega))

theorem bind_error {x : Nat → Run ε α} {f : Nat → α → Run ε β} {e : Stop ε} (hx : Eventually x m (.error e m')) :
    Eventually (fun k => x k >>= f k) m (.error e m') := by
  obtain ⟨n, hn⟩ := hx
  exact ⟨n, fun k hk => Run.bind_of_error (hn k hk) _⟩

theorem map {x : Nat → Run ε α} {g : α → β} {r : Except ε α} (hx : Eventually x m (.ofExcept r m')) :
    Eventually (fun k => x k >>= fun a => pure (g a)) m (.ofExcept (r.map g) m') := by
  cases r with
  | ok a => exact hx.bind (.of_eq fun _ => rfl)
  | error e => exact hx.bind_error

theorem operand {form : Keyword} {trees : List Value} {i : Nat} {e : Value} {f : Nat → Operand → Eval β}
    {r : Outcome EvalError β} (he : trees[i]? = some e) (hf : Eventually (fun k => f k (.within settings k e)) m r) :
    Eventually (fun k => Form.operand form (trees.map (.within settings k)) (i + 1) >>= f k) m r :=
  hf.congr fun k => by rw [Form.operand_map he, pure_bind]

theorem missing {form : Keyword} {trees : List Value} {i : Nat} {f : Nat → Operand → Eval β} (h : trees[i]? = none) :
    Eventually (fun k => Form.operand form (trees.map (.within settings k)) (i + 1) >>= f k) m
      (.error (.failed (.missingOperand form (i + 1))) m) :=
  .of_eq fun k => by rw [Form.operand_none h]; rfl

/-- What the body of a closure comes to within so many calls decides what its call does within
    one more. -/
theorem succ {x y : Nat → Run ε α} {r r' : Outcome ε α} (hxy : ∀ k, x k m = r → y (k + 1) m' = r')
    (h : Eventually x m r) : Eventually y m' r' := by
  obtain ⟨n, hn⟩ := h
  refine ⟨n + 1, fun k hk => ?_⟩
  obtain ⟨j, rfl⟩ := Nat.exists_eq_add_of_le' hk
  exact hxy (j + n) (hn (j + n) (Nat.le_add_left n j))

end Eventually

theorem evaluateWithin_application_eq {name : String} (h : Keyword.ofName? name = none) (k : Nat)
    (operands : List Value) (scope : ScopeId) :
    evaluateWithin settings k (.list (.symbol name :: operands)) scope =
      Eval.lookup scope name >>= fun callee =>
        Form.arguments scope (operands.map (.within settings k)) >>= fun args =>
          match callee.bind Value.procedure? with
          | some p => Procedure.applyWithin settings k p name args
          | none => Run.note (.notAProcedure name) >>= fun _ => pure .nil := by
  rw [evaluateWithin_application k h]
  rfl

mutual

/-- Evaluation comes to what the rules give. -/
theorem BigStep.eventually {tree : Value} {scope : ScopeId} {m m' : Machine} {r : Except EvalError Value} :
    BigStep settings tree scope m r m' →
      Eventually (fun k => evaluateWithin settings k tree scope) m (.ofExcept r m')
  | .symbol | .number | .primitive | .closure | .nil => .of_eq fun k => by rw [evaluateWithin_eq]; rfl
  | .emptyForm => .of_eq fun k => by rw [evaluateWithin_list]; rfl
  | .inert h => .of_eq fun k => by rw [evaluateWithin_inert h]; rfl
  | .malformed h => .of_eq fun k => by rw [evaluateWithin_malformed h]; rfl
  | .conditionFails h => h.eventually.bind_error.congr fun k => evaluateWithin_conditional k ..
  | .ifTrue hc hv hb => by
    refine (hc.eventually.bind ?_).congr fun k => evaluateWithin_conditional k ..
    simp only [hv, if_true]
    exact .operand (i := 1) rfl hb.eventually
  | .ifFalse hc hv hb => by
    refine (hc.eventually.bind ?_).congr fun k => evaluateWithin_conditional k ..
    simp only [hv, Bool.false_eq_true, if_false]
    exact .operand (i := 2) rfl hb.eventually
  | .noThen hc hv => by
    refine (hc.eventually.bind ?_).congr fun k => evaluateWithin_conditional k ..
    simp only [hv, if_true]
    exact .missing (i := 1) rfl
  | .noElse hc hv hlen => by
    refine (hc.eventually.bind ?_).congr fun k => evaluateWithin_conditional k ..
    simp only [hv, Bool.false_eq_true, if_false]
    exact .missing (i := 2) (List.getElem?_eq_none hlen)
  | .defineFails h => h.eventually.bind_error.congr fun k => evaluateWithin_define k ..
  | .define h => by
    refine (h.eventually.bind ?_).congr fun k => evaluateWithin_define k ..
    exact .of_eq fun _ => rfl
  | .warningLost hbound hfull => by
    refine Eventually.congr (fun k => evaluateWithin_assign k ..) (.bind_error (.of_eq fun _ => ?_))
    exact Form.warn_of_full hbound hfull
  | .assignFails hw h => by
    refine Eventually.congr (fun k => evaluateWithin_assign k ..) (.bind (.of_eq fun _ => hw.warn_eq) ?_)
    exact h.eventually.bind_error
  | .assign hw h => by
    refine Eventually.congr (fun k => evaluateWithin_assign k ..) (.bind (.of_eq fun _ => hw.warn_eq) ?_)
    exact h.eventually.bind (.of_eq fun _ => rfl)
  | .lambda => .of_eq fun k => by rw [evaluateWithin_lambda]; rfl
  | .quote => .of_eq fun k => by rw [evaluateWithin_quote]; rfl
  | .countFails h => h.eventually.bind_error.congr fun k => evaluateWithin_iterate k ..
  | .notACount h hv => by
    refine (h.eventually.bind ?_).congr fun k => evaluateWithin_iterate k ..
    exact .of_eq fun k => by rw [Form.count_none hv]; rfl
  | .nothingRepeated h hv => by
    refine (h.eventually.bind ?_).congr fun k => evaluateWithin_iterate k ..
    simp only [Form.count_some hv, pure_bind]
    exact .missing (i := 1) rfl
  | .iterate h hv hr => by
    refine (h.eventually.bind ?_).congr fun k => evaluateWithin_iterate k ..
    simp only [Form.count_some hv, pure_bind]
    exact .operand (i := 1) rfl hr.eventually.map
  | .operandFails hname h => by
    refine Eventually.congr (fun k => evaluateWithin_application_eq hname k ..) (.bind (.of_eq fun _ => rfl) ?_)
    exact h.eventually.bind_error
  | .notAProcedure hname h hp => by
    refine Eventually.congr (fun k => evaluateWithin_application_eq hname k ..) (.bind (.of_eq fun _ => rfl) ?_)
    refine h.eventually.bind ?_
    simp only [hp]
    exact .of_eq fun _ => rfl
  | .application hname h hp ha => by
    refine Eventually.congr (fun k => evaluateWithin_application_eq hname k ..) (.bind (.of_eq fun _ => rfl) ?_)
    refine h.eventually.bind ?_
    simp only [hp]
    exact ha.eventually

theorem BigStepAll.eventually {trees : List Value} {scope : ScopeId} {m m' : Machine}
    {r : Except EvalError (List Value)} : BigStepAll settings trees scope m r m' →
      Eventually (fun k => Form.arguments scope (trees.map (.within settings k))) m (.ofExcept r m')
  | .nil => .of_eq fun _ => rfl
  | .fails h => h.eventually.bind_error
  | .cons h hs => h.eventually.bind hs.eventually.map

theorem BigStepRounds.eventually {body : Value} {scope : ScopeId} {n : Nat} {m m' : Machine}
    {r : Except EvalError Unit} : BigStepRounds settings body scope n m r m' →
      Eventually (fun k => Eval.iterate n (Form.round settings k body scope)) m (.ofExcept r m')
  | .zero => .of_eq fun _ => rfl
  | .fails h => h.eventually.bind_error.bind_error
  | .lineLost h hfull => (h.eventually.bind (.of_eq fun _ => Eval.emit_of_full hfull _)).bind_error
  | .succ h hfull hs => (h.eventually.bind (.of_eq fun _ => Eval.emit_of_room hfull _)).bind hs.eventually

theorem BigStepApply.eventually {p : Procedure} {name : String} {args : List Value} {m m' : Machine}
    {r : Except EvalError Value} : BigStepApply settings p name args m r m' →
      Eventually (fun k => Procedure.applyWithin settings k p name args) m (.ofExcept r m')
  | .primitive (r := r) h => .of_eq fun k => by
    rw [Procedure.applyWithin_primitive, h]
    cases r <;> rfl
  | .primitiveArity h => .of_eq fun k => by
    rw [Procedure.applyWithin_primitive, Primitive.result?_eq_none_iff.mpr h]
    rfl
  | .closureArity h => .of_eq fun k => by
    obtain ⟨body, hbody⟩ := Procedure.exists_applyWith settings k
    rw [hbody, Procedure.applyWith_closure, if_neg h]
    rfl
  | .tooDeep hlen hlimit hdepth => .of_eq fun k => by
    obtain ⟨body, hbody⟩ := Procedure.exists_applyWith settings k
    have henter := Procedure.not_mayEnter_iff.mpr ⟨_, hlimit, hdepth⟩
    rw [hbody, Procedure.applyWith_closure, if_pos hlen, Procedure.call_of_not_mayEnter henter, Procedure.tooDeep,
      hlimit]
    rfl
  | .call hlen henter h => by
    refine h.eventually.succ fun k hk => ?_
    rw [Procedure.applyWithin, Procedure.applyWith_closure, if_pos hlen, Procedure.call_of_mayEnter henter, hk]
    exact Outcome.onMachine_ofExcept _ _ _

end

/-! ## What evaluation comes to -/

/-- If the outcome is a value or an error, it and the machine are as `P` says. -/
def Outcome.Meets {ε α : Type} (P : Except ε α → Machine → Prop) : Outcome ε α → Prop
  | .ok a m => P (.ok a) m
  | .error (.failed e) m => P (.error e) m
  | .error .unfinished _ => True

namespace Outcome.Meets

variable {ε α β : Type} {P : Except ε β → Machine → Prop} {Q : Except ε α → Machine → Prop} {m : Machine}

theorem mono {P' : Except ε β → Machine → Prop} {r : Outcome ε β} (h : Meets P r) (hP : ∀ r m', P r m' → P' r m') :
    Meets P' r := by
  cases r with
  | ok b m' => exact hP _ _ h
  | error e m' =>
    cases e with
    | failed e => exact hP _ _ h
    | unfinished => trivial

theorem bind {x : Run ε α} {f : α → Run ε β} (hx : Meets Q (x m)) (hok : ∀ a m', Q (.ok a) m' → Meets P (f a m'))
    (herror : ∀ e m', Q (.error e) m' → P (.error e) m') : Meets P ((x >>= f) m) := by
  rw [Run.bind_apply]
  cases hxm : x m with
  | ok a m' => exact hok a m' (by rwa [hxm] at hx)
  | error e m' =>
    rw [hxm] at hx
    cases e with
    | failed e => exact herror e m' hx
    | unfinished => trivial

theorem ofExcept {r : Except ε β} {m' : Machine} (h : Meets P (.ofExcept r m')) : P r m' := by
  cases r <;> exact h

/-- The value is changed, or the error stays. -/
theorem map {x : Run ε α} {g : α → β} (hx : Meets Q (x m)) (hP : ∀ r m', Q r m' → P (r.map g) m') :
    Meets P ((x >>= fun a => pure (g a)) m) :=
  hx.bind (fun a m' h => hP (.ok a) m' h) fun e m' h => hP (.error e) m' h

theorem onMachine {f : Machine → Machine} {r : Outcome ε β} (h : Meets (fun r m' => P r (f m')) r) :
    Meets P (Outcome.onMachine f r) := by
  cases r with
  | ok b m' => exact h
  | error e m' => cases e <;> exact h

end Outcome.Meets

section Forms

variable {k : Nat} {operands : List Value} {scope : ScopeId} {m : Machine}

/-- What evaluation of the tree comes to within so many calls, the rules give. -/
def TreeMeets (settings : Settings) (k : Nat) (tree : Value) : Prop :=
  ∀ (scope : ScopeId) (m : Machine),
    Outcome.Meets (BigStep settings tree scope m) (evaluateWithin settings k tree scope m)

theorem malformed_meets {keyword : Keyword} {e : EvalError} (h : Malformed keyword operands e) :
    Outcome.Meets (BigStep settings (.form keyword operands) scope m)
      (evaluateWithin settings k (.form keyword operands) scope m) := by
  rw [evaluateWithin_malformed h]
  exact .malformed h

/-- A form that binds a name is malformed or has a name and an expression. -/
theorem Malformed.binding_or {keyword : Keyword} (hkeyword : keyword = .define ∨ keyword = .assign)
    (operands : List Value) : (∃ e, Malformed keyword operands e) ∨
      ∃ name e surplus, operands = .symbol name :: e :: surplus := by
  cases operands with
  | nil => exact .inl ⟨_, .empty⟩
  | cons t operands =>
    cases ht : t.symbol? with
    | none => exact .inl ⟨_, .notASymbol hkeyword ht⟩
    | some name =>
      obtain rfl := Value.eq_symbol ht
      cases operands with
      | nil => exact .inl ⟨_, .noExpression hkeyword⟩
      | cons e surplus => exact .inr ⟨name, e, surplus, rfl⟩

/-- A `lambda` is malformed or has a list of names and a body. -/
theorem Malformed.lambda_or (operands : List Value) : (∃ e, Malformed .lambda operands e) ∨
    ∃ (names : List String) (body : Value) (surplus : List Value),
      operands = .list (names.map .symbol) :: body :: surplus := by
  cases operands with
  | nil => exact .inl ⟨_, .empty⟩
  | cons t operands =>
    by_cases ht : ∃ trees, t = .list trees
    · obtain ⟨trees, rfl⟩ := ht
      rcases Form.names_or_not trees with ⟨names, rfl⟩ | ⟨names, u, after, rfl, hu⟩
      · cases operands with
        | nil => exact .inl ⟨_, .noBody⟩
        | cons body surplus => exact .inr ⟨names, body, surplus, rfl⟩
      · exact .inl ⟨_, .parameter hu⟩
    · exact .inl ⟨_, .noParameterList fun trees h => ht ⟨trees, h⟩⟩

variable (hsub : ∀ e ∈ operands, TreeMeets settings k e)

include hsub

theorem conditional_meets : Outcome.Meets (BigStep settings (.form .conditional operands) scope m)
    (evaluateWithin settings k (.form .conditional operands) scope m) := by
  cases operands with
  | nil => exact malformed_meets .empty
  | cons c branches =>
    rw [evaluateWithin_conditional]
    refine (hsub c List.mem_cons_self scope m).bind (fun v m₁ hc => ?_) fun e m' hc => .conditionFails hc
    cases hv : v.isTrue with
    | true =>
      cases branches with
      | nil =>
        simp only [if_true]
        rw [Form.operand_none (i := 1) rfl, Run.fail_bind]
        exact .noThen hc hv
      | cons t surplus =>
        simp only [if_true]
        rw [Form.operand_map (i := 1) rfl, pure_bind]
        exact (hsub t (by simp) scope m₁).mono fun r m' ht => .ifTrue hc hv ht
    | false =>
      match branches with
      | [] =>
        simp only [Bool.false_eq_true, if_false]
        rw [Form.operand_none (i := 2) rfl, Run.fail_bind]
        exact .noElse hc hv (by simp)
      | [t] =>
        simp only [Bool.false_eq_true, if_false]
        rw [Form.operand_none (i := 2) rfl, Run.fail_bind]
        exact .noElse hc hv (by simp)
      | t :: e :: surplus =>
        simp only [Bool.false_eq_true, if_false]
        rw [Form.operand_map (i := 2) rfl, pure_bind]
        exact (hsub e (by simp) scope m₁).mono fun r m' he => .ifFalse hc hv he

theorem definition_meets : Outcome.Meets (BigStep settings (.form .define operands) scope m)
    (evaluateWithin settings k (.form .define operands) scope m) := by
  rcases Malformed.binding_or (.inl rfl) operands with ⟨e, he⟩ | ⟨name, e, surplus, rfl⟩
  · exact malformed_meets he
  · rw [evaluateWithin_define]
    exact (hsub e (by simp) scope m).bind (fun v m' h => .define h) fun err m' h => .defineFails h

theorem assignment_meets : Outcome.Meets (BigStep settings (.form .assign operands) scope m)
    (evaluateWithin settings k (.form .assign operands) scope m) := by
  rcases Malformed.binding_or (.inr rfl) operands with ⟨e, he⟩ | ⟨name, e, surplus, rfl⟩
  · exact malformed_meets he
  · rw [evaluateWithin_assign]
    rcases Form.warn_cases scope name m with ⟨m₁, hw⟩ | ⟨hbound, hfull⟩
    · rw [Run.bind_of_ok hw.warn_eq]
      exact (hsub e (by simp) _ m₁).bind (fun v m' h => .assign hw h) fun err m' h => .assignFails hw h
    · rw [Run.bind_of_error (Form.warn_of_full hbound hfull)]
      exact .warningLost hbound hfull

omit hsub in
theorem rounds_meets {body : Value} (hbody : TreeMeets settings k body) (n : Nat) :
    Outcome.Meets (BigStepRounds settings body scope n m) (Eval.iterate n (Form.round settings k body scope) m) := by
  induction n generalizing m with
  | zero => exact .zero
  | succ n ih =>
    rw [Eval.iterate, Form.round, bind_assoc]
    refine (hbody scope m).bind (fun v m₁ hv => ?_) fun e m' h => .fails h
    cases hfull : m₁.sink.isFull with
    | true =>
      rw [Run.bind_of_error (Eval.emit_of_full hfull _)]
      exact .lineLost hv hfull
    | false =>
      rw [Run.bind_of_ok (Eval.emit_of_room hfull _)]
      exact ih.mono fun r m' h => .succ hv hfull h

theorem iteration_meets : Outcome.Meets (BigStep settings (.form .iterate operands) scope m)
    (evaluateWithin settings k (.form .iterate operands) scope m) := by
  cases operands with
  | nil => exact malformed_meets .empty
  | cons c rest =>
    rw [evaluateWithin_iterate]
    refine (hsub c List.mem_cons_self scope m).bind (fun v m₁ hc => ?_) fun e m' hc => .countFails hc
    cases hv : v.whole? with
    | none =>
      rw [Form.count_none hv, Run.fail_bind]
      exact .notACount hc hv
    | some n =>
      rw [Form.count_some hv, pure_bind]
      cases rest with
      | nil =>
        rw [Form.operand_none (i := 1) rfl, Run.fail_bind]
        exact .nothingRepeated hc hv
      | cons body surplus =>
        rw [Form.operand_map (i := 1) rfl, pure_bind]
        exact (rounds_meets (hsub body (by simp)) n.toNat).map fun r m' hr => .iterate hc hv hr

theorem arguments_meets :
    Outcome.Meets (BigStepAll settings operands scope m)
      (Form.arguments scope (operands.map (.within settings k)) m) := by
  induction operands generalizing m with
  | nil => exact .nil
  | cons t ts ih =>
    refine (hsub t List.mem_cons_self scope m).bind (fun v m₁ hv => ?_) fun e m' h => .fails h
    exact (ih fun u hu => hsub u (List.mem_cons_of_mem t hu)).map fun r m' hvs => .cons hv hvs

theorem special_meets (keyword : Keyword) : Outcome.Meets (BigStep settings (.form keyword operands) scope m)
    (evaluateWithin settings k (.form keyword operands) scope m) := by
  cases keyword with
  | conditional => exact conditional_meets hsub
  | define => exact definition_meets hsub
  | assign => exact assignment_meets hsub
  | lambda =>
    rcases Malformed.lambda_or operands with ⟨e, he⟩ | ⟨names, body, surplus, rfl⟩
    · exact malformed_meets he
    · rw [evaluateWithin_lambda]
      exact .lambda
  | quote =>
    cases operands with
    | nil => exact malformed_meets .empty
    | cons t surplus =>
      rw [evaluateWithin_quote]
      exact .quote
  | iterate => exact iteration_meets hsub

end Forms

/-- What application comes to within so many calls, the rules give. -/
def ApplyMeets (settings : Settings) (k : Nat) : Prop :=
  ∀ (p : Procedure) (name : String) (args : List Value) (m : Machine),
    Outcome.Meets (BigStepApply settings p name args m) (Procedure.applyWithin settings k p name args m)

theorem tree_meets {k : Nat} (happly : ApplyMeets settings k) (tree : Value) : TreeMeets settings k tree := by
  induction tree using Value.induction with
  | list elements ih =>
    intro scope m
    cases elements with
    | nil =>
      rw [evaluateWithin_list]
      exact .emptyForm
    | cons head operands =>
      have hsub : ∀ e ∈ operands, TreeMeets settings k e := fun e he => ih e (List.mem_cons_of_mem _ he)
      cases hhead : head.symbol? with
      | none =>
        rw [evaluateWithin_inert hhead]
        exact .inert hhead
      | some name =>
        obtain rfl := Value.eq_symbol hhead
        cases hname : Keyword.ofName? name with
        | some keyword =>
          obtain rfl := Keyword.ofName?_eq_some_iff.mp hname
          exact special_meets hsub keyword
        | none =>
          rw [evaluateWithin_application_eq hname, Run.bind_of_ok (Eval.lookup_apply _ _ _)]
          refine (arguments_meets hsub).bind (fun args m₁ hargs => ?_) fun e m' h => .operandFails hname h
          cases hp : (m.heap.get? scope name).bind Value.procedure? with
          | none => exact .notAProcedure hname hargs hp
          | some p => exact (happly p name args m₁).mono fun r m' h => .application hname hargs hp h
  | symbol name =>
    intro scope m
    rw [evaluateWithin_eq]
    exact .symbol
  | number n =>
    intro scope m
    rw [evaluateWithin_eq]
    exact .number
  | primitive p =>
    intro scope m
    rw [evaluateWithin_eq]
    exact .primitive
  | closure id params body outer _ =>
    intro scope m
    rw [evaluateWithin_eq]
    exact .closure
  | nil =>
    intro scope m
    rw [evaluateWithin_eq]
    exact .nil

theorem applyWith_meets {k : Nat} {body : Value → Meaning}
    (happly : Procedure.applyWithin settings k = Procedure.applyWith settings body)
    (hbody : ∀ tree scope m, Outcome.Meets (BigStep settings tree scope m) (body tree scope m)) :
    ApplyMeets settings k := by
  intro p name args m
  cases p with
  | primitive p =>
    rw [Procedure.applyWithin_primitive]
    cases hr : p.result? args with
    | none => exact .primitiveArity (Primitive.result?_eq_none_iff.mp hr)
    | some r => cases r <;> exact .primitive hr
  | closure params tree outer =>
    rw [happly, Procedure.applyWith_closure]
    by_cases hlen : args.length = params.length
    · rw [if_pos hlen]
      by_cases henter : Procedure.MayEnter settings m
      · rw [Procedure.call_of_mayEnter henter]
        exact .onMachine ((hbody tree _ _).mono fun r m' h => .call hlen henter h)
      · obtain ⟨limit, hlimit, hdepth⟩ := Procedure.not_mayEnter_iff.mp henter
        rw [Procedure.call_of_not_mayEnter henter, Procedure.tooDeep, hlimit]
        exact .tooDeep hlen hlimit hdepth
    · rw [if_neg hlen]
      exact .closureArity hlen

theorem applyWithin_meets (k : Nat) : ApplyMeets settings k := by
  induction k with
  | zero => exact applyWith_meets rfl fun _ _ _ => trivial
  | succ k ih => exact applyWith_meets rfl fun tree scope m => tree_meets ih tree scope m

/-- What evaluation comes to within any number of calls, the rules give. -/
theorem evaluateWithin_meets (k : Nat) (tree : Value) : TreeMeets settings k tree :=
  tree_meets (applyWithin_meets k) tree

/-! ## Agreement -/

theorem Eventually.ends {ε α : Type} {within : Nat → Run ε α} {m m' : Machine} {r : Except ε α}
    (h : Eventually within m (.ofExcept r m')) : Ends within m (.ofExcept r m') := by
  obtain ⟨n, hn⟩ := h
  exact ⟨⟨n, hn n (Nat.le_refl n)⟩, Outcome.finished_ofExcept r m'⟩

theorem Evaluates.bigStep {tree : Value} {scope : ScopeId} {m m' : Machine} {r : Except EvalError Value}
    (h : Evaluates settings tree scope m (.ofExcept r m')) : BigStep settings tree scope m r m' := by
  obtain ⟨⟨k, hk⟩, -⟩ := h
  have hmeets : TreeMeets settings k tree := evaluateWithin_meets k tree
  exact Outcome.Meets.ofExcept (hk ▸ hmeets scope m)

theorem Applies.bigStep {p : Procedure} {name : String} {args : List Value} {m m' : Machine}
    {r : Except EvalError Value} (h : Applies settings p name args m (.ofExcept r m')) :
    BigStepApply settings p name args m r m' := by
  obtain ⟨⟨k, hk⟩, -⟩ := h
  have hmeets : ApplyMeets settings k := applyWithin_meets k
  exact Outcome.Meets.ofExcept (hk ▸ hmeets p name args m)

end LineLisp
