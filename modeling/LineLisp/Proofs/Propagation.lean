/-
  LineLisp.Proofs.Propagation — errors go through every form. An evaluation goes on with the
  value of one that it has begun, and has nothing to go on with if that fails.
  - `Begins.resumes_steadily`: what an evaluation comes to is what the one that it begins comes to,
    followed by something that keeps to every evolution.
  - `propagates`: where an evaluation fails, all those around it fail with the same error, and so
    does the application or the line that began it.
-/

import LineLisp.Proofs.LineRun

namespace LineLisp

variable {settings : Settings}

/-! ## Forms -/

/-- An operand that is evaluated within so many calls. -/
def Operand.within (settings : Settings) (k : Nat) (tree : Value) : Operand :=
  ⟨tree, evaluateWithin settings k tree⟩

@[simp] theorem Operand.eval_within (k : Nat) (tree : Value) :
    (within settings k tree).eval = evaluateWithin settings k tree := rfl

@[simp] theorem Operand.tree_within (k : Nat) (tree : Value) : (within settings k tree).tree = tree := rfl

theorem Form.operand_map {form : Keyword} {f : Value → Operand} {trees : List Value} {i : Nat} {e : Value}
    (h : trees[i]? = some e) : operand form (trees.map f) (i + 1) = pure (f e) := by
  simp [operand, h]

theorem evaluateWithin_list (k : Nat) (elements : List Value) :
    evaluateWithin settings k (.list elements) =
      Form.meaning settings (Procedure.applyWithin settings k) (elements.map (.within settings k)) := by
  have hoperand : Operand.within settings k = fun v => ⟨v, v.meaning settings (Procedure.applyWithin settings k)⟩ := by
    funext v
    rw [Operand.within, evaluateWithin_eq]
  rw [evaluateWithin_eq, Value.meaning, Value.operands_eq_map, hoperand]

theorem evaluateWithin_form (k : Nat) (keyword : Keyword) (operands : List Value) :
    evaluateWithin settings k (.form keyword operands) =
      Form.special settings keyword (operands.map (.within settings k)) := by
  have hname : Keyword.ofName? keyword.name = some keyword := Keyword.ofName?_eq_some_iff.mpr rfl
  simp only [Value.form, evaluateWithin_list, List.map_cons, Form.meaning, Operand.within, hname]

theorem evaluateWithin_application (k : Nat) {name : String} (h : Keyword.ofName? name = none)
    (operands : List Value) :
    evaluateWithin settings k (.list (.symbol name :: operands)) =
      Form.application (Procedure.applyWithin settings k) name (operands.map (.within settings k)) := by
  simp only [evaluateWithin_list, List.map_cons, Form.meaning, Operand.within, h]

theorem Form.assign_eq (operands : List Operand) (scope : ScopeId) :
    assign settings operands scope = do
      let name ← symbol .assign (← operand .assign operands 1).tree
      let right ← operand .assign operands 2
      warn scope name
      let value ← right.eval (if settings.setReadsGlobal then Heap.globalScope else scope)
      Eval.define scope name value
      return value := by
  unfold assign warn
  refine bind_congr fun o => bind_congr fun name => bind_congr fun right => ?_
  rw [bind_assoc]
  refine bind_congr fun bound => ?_
  cases bound <;> rfl

theorem Form.arguments_append (scope : ScopeId) (os os' : List Operand) :
    arguments scope (os ++ os') = arguments scope os >>= fun vs => (vs ++ ·) <$> arguments scope os' := by
  induction os with
  | nil => simp [arguments]
  | cons o os ih => simp [arguments, ih]

theorem Eval.iterate_add (i j : Nat) (x : Eval Unit) :
    iterate (i + j) x = iterate i x >>= fun _ => iterate j x := by
  induction i with
  | zero => simp [iterate]
  | succ i ih => simp only [Nat.succ_add, iterate, ih, bind_assoc]

/-! ## Enough calls -/

theorem Evaluates.enough {tree : Value} {scope : ScopeId} {m : Machine} {r : Outcome EvalError Value}
    (h : Evaluates settings tree scope m r) : ∃ n, ∀ k, n ≤ k → evaluateWithin settings k tree scope m = r := by
  obtain ⟨⟨n, rfl⟩, hfin⟩ := h
  exact ⟨n, fun k hk => evaluateWithin_mono hk hfin⟩

theorem EvaluatesAll.enough {scope : ScopeId} {trees vs : List Value} {m m' : Machine}
    (h : EvaluatesAll settings scope trees m vs m') :
    ∃ n, ∀ k, n ≤ k → Form.arguments scope (trees.map (.within settings k)) m = .ok vs m' := by
  induction h with
  | nil m => exact ⟨0, fun _ _ => rfl⟩
  | cons he _ ih =>
    obtain ⟨n₁, h₁⟩ := he.enough
    obtain ⟨n₂, h₂⟩ := ih
    refine ⟨max n₁ n₂, fun k hk => ?_⟩
    rw [List.map_cons, Form.arguments, Operand.eval_within, Run.bind_of_ok (h₁ k (by omega)), Run.bind_of_ok (h₂ k (by omega))]
    rfl

/-- One round of `repeat`: the body is evaluated and its value written. -/
def Form.round (settings : Settings) (k : Nat) (body : Value) (scope : ScopeId) : Eval Unit := do
  let v ← evaluateWithin settings k body scope
  Eval.emit v.text

theorem Rounds.enough {body : Value} {scope : ScopeId} {i : Nat} {m m' : Machine}
    (h : Rounds settings body scope i m m') :
    ∃ n, ∀ k, n ≤ k → Eval.iterate i (Form.round settings k body scope) m = .ok () m' := by
  induction h with
  | zero m => exact ⟨0, fun _ _ => rfl⟩
  | succ he hw _ ih =>
    obtain ⟨n₁, h₁⟩ := he.enough
    obtain ⟨n₂, h₂⟩ := ih
    refine ⟨max n₁ n₂, fun k hk => ?_⟩
    rw [Eval.iterate, Form.round, bind_assoc, Run.bind_of_ok (h₁ k (by omega)), Run.bind_of_ok hw]
    exact h₂ k (by omega)

/-! ## Resumption -/

/-- What the task comes to within so many calls. -/
def Task.within (settings : Settings) (k : Nat) (t : Task) : Outcome EvalError Value :=
  evaluateWithin settings k t.tree t.scope t.machine

/-- A computation on behalf of a form in a scope keeps to every evolution. -/
def Steady (settings : Settings) (scope : ScopeId) {α : Type} (x : Eval α) : Prop :=
  ∀ (E : Evolution settings) (m : Machine), E.rel scope m (Outcome.machine (x m))

namespace Steady

variable {scope : ScopeId} {α β : Type}

theorem pure (a : α) : Steady settings scope (Pure.pure a : Eval α) := fun E m => E.refl scope m

theorem fail (e : EvalError) : Steady settings scope (Run.fail e : Eval α) := fun E m => E.refl scope m

theorem bind {x : Eval α} {f : α → Eval β} (hx : Steady settings scope x) (hf : ∀ a, Steady settings scope (f a)) :
    Steady settings scope (x >>= f) := by
  intro E
  have hx : E.congruence.rel scope x x := hx E
  have hf (a : α) : E.congruence.rel scope (f a) (f a) := hf a E
  exact E.congruence.bind hx hf

theorem note {event : LogEvent} : Steady settings scope (Run.note event : Eval Unit) :=
  fun E m => E.note scope m event

theorem emit (line : String) : Steady settings scope (Eval.emit line) := fun E => E.congruence.emit scope line

theorem define (name : String) (v : Value) : Steady settings scope (Eval.define scope name v) :=
  fun E m => E.define scope m name v

theorem evaluateWithin (k : Nat) (tree : Value) :
    Steady settings scope (LineLisp.evaluateWithin settings k tree scope) :=
  fun E => E.evaluate k tree scope

theorem applyWithin (k : Nat) (p : Procedure) (name : String) (args : List Value) :
    Steady settings scope (Procedure.applyWithin settings k p name args) :=
  fun E => E.apply k p name args scope

theorem operand (form : Keyword) (k : Nat) (trees : List Value) (position : Nat) {f : Operand → Eval α}
    (hf : ∀ tree, Steady settings scope (f (.within settings k tree))) :
    Steady settings scope (Form.operand form (trees.map (.within settings k)) position >>= f) := by
  unfold Form.operand
  rw [List.getElem?_map]
  cases trees[position - 1]? with
  | none => simpa only [Option.map_none, Run.fail_bind] using fail _
  | some tree => exact hf tree

theorem count (v : Value) : Steady settings scope (Form.count v) := by
  unfold Form.count
  split
  · split
    · exact pure _
    · exact fail _
  · exact fail _

theorem iterate (n : Nat) {x : Eval Unit} (hx : Steady settings scope x) :
    Steady settings scope (Eval.iterate n x) := by
  induction n with
  | zero => exact pure ()
  | succ n ih => exact bind hx fun _ => ih

theorem round (k : Nat) (body : Value) : Steady settings scope (Form.round settings k body scope) :=
  bind (evaluateWithin k body) fun v => emit v.text

theorem arguments (k : Nat) (trees : List Value) :
    Steady settings scope (Form.arguments scope (trees.map (.within settings k))) := by
  induction trees with
  | nil => exact pure []
  | cons tree trees ih => exact bind (evaluateWithin k tree) fun v => bind ih fun vs => pure (v :: vs)

end Steady

/-- An evaluation goes on with the value of one that it begins, but for the body of a closure,
    of which one leaves the call; what it goes on with is steady. -/
theorem Begins.resumes_steadily {t t' : Task} (h : Begins settings t t') : ∃ n, ∀ k, n ≤ k →
    (∃ rest : Value → Eval Value, (∀ v, Steady settings t.scope (rest v)) ∧
      t.within settings k = (evaluateWithin settings k t'.tree t'.scope >>= rest) t'.machine) ∨
        t.within settings (k + 1) = (t'.within settings k).onMachine .left := by
  cases h with
  | condition hc =>
    refine ⟨0, fun k _ => .inl ?_⟩
    simp only [Task.within, evaluateWithin_form, Form.special, Form.conditional]
    rw [Form.operand_map hc, pure_bind]
    exact ⟨_, fun v => .operand _ k _ _ fun b => .evaluateWithin k b, rfl⟩
  | @branch operands scope m m' c v b hc he hb =>
    obtain ⟨n, hn⟩ := he.enough
    refine ⟨n, fun k hk => .inl ⟨pure, fun v => .pure v, ?_⟩⟩
    simp only [Task.within, evaluateWithin_form, Form.special, Form.conditional]
    rw [Form.operand_map hc, pure_bind, Operand.eval_within, Run.bind_of_ok (hn k hk), bind_pure]
    have hposition : (if v.isTrue then 2 else 3) = (if v.isTrue then 1 else 2) + 1 := by split <;> rfl
    rw [hposition, Form.operand_map hb, pure_bind, Operand.eval_within]
  | definition hname he =>
    refine ⟨0, fun k _ => .inl ?_⟩
    simp only [Task.within, evaluateWithin_form, Form.special, Form.define]
    rw [Form.operand_map hname, pure_bind, Form.operand_map he]
    exact ⟨_, fun v => .bind (.define _ v) fun _ => .pure v, rfl⟩
  | assignment hname he hw =>
    refine ⟨0, fun k _ => .inl ?_⟩
    simp only [Task.within, evaluateWithin_form, Form.special, Form.assign_eq]
    rw [Form.operand_map hname, pure_bind, Form.operand_map he, Operand.tree_within]
    simp only [Form.symbol, Value.symbol?, pure_bind]
    rw [Run.bind_of_ok hw]
    exact ⟨_, fun v => .bind (.define _ v) fun _ => .pure v, rfl⟩
  | count hc =>
    refine ⟨0, fun k _ => .inl ?_⟩
    simp only [Task.within, evaluateWithin_form, Form.special, Form.iterate]
    rw [Form.operand_map hc, pure_bind]
    refine ⟨_, fun v => .bind (.count v) fun n => .operand _ k _ _ fun body => ?_, rfl⟩
    exact .bind (.iterate n (.round k body)) fun _ => .pure Value.nil
  | @round operands scope m m₁ m' c v body times i hc he hcount hb hi hr =>
    obtain ⟨n₁, h₁⟩ := he.enough
    obtain ⟨n₂, h₂⟩ := hr.enough
    obtain ⟨j, rfl⟩ := Nat.exists_eq_add_of_lt hi
    refine ⟨max n₁ n₂, fun k hk => .inl ?_⟩
    simp only [Task.within, evaluateWithin_form, Form.special, Form.iterate]
    rw [Form.operand_map hc, pure_bind, Operand.eval_within, Run.bind_of_ok (h₁ k (by omega)),
      Run.bind_of_ok hcount, Form.operand_map hb, pure_bind]
    -- The rounds before, the one in question and those after it.
    show ∃ rest : Value → Eval Value, (∀ v, Steady settings scope (rest v)) ∧
      (Eval.iterate (i + (j + 1)) (Form.round settings k body scope) >>= _) m₁ = _
    rw [Eval.iterate_add, bind_assoc, Run.bind_of_ok (h₂ k (by omega)), Eval.iterate, Form.round, bind_assoc,
      bind_assoc]
    exact ⟨_, fun v => .bind (.emit v.text) fun _ => .bind (.iterate j (.round k body)) fun _ => .pure Value.nil, rfl⟩
  | operand hname hall =>
    obtain ⟨n, hn⟩ := hall.enough
    refine ⟨n, fun k hk => .inl ?_⟩
    simp only [Task.within, evaluateWithin_application k hname, Form.application]
    rw [Run.bind_of_ok (Eval.lookup_apply _ _ _), List.map_append, Form.arguments_append, bind_assoc,
      Run.bind_of_ok (hn k hk), List.map_cons, Form.arguments, map_eq_pure_bind, bind_assoc, bind_assoc]
    refine ⟨_, fun v => ?_, rfl⟩
    refine .bind (.bind (.arguments k _) fun us => .pure (v :: us)) fun us => .bind (.pure _) fun args => ?_
    split
    · exact .applyWithin k _ _ args
    · exact .bind .note fun _ => .pure Value.nil
  | @call name operands args scope m m' id params body outer hname hf hall hlen henter =>
    obtain ⟨n, hn⟩ := hall.enough
    refine ⟨n, fun k hk => .inr ?_⟩
    simp only [Task.within, evaluateWithin_application (k + 1) hname, Form.application]
    rw [Run.bind_of_ok (Eval.lookup_apply _ _ _), Run.bind_of_ok (hn (k + 1) (Nat.le_succ_of_le hk)), hf]
    show Procedure.applyWith settings (evaluateWithin settings k) (.closure params body outer) name args m' = _
    rw [Procedure.applyWith_closure, if_pos hlen, Procedure.call_of_mayEnter henter]

/-- An evaluation goes on with the value of one that it begins, but for the body of a closure,
    of which one leaves the call. -/
theorem Begins.resumes {t t' : Task} (h : Begins settings t t') : ∃ n, ∀ k, n ≤ k →
    (∃ rest : Value → Eval Value, t.within settings k = (evaluateWithin settings k t'.tree t'.scope >>= rest) t'.machine) ∨
      t.within settings (k + 1) = (t'.within settings k).onMachine .left := by
  obtain ⟨n, hn⟩ := h.resumes_steadily
  exact ⟨n, fun k hk => (hn k hk).imp (fun ⟨rest, _, hrest⟩ => ⟨rest, hrest⟩) id⟩

/-! ## Failure -/

/-- Evaluation of the task ends with an outcome. -/
abbrev Task.Ends (settings : Settings) (t : Task) (r : Outcome EvalError Value) : Prop :=
  Evaluates settings t.tree t.scope t.machine r

theorem Begins.fails {t t' : Task} (h : Begins settings t t') {e : EvalError} {m' : Machine}
    (he : t'.Ends settings (.error (.failed e) m')) : ∃ m, t.Ends settings (.error (.failed e) m) := by
  obtain ⟨n₁, h₁⟩ := he.enough
  obtain ⟨n₂, h₂⟩ := h.resumes
  have he := h₁ (max n₁ n₂) (by omega)
  rcases h₂ (max n₁ n₂) (by omega) with ⟨rest, hrest⟩ | hleft
  · rw [Run.bind_of_error he] at hrest
    exact ⟨m', ⟨_, hrest⟩, trivial⟩
  · rw [Task.within, Task.within, he] at hleft
    exact ⟨m'.left, ⟨_, hleft⟩, trivial⟩

/-- No operation turns the error into a value: it is what becomes of every evaluation, of every
    application and of every line in which an evaluation fails with it. -/
structure Propagates (settings : Settings) (e : EvalError) : Prop where
  evaluation {t t' : Task} {m' : Machine} : Relation.ReflTransGen (Begins settings) t t' →
    t'.Ends settings (.error (.failed e) m') → ∃ m, t.Ends settings (.error (.failed e) m)
  application {m m' : Machine} {name : String} {params : List String} {body : Value} {outer : ScopeId}
    {args : List Value} : args.length = params.length → Procedure.MayEnter settings m →
      Task.Ends settings ⟨body, m.heap.frames.size, Procedure.entered m name params args outer⟩
        (.error (.failed e) m') →
          Applies settings (.closure params body outer) name args m (.error (.failed e) m'.left)
  line {line : String} {m m' : Machine} {t : Task} : Line.Begins settings line m t →
    evaluate settings t.tree t.scope t.machine = .error (.failed e) m' →
      Line.run settings line m = .error (.failed (.evaluation e)) m'

theorem propagates (settings : Settings) (e : EvalError) : Propagates settings e where
  evaluation {t t' m'} h he := by
    induction h using Relation.ReflTransGen.head_induction_on with
    | refl => exact ⟨m', he⟩
    | head h _ ih =>
      obtain ⟨m₁, h₁⟩ := ih
      exact h.fails h₁
  application {m m' name params body outer args} hlen henter he := by
    obtain ⟨n, hn⟩ := he.enough
    refine ⟨⟨n + 1, ?_⟩, trivial⟩
    show Procedure.applyWith settings (evaluateWithin settings n) (.closure params body outer) name args m = _
    rw [Procedure.applyWith_closure, if_pos hlen, Procedure.call_of_mayEnter henter, hn n (Nat.le_refl n)]
    rfl
  line h he := h.fails he

end LineLisp
