/-
  LineLisp.Proofs.Nesting — the evaluations inside an evaluation. To evaluate a form is to
  begin evaluations of its operands, and in a call of the body of a closure, one after the
  other, each in the machine that the ones before it have left. `Begins` says which
  evaluations one begins directly; what they begin in turn is the rest of the run.
  - `Begins.of_form` and `Begins.of_application`: what a form begins, and what an application.
  - `begins_wellFounded`: under a limit on active calls no nest of evaluations goes on for
    ever. The limit leaves room for fewer calls in the body of a closure, and an operand is
    smaller than its form.
-/

import LineLisp.Proofs.CallBound

namespace LineLisp

/-- An evaluation that begins: of a tree, in a scope, from a machine. -/
structure Task where
  tree : Value
  scope : ScopeId
  machine : Machine

/-- The evaluations of trees, one after the other, give these values. -/
inductive EvaluatesAll (settings : Settings) (scope : ScopeId) :
    List Value → Machine → List Value → Machine → Prop
  | nil (m : Machine) : EvaluatesAll settings scope [] m [] m
  | cons {tree v : Value} {trees vs : List Value} {m m₁ m' : Machine} :
      Evaluates settings tree scope m (.ok v m₁) → EvaluatesAll settings scope trees m₁ vs m' →
        EvaluatesAll settings scope (tree :: trees) m (v :: vs) m'

/-- So many rounds of evaluating a tree and writing its value lead from one machine to
    another. -/
inductive Rounds (settings : Settings) (body : Value) (scope : ScopeId) : Nat → Machine → Machine → Prop
  | zero (m : Machine) : Rounds settings body scope 0 m m
  | succ {n : Nat} {v : Value} {m m₁ m₂ m' : Machine} :
      Evaluates settings body scope m (.ok v m₁) → Eval.emit v.text m₁ = .ok () m₂ →
        Rounds settings body scope n m₂ m' → Rounds settings body scope (n + 1) m m'

/-- What `set!` does about its name before it evaluates its operand. -/
def Form.warn (scope : ScopeId) (name : String) : Eval Unit := do
  unless ← Eval.isBound scope name do warnUndefined name

/-- The first evaluation begins the second one as a part of itself. -/
inductive Begins (settings : Settings) : Task → Task → Prop
  | condition {operands : List Value} {scope : ScopeId} {m : Machine} {c : Value} :
      operands[0]? = some c → Begins settings ⟨.form .conditional operands, scope, m⟩ ⟨c, scope, m⟩
  | branch {operands : List Value} {scope : ScopeId} {m m' : Machine} {c v b : Value} :
      operands[0]? = some c → Evaluates settings c scope m (.ok v m') →
        operands[if v.isTrue then 1 else 2]? = some b →
          Begins settings ⟨.form .conditional operands, scope, m⟩ ⟨b, scope, m'⟩
  | definition {operands : List Value} {scope : ScopeId} {m : Machine} {name : String} {e : Value} :
      operands[0]? = some (.symbol name) → operands[1]? = some e →
        Begins settings ⟨.form .define operands, scope, m⟩ ⟨e, scope, m⟩
  | assignment {operands : List Value} {scope : ScopeId} {m m' : Machine} {name : String} {e : Value} :
      operands[0]? = some (.symbol name) → operands[1]? = some e → Form.warn scope name m = .ok () m' →
        Begins settings ⟨.form .assign operands, scope, m⟩
          ⟨e, if settings.setReadsGlobal then Heap.globalScope else scope, m'⟩
  | count {operands : List Value} {scope : ScopeId} {m : Machine} {c : Value} :
      operands[0]? = some c → Begins settings ⟨.form .iterate operands, scope, m⟩ ⟨c, scope, m⟩
  | round {operands : List Value} {scope : ScopeId} {m m₁ m' : Machine} {c v body : Value} {n i : Nat} :
      operands[0]? = some c → Evaluates settings c scope m (.ok v m₁) → Form.count v m₁ = .ok n m₁ →
        operands[1]? = some body → i < n → Rounds settings body scope i m₁ m' →
          Begins settings ⟨.form .iterate operands, scope, m⟩ ⟨body, scope, m'⟩
  | operand {name : String} {before after vs : List Value} {scope : ScopeId} {m m' : Machine} {e : Value} :
      Keyword.ofName? name = none → EvaluatesAll settings scope before m vs m' →
        Begins settings ⟨.list (.symbol name :: (before ++ e :: after)), scope, m⟩ ⟨e, scope, m'⟩
  | call {name : String} {operands args : List Value} {scope : ScopeId} {m m' : Machine} {id : ClosureId}
      {params : List String} {body : Value} {outer : ScopeId} :
      Keyword.ofName? name = none → m.heap.get? scope name = some (.closure id params body outer) →
        EvaluatesAll settings scope operands m args m' → args.length = params.length →
          Procedure.MayEnter settings m' →
            Begins settings ⟨.list (.symbol name :: operands), scope, m⟩
              ⟨body, m'.heap.frames.size, Procedure.entered m' name params args outer⟩

variable {settings : Settings}

theorem Evaluates.of_ok {k : Nat} {tree v : Value} {scope : ScopeId} {m m' : Machine}
    (h : evaluateWithin settings k tree scope m = .ok v m') : Evaluates settings tree scope m (.ok v m') :=
  ⟨⟨k, h⟩, trivial⟩

theorem EvaluatesAll.snoc {scope : ScopeId} {trees vs : List Value} {tree v : Value} {m m₁ m' : Machine}
    (h : EvaluatesAll settings scope trees m vs m₁) (he : Evaluates settings tree scope m₁ (.ok v m')) :
    EvaluatesAll settings scope (trees ++ [tree]) m (vs ++ [v]) m' := by
  induction h with
  | nil m => exact .cons he (.nil m')
  | cons h₁ _ ih => exact .cons h₁ (ih he)

theorem Rounds.snoc {body v : Value} {scope : ScopeId} {i : Nat} {m m₁ m₂ m' : Machine}
    (h : Rounds settings body scope i m m₁) (he : Evaluates settings body scope m₁ (.ok v m₂))
    (hw : Eval.emit v.text m₂ = .ok () m') : Rounds settings body scope (i + 1) m m' := by
  induction h with
  | zero m => exact .succ he hw (.zero m')
  | succ h₁ hw₁ _ ih => exact .succ h₁ hw₁ (ih he)

theorem Value.form_injective {keyword keyword' : Keyword} {operands operands' : List Value}
    (h : form keyword operands = form keyword' operands') : keyword = keyword' ∧ operands = operands' := by
  simp only [form, list.injEq, List.cons.injEq, symbol.injEq] at h
  exact ⟨Keyword.name_injective h.1, h.2⟩

theorem Value.form_ne {keyword : Keyword} {name : String} {operands operands' : List Value}
    (h : Keyword.ofName? name = none) : form keyword operands ≠ .list (.symbol name :: operands') := by
  intro heq
  simp only [form, list.injEq, List.cons.injEq, symbol.injEq] at heq
  rw [← heq.1, Keyword.ofName?_eq_some_iff.mpr rfl] at h
  cases h

/-- What a form begins. -/
def Form.CanBegin (settings : Settings) (operands : List Value) (scope : ScopeId) (m : Machine) (t : Task) :
    Keyword → Prop
  | .conditional => ∃ c, operands[0]? = some c ∧ (t = ⟨c, scope, m⟩ ∨ ∃ v m' b,
      Evaluates settings c scope m (.ok v m') ∧ operands[if v.isTrue then 1 else 2]? = some b ∧ t = ⟨b, scope, m'⟩)
  | .define => ∃ name e, operands[0]? = some (.symbol name) ∧ operands[1]? = some e ∧ t = ⟨e, scope, m⟩
  | .assign => ∃ name e m', operands[0]? = some (.symbol name) ∧ operands[1]? = some e ∧
      Form.warn scope name m = .ok () m' ∧ t = ⟨e, settings.readScope scope, m'⟩
  | .iterate => ∃ c, operands[0]? = some c ∧ (t = ⟨c, scope, m⟩ ∨ ∃ v m₁ n body i m',
      Evaluates settings c scope m (.ok v m₁) ∧ Form.count v m₁ = .ok n m₁ ∧ operands[1]? = some body ∧ i < n ∧
        Rounds settings body scope i m₁ m' ∧ t = ⟨body, scope, m'⟩)
  | .lambda | .quote => False

theorem Begins.of_form {keyword : Keyword} {operands : List Value} {scope : ScopeId} {m : Machine} {t : Task}
    (h : Begins settings ⟨.form keyword operands, scope, m⟩ t) : Form.CanBegin settings operands scope m t keyword := by
  generalize ht : (⟨.form keyword operands, scope, m⟩ : Task) = t₀ at h
  have same {keyword' : Keyword} {operands' : List Value} {scope' : ScopeId} {m' : Machine}
      (ht : (⟨.form keyword operands, scope, m⟩ : Task) = ⟨.form keyword' operands', scope', m'⟩) :
      keyword' = keyword ∧ operands' = operands ∧ scope' = scope ∧ m' = m := by
    obtain ⟨htree, rfl, rfl⟩ := Task.mk.inj ht
    obtain ⟨rfl, rfl⟩ := Value.form_injective htree
    exact ⟨rfl, rfl, rfl, rfl⟩
  cases h with
  | condition hc =>
    obtain ⟨rfl, rfl, rfl, rfl⟩ := same ht
    exact ⟨_, hc, .inl rfl⟩
  | branch hc he hb =>
    obtain ⟨rfl, rfl, rfl, rfl⟩ := same ht
    exact ⟨_, hc, .inr ⟨_, _, _, he, hb, rfl⟩⟩
  | definition hname he =>
    obtain ⟨rfl, rfl, rfl, rfl⟩ := same ht
    exact ⟨_, _, hname, he, rfl⟩
  | assignment hname he hw =>
    obtain ⟨rfl, rfl, rfl, rfl⟩ := same ht
    exact ⟨_, _, _, hname, he, hw, rfl⟩
  | count hc =>
    obtain ⟨rfl, rfl, rfl, rfl⟩ := same ht
    exact ⟨_, hc, .inl rfl⟩
  | round hc he hn hb hi hr =>
    obtain ⟨rfl, rfl, rfl, rfl⟩ := same ht
    exact ⟨_, hc, .inr ⟨_, _, _, _, _, _, he, hn, hb, hi, hr, rfl⟩⟩
  | operand hname => exact absurd (Task.mk.inj ht).1 (Value.form_ne hname)
  | call hname => exact absurd (Task.mk.inj ht).1 (Value.form_ne hname)

theorem Begins.of_application {name : String} {operands : List Value} {scope : ScopeId} {m : Machine} {t : Task}
    (hname : Keyword.ofName? name = none) (h : Begins settings ⟨.list (.symbol name :: operands), scope, m⟩ t) :
    (∃ before e after vs m', operands = before ++ e :: after ∧ EvaluatesAll settings scope before m vs m' ∧
      t = ⟨e, scope, m'⟩) ∨
    ∃ id params body outer args m', m.heap.get? scope name = some (.closure id params body outer) ∧
      EvaluatesAll settings scope operands m args m' ∧ args.length = params.length ∧ Procedure.MayEnter settings m' ∧
        t = ⟨body, m'.heap.frames.size, Procedure.entered m' name params args outer⟩ := by
  generalize ht : (⟨.list (.symbol name :: operands), scope, m⟩ : Task) = t₀ at h
  have other {keyword : Keyword} {operands' : List Value} {scope' : ScopeId} {m' : Machine}
      (ht : (⟨.list (.symbol name :: operands), scope, m⟩ : Task) = ⟨.form keyword operands', scope', m'⟩) : False :=
    Value.form_ne hname (Task.mk.inj ht).1.symm
  cases h with
  | condition => exact (other ht).elim
  | branch => exact (other ht).elim
  | definition => exact (other ht).elim
  | assignment => exact (other ht).elim
  | count => exact (other ht).elim
  | round => exact (other ht).elim
  | operand _ hall =>
    cases ht
    exact .inl ⟨_, _, _, _, _, rfl, hall, rfl⟩
  | call _ hf hall hlen henter =>
    cases ht
    exact .inr ⟨_, _, _, _, _, _, hf, hall, hlen, henter, rfl⟩

theorem Begins.of_assign {operands : List Value} {scope : ScopeId} {m : Machine} {t : Task}
    (h : Begins settings ⟨.form .assign operands, scope, m⟩ t) :
    ∃ name m', operands[0]? = some (.symbol name) ∧ Form.warn scope name m = .ok () m' := by
  obtain ⟨name, _, m', hname, -, hw, -⟩ := h.of_form
  exact ⟨name, m', hname, hw⟩

/-! ## Depth -/

theorem Evaluates.grows {tree : Value} {scope : ScopeId} {m : Machine} {r : Outcome EvalError Value}
    (h : Evaluates settings tree scope m r) : Grows m r.machine := by
  obtain ⟨⟨n, rfl⟩, -⟩ := h
  exact evaluateWithin_grows settings n tree scope m

theorem Eval.emit_grows {line : String} {m m' : Machine} (h : Eval.emit line m = .ok () m') : Grows m m' := by
  have := (growth .standard).congruence.emit Heap.globalScope line m
  rw [h] at this
  exact this

theorem EvaluatesAll.grows {scope : ScopeId} {trees vs : List Value} {m m' : Machine}
    (h : EvaluatesAll settings scope trees m vs m') : Grows m m' := by
  induction h with
  | nil m => exact .refl m
  | cons he _ ih => exact he.grows.trans ih

theorem Rounds.grows {body : Value} {scope : ScopeId} {n : Nat} {m m' : Machine}
    (h : Rounds settings body scope n m m') : Grows m m' := by
  induction h with
  | zero m => exact .refl m
  | succ he hw _ ih => exact he.grows.trans ((Eval.emit_grows hw).trans ih)

theorem Form.warn_apply (scope : ScopeId) (name : String) (m : Machine) :
    warn scope name m =
      if m.heap.contains scope name then .ok () m
      else Eval.emit ("WARNING: setting undefined variable '" ++ name ++ "'")
        { m with log := m.log.push (.undefinedVariable name) } := by
  unfold warn
  rw [Run.bind_apply, Eval.isBound_apply]
  cases m.heap.contains scope name <;> rfl

theorem Form.warn_grows {scope : ScopeId} {name : String} {m m' : Machine} (h : warn scope name m = .ok () m') :
    Grows m m' := by
  rw [warn_apply] at h
  split at h
  · cases h
    exact .refl m
  · exact ((growth .standard).note Heap.globalScope m _).trans (Eval.emit_grows h)

theorem Value.sizeOf_lt_form {keyword : Keyword} {operands : List Value} {i : Nat} {e : Value}
    (h : operands[i]? = some e) : sizeOf e < sizeOf (form keyword operands) := by
  have hmem := List.sizeOf_lt_of_mem (List.mem_of_getElem? h)
  simp only [form, Value.list.sizeOf_spec, List.cons.sizeOf_spec]
  omega

/-- An evaluation begins others at its own depth and of smaller trees, but for the body of a
    closure, which is one deeper. -/
theorem Begins.descends {t t' : Task} (h : Begins settings t t') :
    t'.machine.depth = t.machine.depth ∧ sizeOf t'.tree < sizeOf t.tree ∨
      t'.machine.depth = t.machine.depth + 1 ∧ Procedure.MayEnter settings t.machine := by
  cases h with
  | condition hc => exact .inl ⟨rfl, Value.sizeOf_lt_form hc⟩
  | branch _ he hb => exact .inl ⟨he.grows.depth, Value.sizeOf_lt_form hb⟩
  | definition _ he => exact .inl ⟨rfl, Value.sizeOf_lt_form he⟩
  | assignment _ he hw => exact .inl ⟨(Form.warn_grows hw).depth, Value.sizeOf_lt_form he⟩
  | count hc => exact .inl ⟨rfl, Value.sizeOf_lt_form hc⟩
  | round _ hc _ hb _ hr => exact .inl ⟨hr.grows.depth.trans hc.grows.depth, Value.sizeOf_lt_form hb⟩
  | @operand name before after vs scope m m' e _ hall =>
    refine .inl ⟨hall.grows.depth, ?_⟩
    have hmem := List.sizeOf_lt_of_mem (List.mem_append_right before (List.mem_cons_self (a := e) (l := after)))
    simp only [Value.list.sizeOf_spec, List.cons.sizeOf_spec]
    omega
  | @call _ _ _ _ m m' _ _ _ _ _ _ hall _ henter =>
    refine .inr ⟨?_, fun limit hs => ?_⟩
    · show m'.depth + 1 = m.depth + 1
      rw [hall.grows.depth]
    · rw [← hall.grows.depth]
      exact henter limit hs

/-- Calls that the limit leaves room for, and the size of the tree. -/
noncomputable def Task.rank (limit : Nat) (t : Task) : Nat × Nat := (limit - t.machine.depth, sizeOf t.tree)

/-- Under a limit on active calls no nest of evaluations goes on for ever. -/
theorem begins_wellFounded {limit : Nat} (hs : settings.maxDepth = some limit) :
    WellFounded fun t' t => Begins settings t t' := by
  have hlex : WellFounded (Prod.Lex (· < ·) (· < ·) : Nat × Nat → Nat × Nat → Prop) :=
    (Prod.lex Nat.lt_wfRel Nat.lt_wfRel).wf
  refine Subrelation.wf (fun {t' t} h => ?_) (InvImage.wf (Task.rank limit) hlex)
  show Prod.Lex _ _ (Task.rank limit t') (Task.rank limit t)
  rcases h.descends with ⟨hdepth, hsize⟩ | ⟨hdepth, henter⟩
  · unfold Task.rank
    rw [hdepth]
    exact .right _ hsize
  · have := henter limit hs
    exact .left _ _ (by omega)

end LineLisp
