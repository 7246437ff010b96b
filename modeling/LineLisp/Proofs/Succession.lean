/-
  LineLisp.Proofs.Succession — which evaluation comes after which. Of two evaluations that one
  begins the first has come to a value when the second begins, and all inside it have ended; so
  have all trees of a line before a later one, and all that an operation evaluates before the next
  operation.
  - `Next`: what an evaluation begins after another one has ended.
  - `Operation.Precedes`: of two evaluations in an operation, the first ends before the second
    begins.
  - `Operation.Runs.ordered`: of any two, one is inside the other or precedes it.
  - `Operation.Later`: an evaluation comes after another one in the same operation or in one that
    is done later, `Machine.Passes` being what is done in between.
  - `Operation.Later.extends`: what was bound where the earlier evaluation ended is bound where
    the later one begins.
-/

import LineLisp.Proofs.ScopeLinks
import LineLisp.Proofs.WriteConfinement

namespace LineLisp

variable {settings : Settings}

/-! ## Extension -/

/-- Every scope stays inside the one that it was made in and keeps the names that it binds. -/
abbrev Heap.Extends (h h' : Heap) : Prop := h.ConfinedTo (fun _ => True) h'

theorem Heap.Extends.refl (h : Heap) : h.Extends h := .of_frames_eq rfl

/-- No scope goes away. -/
theorem Heap.Extends.lt_size {h h' : Heap} (hext : h.Extends h') {scope : ScopeId} (hscope : scope < h.frames.size) :
    scope < h'.frames.size := by
  obtain ⟨f, hf, -⟩ := hext.extended scope _ (Array.getElem?_eq_getElem hscope)
  exact (Array.getElem?_eq_some_iff.mp hf).1

def extension (settings : Settings) : Evolution settings where
  rel _ m m' := m.heap.Extends m'.heap
  refl _ m := .refl m.heap
  trans := .trans
  inGlobal _ h := h
  note _ m _ := .refl m.heap
  write _ m _ := .refl m.heap
  define _ m name v := (Heap.ConfinedTo.define m.heap _ name v).mono fun _ _ _ => trivial
  makeClosure _ _ := .of_frames_eq rfl
  call _ {_ _} {_ _ _ _} h := (Heap.ConfinedTo.push _ _).trans h

theorem Evaluates.extends {tree : Value} {scope : ScopeId} {m : Machine} {r : Outcome EvalError Value}
    (h : Evaluates settings tree scope m r) : m.heap.Extends r.machine.heap := by
  obtain ⟨⟨n, rfl⟩, -⟩ := h
  exact (extension settings).evaluate n tree scope m

theorem EvaluatesAll.extends {scope : ScopeId} {trees vs : List Value} {m m' : Machine}
    (h : EvaluatesAll settings scope trees m vs m') : m.heap.Extends m'.heap := by
  induction h with
  | nil m => exact .refl m.heap
  | cons he _ ih => exact he.extends.trans ih

theorem Rounds.extends {body : Value} {scope : ScopeId} {n : Nat} {m m' : Machine}
    (h : Rounds settings body scope n m m') : m.heap.Extends m'.heap := by
  induction h with
  | zero m => exact .refl m.heap
  | succ he hw _ ih => exact he.extends.trans (Eval.emit_heap hw ▸ ih)

/-- What an evaluation begins, it begins in a heap that extends its own. -/
theorem Begins.extends {t t' : Task} (h : Begins settings t t') : t.machine.heap.Extends t'.machine.heap := by
  cases h with
  | condition => exact .refl _
  | branch _ he _ => exact he.extends
  | definition => exact .refl _
  | assignment _ _ hw =>
    rw [Form.warn_heap hw]
    exact .refl _
  | count => exact .refl _
  | round _ he _ _ _ hr => exact he.extends.trans hr.extends
  | operand _ hall => exact hall.extends
  | call _ _ hall _ _ => exact hall.extends.trans (.push _ _)

theorem Inside.extends {t t' : Task} {cs : List Call} (h : Inside settings t cs t') :
    t.machine.heap.Extends t'.machine.heap := by
  induction h with
  | start => exact .refl _
  | part _ hp ih => exact ih.trans hp.1.extends
  | body _ he ih => exact ih.trans he.begins.extends

/-! ## Ends inside -/

/-- If an evaluation ends, so did what it has begun, and its heap extends the one left there. -/
theorem Begins.ends {t t' : Task} (h : Begins settings t t') {r : Outcome EvalError Value} (hr : t.Ends settings r) :
    ∃ r', t'.Ends settings r' ∧ r'.machine.heap.Extends r.machine.heap := by
  obtain ⟨n₁, h₁⟩ := hr.enough
  obtain ⟨n₂, h₂⟩ := h.resumes_steadily
  have hfin := hr.2
  rcases h₂ (max n₁ n₂) (by omega) with ⟨rest, hrest, heq⟩ | hleft
  · rw [Task.within, h₁ _ (by omega), Run.bind_apply] at heq
    subst heq
    cases he : evaluateWithin settings (max n₁ n₂) t'.tree t'.scope t'.machine with
    | ok v m =>
      exact ⟨_, ⟨⟨_, he⟩, trivial⟩, hrest v (extension settings) m⟩
    | error e m =>
      rw [he] at hfin
      exact ⟨_, ⟨⟨_, he⟩, hfin⟩, .refl _⟩
  · rw [Task.within, h₁ _ (by omega)] at hleft
    subst hleft
    refine ⟨_, ⟨⟨_, rfl⟩, (Outcome.finished_onMachine _ _).mp hfin⟩, ?_⟩
    rw [Outcome.machine_onMachine]
    exact .refl _

theorem Inside.ends {t t' : Task} {cs : List Call} (h : Inside settings t cs t') {r : Outcome EvalError Value}
    (hr : t.Ends settings r) : ∃ r', t'.Ends settings r' ∧ r'.machine.heap.Extends r.machine.heap := by
  induction h with
  | start => exact ⟨r, hr, .refl _⟩
  | part _ hp ih =>
    obtain ⟨r₁, h₁, hext₁⟩ := ih
    obtain ⟨r₂, h₂, hext₂⟩ := hp.1.ends h₁
    exact ⟨r₂, h₂, hext₂.trans hext₁⟩
  | body _ he ih =>
    obtain ⟨r₁, h₁, hext₁⟩ := ih
    obtain ⟨r₂, h₂, hext₂⟩ := he.begins.ends h₁
    exact ⟨r₂, h₂, hext₂.trans hext₁⟩

theorem Begins.inside {t t' : Task} (h : Begins settings t t') : ∃ cs, Inside settings t cs t' := by
  by_cases hc : ∃ c, Enters settings t c t'
  · obtain ⟨c, hc⟩ := hc
    exact ⟨[c], .body .start hc⟩
  · exact ⟨[], .part .start ⟨h, not_exists.mp hc⟩⟩

/-! ## One after the other -/

/-- The evaluation begins the second one and later the third one, when the second has given its value. -/
inductive Next (settings : Settings) : Task → Task → Task → Prop
  | branch {operands : List Value} {scope : ScopeId} {m m' : Machine} {c v b : Value} :
      operands[0]? = some c → Evaluates settings c scope m (.ok v m') →
        operands[if v.isTrue then 1 else 2]? = some b →
          Next settings ⟨.form .conditional operands, scope, m⟩ ⟨c, scope, m⟩ ⟨b, scope, m'⟩
  | count {operands : List Value} {scope : ScopeId} {m m₁ m' : Machine} {c v body : Value} {n i : Nat} :
      operands[0]? = some c → Evaluates settings c scope m (.ok v m₁) → Form.count v m₁ = .ok n m₁ →
        operands[1]? = some body → i < n → Rounds settings body scope i m₁ m' →
          Next settings ⟨.form .iterate operands, scope, m⟩ ⟨c, scope, m⟩ ⟨body, scope, m'⟩
  | round {operands : List Value} {scope : ScopeId} {m m₁ m₂ m' : Machine} {c v body : Value} {n i j : Nat} :
      operands[0]? = some c → Evaluates settings c scope m (.ok v m₁) → Form.count v m₁ = .ok n m₁ →
        operands[1]? = some body → Rounds settings body scope i m₁ m₂ →
          Rounds settings body scope (j + 1) m₂ m' → i + (j + 1) < n →
            Next settings ⟨.form .iterate operands, scope, m⟩ ⟨body, scope, m₂⟩ ⟨body, scope, m'⟩
  | operand {name : String} {before between after vs ws : List Value} {scope : ScopeId} {m m₁ m' : Machine}
      {e e' : Value} :
      Keyword.ofName? name = none → EvaluatesAll settings scope before m vs m₁ →
        EvaluatesAll settings scope (e :: between) m₁ ws m' →
          Next settings ⟨.list (.symbol name :: (before ++ e :: between ++ e' :: after)), scope, m⟩
            ⟨e, scope, m₁⟩ ⟨e', scope, m'⟩
  | call {name : String} {before after vs ws : List Value} {scope : ScopeId} {m m₁ m' : Machine} {e : Value}
      {id : ClosureId} {params : List String} {body : Value} {outer : ScopeId} :
      Keyword.ofName? name = none → m.heap.get? scope name = some (.closure id params body outer) →
        EvaluatesAll settings scope before m vs m₁ → EvaluatesAll settings scope (e :: after) m₁ ws m' →
          (vs ++ ws).length = params.length → Procedure.MayEnter settings m' →
            Next settings ⟨.list (.symbol name :: (before ++ e :: after)), scope, m⟩ ⟨e, scope, m₁⟩
              ⟨body, m'.heap.frames.size, Procedure.entered m' name params (vs ++ ws) outer⟩

theorem EvaluatesAll.append {scope : ScopeId} {trees trees' vs ws : List Value} {m m₁ m' : Machine}
    (h : EvaluatesAll settings scope trees m vs m₁) (h' : EvaluatesAll settings scope trees' m₁ ws m') :
    EvaluatesAll settings scope (trees ++ trees') m (vs ++ ws) m' := by
  induction h with
  | nil m => exact h'
  | cons he _ ih => exact .cons he (ih h')

theorem Rounds.append {body : Value} {scope : ScopeId} {i j : Nat} {m m₁ m' : Machine}
    (h : Rounds settings body scope i m m₁) (h' : Rounds settings body scope j m₁ m') :
    Rounds settings body scope (i + j) m m' := by
  induction h with
  | zero m => rwa [Nat.zero_add]
  | succ he hw _ ih =>
    rw [Nat.succ_add]
    exact .succ he hw (ih h')

namespace Next

variable {t c c' : Task}

theorem begins (h : Next settings t c c') : Begins settings t c ∧ Begins settings t c' := by
  cases h with
  | branch hc he hb => exact ⟨.condition hc, .branch hc he hb⟩
  | count hc he hn hb hi hr => exact ⟨.count hc, .round hc he hn hb hi hr⟩
  | round hc he hn hb hr hr' hi =>
    exact ⟨.round hc he hn hb (Nat.lt_of_le_of_lt (Nat.le_add_right _ _) hi) hr,
      .round hc he hn hb hi (hr.append hr')⟩
  | operand hname hbefore hrest =>
    refine ⟨?_, .operand hname (hbefore.append hrest)⟩
    rw [List.append_assoc, List.cons_append]
    exact .operand hname hbefore
  | call hname hf hbefore hrest hlen henter =>
    exact ⟨.operand hname hbefore, .call hname hf (hbefore.append hrest) hlen henter⟩

/-- The second one has ended, and the third one begins in a heap that extends the one left there. -/
theorem ends (h : Next settings t c c') :
    ∃ v m, c.Ends settings (.ok v m) ∧ m.heap.Extends c'.machine.heap := by
  cases h with
  | branch _ he _ => exact ⟨_, _, he, .refl _⟩
  | count _ he _ _ _ hr => exact ⟨_, _, he, hr.extends⟩
  | round _ _ _ _ _ hr' _ =>
    cases hr' with
    | succ he hw hr => exact ⟨_, _, he, Eval.emit_heap hw ▸ hr.extends⟩
  | operand _ _ hrest =>
    cases hrest with
    | cons he hrest => exact ⟨_, _, he, hrest.extends⟩
  | call _ _ _ hrest _ _ =>
    cases hrest with
    | cons he hrest => exact ⟨_, _, he, hrest.extends.trans (.push _ _)⟩

end Next

/-! ## No other order -/

theorem EvaluatesAll.unique {scope : ScopeId} {trees vs ws : List Value} {m m₁ m₂ : Machine}
    (h : EvaluatesAll settings scope trees m vs m₁) (h' : EvaluatesAll settings scope trees m ws m₂) :
    vs = ws ∧ m₁ = m₂ := by
  induction h generalizing ws m₂ with
  | nil m =>
    cases h'
    exact ⟨rfl, rfl⟩
  | cons he _ ih =>
    cases h' with
    | cons he' h' =>
      cases he.unique he'
      obtain ⟨rfl, rfl⟩ := ih h'
      exact ⟨rfl, rfl⟩

theorem EvaluatesAll.of_append {scope : ScopeId} {trees trees' us : List Value} {m m' : Machine}
    (h : EvaluatesAll settings scope (trees ++ trees') m us m') :
    ∃ vs ws m₁, EvaluatesAll settings scope trees m vs m₁ ∧ EvaluatesAll settings scope trees' m₁ ws m' := by
  induction trees generalizing us m with
  | nil => exact ⟨[], us, m, .nil m, h⟩
  | cons tree trees ih =>
    cases h with
    | cons he h =>
      obtain ⟨vs, ws, m₁, h₁, h₂⟩ := ih h
      exact ⟨_ :: vs, ws, m₁, .cons he h₁, h₂⟩

theorem Rounds.unique {body : Value} {scope : ScopeId} {i : Nat} {m m₁ m₂ : Machine}
    (h : Rounds settings body scope i m m₁) (h' : Rounds settings body scope i m m₂) : m₁ = m₂ := by
  induction h generalizing m₂ with
  | zero m =>
    cases h'
    rfl
  | succ he hw _ ih =>
    cases h' with
    | succ he' hw' h' =>
      cases he.unique he'
      cases hw.symm.trans hw'
      exact ih h'

theorem Rounds.of_add {body : Value} {scope : ScopeId} {i j : Nat} {m m' : Machine}
    (h : Rounds settings body scope (i + j) m m') :
    ∃ m₁, Rounds settings body scope i m m₁ ∧ Rounds settings body scope j m₁ m' := by
  induction i generalizing m with
  | zero => exact ⟨m, .zero m, Nat.zero_add j ▸ h⟩
  | succ i ih =>
    rw [Nat.succ_add] at h
    cases h with
    | succ he hw h =>
      obtain ⟨m₁, h₁, h₂⟩ := ih h
      exact ⟨m₁, .succ he hw h₁, h₂⟩

/-- Of two evaluations that a third one begins they are the same, or one comes after the other. -/
def Ordered (settings : Settings) (t c c' : Task) : Prop := c = c' ∨ Next settings t c c' ∨ Next settings t c' c

theorem Ordered.symm {t c c' : Task} (h : Ordered settings t c c') : Ordered settings t c' c := by
  rcases h with rfl | h | h
  · exact .inl rfl
  · exact .inr (.inr h)
  · exact .inr (.inl h)

section Application

variable {name : String} {scope : ScopeId} {m m₁ m₂ : Machine} (hname : Keyword.ofName? name = none)

include hname

theorem operands_ordered {before before' after after' vs vs' : List Value} {e e' : Value}
    (heq : before ++ e :: after = before' ++ e' :: after') (h : EvaluatesAll settings scope before m vs m₁)
    (h' : EvaluatesAll settings scope before' m vs' m₂) :
    Ordered settings ⟨.list (.symbol name :: (before ++ e :: after)), scope, m⟩ ⟨e, scope, m₁⟩ ⟨e', scope, m₂⟩ := by
  have first {before between after after' vs vs' : List Value} {e e' : Value} {m₁ m₂ : Machine}
      (heq : e :: after = between ++ e' :: after') (h : EvaluatesAll settings scope before m vs m₁)
      (h' : EvaluatesAll settings scope (before ++ between) m vs' m₂) :
      Ordered settings ⟨.list (.symbol name :: (before ++ e :: after)), scope, m⟩ ⟨e, scope, m₁⟩ ⟨e', scope, m₂⟩ := by
    cases between with
    | nil =>
      cases heq
      rw [List.append_nil] at h'
      obtain ⟨-, rfl⟩ := h.unique h'
      exact .inl rfl
    | cons x between =>
      rw [List.cons_append] at heq
      obtain ⟨rfl, rfl⟩ := List.cons.inj heq
      obtain ⟨us, ws, m₃, hbefore, hrest⟩ := h'.of_append
      obtain ⟨-, rfl⟩ := h.unique hbefore
      have hsplit : before ++ e :: (between ++ e' :: after') = before ++ e :: between ++ e' :: after' := by simp
      rw [hsplit]
      exact .inr (.inl (.operand hname h hrest))
  rcases List.append_eq_append_iff.mp heq with ⟨between, rfl, hrest⟩ | ⟨between, rfl, hrest⟩
  · exact first hrest h h'
  · rw [heq]
    exact (first hrest h' h).symm

theorem call_after_operand {before after vs args : List Value} {e : Value} {id : ClosureId} {params : List String}
    {body : Value} {outer : ScopeId} (hf : m.heap.get? scope name = some (.closure id params body outer))
    (h : EvaluatesAll settings scope before m vs m₁)
    (hall : EvaluatesAll settings scope (before ++ e :: after) m args m₂)
    (hlen : args.length = params.length) (henter : Procedure.MayEnter settings m₂) :
    Next settings ⟨.list (.symbol name :: (before ++ e :: after)), scope, m⟩ ⟨e, scope, m₁⟩
      ⟨body, m₂.heap.frames.size, Procedure.entered m₂ name params args outer⟩ := by
  obtain ⟨us, ws, m₃, hbefore, hrest⟩ := hall.of_append
  obtain ⟨rfl, -⟩ := hall.unique (hbefore.append hrest)
  obtain ⟨rfl, rfl⟩ := h.unique hbefore
  exact .call hname hf h hrest hlen henter

end Application

theorem rounds_ordered {operands : List Value} {scope : ScopeId} {m m₁ m₂ m₃ : Machine} {c v body : Value} {n i j : Nat}
    (hc : operands[0]? = some c) (he : Evaluates settings c scope m (.ok v m₁)) (hn : Form.count v m₁ = .ok n m₁)
    (hb : operands[1]? = some body) (hi : i < n) (hr : Rounds settings body scope i m₁ m₂) (hj : j < n)
    (hr' : Rounds settings body scope j m₁ m₃) :
    Ordered settings ⟨.form .iterate operands, scope, m⟩ ⟨body, scope, m₂⟩ ⟨body, scope, m₃⟩ := by
  have later {i j : Nat} {m₂ m₃ : Machine} (hij : i < j) (hj : j < n) (hr : Rounds settings body scope i m₁ m₂)
      (hr' : Rounds settings body scope j m₁ m₃) :
      Next settings ⟨.form .iterate operands, scope, m⟩ ⟨body, scope, m₂⟩ ⟨body, scope, m₃⟩ := by
    obtain ⟨d, rfl⟩ := Nat.exists_eq_add_of_lt hij
    obtain ⟨m₄, h, h'⟩ := Rounds.of_add (j := d + 1) hr'
    obtain rfl := hr.unique h
    exact .round hc he hn hb hr h' hj
  rcases Nat.lt_trichotomy i j with hij | rfl | hij
  · exact .inr (.inl (later hij hj hr hr'))
  · obtain rfl := hr.unique hr'
    exact .inl rfl
  · exact .inr (.inr (later hij hi hr' hr))

theorem Begins.ordered {t c c' : Task} (h : Begins settings t c) (h' : Begins settings t c') :
    Ordered settings t c c' := by
  cases h with
  | condition hc =>
    obtain ⟨c', hc', rfl | ⟨v, m', b, he, hb, rfl⟩⟩ := h'.of_form
    · obtain rfl := Option.some.inj (hc.symm.trans hc')
      exact .inl rfl
    · obtain rfl := Option.some.inj (hc.symm.trans hc')
      exact .inr (.inl (.branch hc he hb))
  | branch hc he hb =>
    obtain ⟨c', hc', rfl | ⟨v, m', b, he', hb', rfl⟩⟩ := h'.of_form
    · obtain rfl := Option.some.inj (hc.symm.trans hc')
      exact .inr (.inr (.branch hc he hb))
    · obtain rfl := Option.some.inj (hc.symm.trans hc')
      cases he.unique he'
      obtain rfl := Option.some.inj (hb.symm.trans hb')
      exact .inl rfl
  | definition hname he =>
    obtain ⟨name', e', hname', he', rfl⟩ := h'.of_form
    obtain rfl := Option.some.inj (he.symm.trans he')
    exact .inl rfl
  | assignment hname he hw =>
    obtain ⟨name', e', m', hname', he', hw', rfl⟩ := h'.of_form
    cases hname.symm.trans hname'
    obtain rfl := Option.some.inj (he.symm.trans he')
    cases hw.symm.trans hw'
    exact .inl rfl
  | count hc =>
    obtain ⟨c', hc', rfl | ⟨v, m₁, n, body, i, m', he, hn, hb, hi, hr, rfl⟩⟩ := h'.of_form
    · obtain rfl := Option.some.inj (hc.symm.trans hc')
      exact .inl rfl
    · obtain rfl := Option.some.inj (hc.symm.trans hc')
      exact .inr (.inl (.count hc he hn hb hi hr))
  | round hc he hn hb hi hr =>
    obtain ⟨c', hc', rfl | ⟨v, m₁, n, body, i, m', he', hn', hb', hi', hr', rfl⟩⟩ := h'.of_form
    · obtain rfl := Option.some.inj (hc.symm.trans hc')
      exact .inr (.inr (.count hc he hn hb hi hr))
    · obtain rfl := Option.some.inj (hc.symm.trans hc')
      cases he.unique he'
      cases hn.symm.trans hn'
      obtain rfl := Option.some.inj (hb.symm.trans hb')
      exact rounds_ordered hc he hn hb hi hr hi' hr'
  | operand hname hall =>
    obtain ⟨before', e', after', vs', m', heq, hall', rfl⟩ |
      ⟨id, params, body, outer, args, m', hf, hall', hlen, henter, rfl⟩ := h'.of_application hname
    · exact operands_ordered hname heq hall hall'
    · exact .inr (.inl (call_after_operand hname hf hall hall' hlen henter))
  | call hname hf hall hlen henter =>
    obtain ⟨before', e', after', vs', m', rfl, hall', rfl⟩ |
      ⟨id, params, body, outer, args, m', hf', hall', hlen', henter', rfl⟩ := h'.of_application hname
    · exact .inr (.inr (call_after_operand hname hf hall' hall hlen henter))
    · cases hf.symm.trans hf'
      obtain ⟨rfl, rfl⟩ := hall.unique hall'
      exact .inl rfl

theorem inside_iff {t t' : Task} :
    (∃ cs, Inside settings t cs t') ↔ Relation.ReflTransGen (Begins settings) t t' := by
  constructor
  · rintro ⟨cs, h⟩
    induction h with
    | start => exact .refl
    | part _ hp ih => exact ih.tail hp.1
    | body _ he ih => exact ih.tail he.begins
  · intro h
    induction h with
    | refl => exact ⟨[], .start⟩
    | tail _ hb ih =>
      obtain ⟨cs, hin⟩ := ih
      obtain ⟨cs', hin'⟩ := hb.inside
      exact ⟨_, hin.trans hin'⟩

/-- Inside an evaluation the first one has ended before the second one begins. -/
def PrecedesInside (settings : Settings) (t t₁ t₂ : Task) : Prop :=
  ∃ p c₁ c₂, Relation.ReflTransGen (Begins settings) t p ∧ Next settings p c₁ c₂ ∧
    Relation.ReflTransGen (Begins settings) c₁ t₁ ∧ Relation.ReflTransGen (Begins settings) c₂ t₂

/-- Of two evaluations inside a third one, either is inside the other or precedes it. -/
theorem inside_ordered {t t₁ t₂ : Task} (h₁ : Relation.ReflTransGen (Begins settings) t t₁)
    (h₂ : Relation.ReflTransGen (Begins settings) t t₂) :
    Relation.ReflTransGen (Begins settings) t₁ t₂ ∨ Relation.ReflTransGen (Begins settings) t₂ t₁ ∨
      PrecedesInside settings t t₁ t₂ ∨ PrecedesInside settings t t₂ t₁ := by
  induction h₁ with
  | refl => exact .inl h₂
  | @tail b c hb hstep ih =>
    rcases ih with h | h | ⟨p, c₁, c₂, hp, hnext, hin₁, hin₂⟩ | ⟨p, c₁, c₂, hp, hnext, hin₁, hin₂⟩
    · -- Below the evaluation that begins this one the two may part.
      rcases h.cases_head with rfl | ⟨d, hd, h⟩
      · exact .inr (.inl (.single hstep))
      · rcases hstep.ordered hd with rfl | hnext | hnext
        · exact .inl h
        · exact .inr (.inr (.inl ⟨b, c, d, hb, hnext, .refl, h⟩))
        · exact .inr (.inr (.inr ⟨b, d, c, hb, hnext, h, .refl⟩))
    · exact .inr (.inl (h.tail hstep))
    · exact .inr (.inr (.inl ⟨p, c₁, c₂, hp, hnext, hin₁.tail hstep, hin₂⟩))
    · exact .inr (.inr (.inr ⟨p, c₁, c₂, hp, hnext, hin₁, hin₂.tail hstep⟩))

/-! ## Lines -/

namespace Line

/-- From a reader and a machine the run of a line goes on, tree after tree, to others. -/
inductive Proceeds (settings : Settings) : Reader → Machine → Reader → Machine → Prop
  | refl (r : Reader) (m : Machine) : Proceeds settings r m r m
  | tree {r r' : Reader} {tree : Value} {m m₁ m' : Machine} : r.read.1 = .ok tree →
      runTree settings tree m = .ok () m₁ → r.read.2.isExhausted = false →
        Proceeds settings r.read.2 m₁ r' m' → Proceeds settings r m r' m'

/-- The run of a line begins the first evaluation and, when it has written the value, later the
    second one. -/
inductive Next (settings : Settings) (text : String) (m : Machine) : Task → Task → Prop
  | tree {r r' : Reader} {tree tree' : Value} {m₁ m₂ m₃ m₄ m₅ : Machine} : Reaches settings text m r m₁ →
      r.read.1 = .ok tree → Eval.emit tree.text m₁ = .ok () m₂ → runTree settings tree m₁ = .ok () m₃ →
        r.read.2.isExhausted = false → Proceeds settings r.read.2 m₃ r' m₄ → r'.read.1 = .ok tree' →
          Eval.emit tree'.text m₄ = .ok () m₅ →
            Next settings text m ⟨tree, Heap.globalScope, m₂⟩ ⟨tree', Heap.globalScope, m₅⟩

variable {text : String} {m : Machine}

theorem Proceeds.reaches {r r' : Reader} {m₁ m₂ : Machine} (h : Proceeds settings r m₁ r' m₂)
    (hr : Reaches settings text m r m₁) : Reaches settings text m r' m₂ := by
  induction h with
  | refl => exact hr
  | tree hread hrun hmore _ ih => exact ih (.next hr hread hrun hmore)

theorem Next.begins {t t' : Task} (h : Next settings text m t t') :
    Begins settings text m t ∧ Begins settings text m t' := by
  cases h with
  | tree hreach hread hw hrun hmore hproceeds hread' hw' =>
    exact ⟨.tree hreach hread hw, .tree (hproceeds.reaches (.next hreach hread hrun hmore)) hread' hw'⟩

/-- Notes, output and evaluation extend a heap further. -/
theorem keeps_extending (settings : Settings) (h : Heap) : Kept settings fun m => h.Extends m.heap where
  note _ hm := hm
  write _ hm := hm
  evaluate _ hm := hm.trans ((extension settings).evaluate _ _ _ _)

theorem extends_of_runTree {r : Reader} {tree : Value} {m₁ m₂ : Machine} (hread : r.read.1 = .ok tree)
    (hrun : runTree settings tree m₁ = .ok () m₂) : m₁.heap.Extends m₂.heap := by
  have hext := (keeps_extending settings m₁.heap).runTree (Reader.read_within hread) (.refl m₁.heap)
  rwa [hrun] at hext

theorem Reaches.extends {r : Reader} {m' : Machine} (h : Reaches settings text m r m') :
    m.heap.Extends m'.heap := by
  induction h with
  | start hw =>
    rw [Eval.emit_heap hw]
    exact .refl _
  | next _ hread hrun _ ih => exact ih.trans (extends_of_runTree hread hrun)

/-- A tree that was run has given a value, and its heap is left. -/
theorem ends_of_runTree {tree : Value} {m₁ m₂ m₃ : Machine} (hw : Eval.emit tree.text m₁ = .ok () m₂)
    (hrun : runTree settings tree m₁ = .ok () m₃) :
    ∃ v m', Evaluates settings tree Heap.globalScope m₂ (.ok v m') ∧ m₃.heap = m'.heap := by
  rw [runTree, Run.bind_of_ok hw] at hrun
  obtain ⟨v, m', hv, hrun⟩ := Run.bind_eq_ok hrun
  exact ⟨v, m', .of_ok hv, Eval.emit_heap hrun⟩

theorem Proceeds.extends {r r' : Reader} {m₁ m₂ : Machine} (h : Proceeds settings r m₁ r' m₂) :
    m₁.heap.Extends m₂.heap := by
  induction h with
  | refl => exact .refl _
  | tree hread hrun _ _ ih => exact (extends_of_runTree hread hrun).trans ih

theorem Begins.extends {t : Task} (h : Begins settings text m t) : m.heap.Extends t.machine.heap := by
  cases h with
  | tree hreach _ hw =>
    rw [Eval.emit_heap hw]
    exact hreach.extends

/-- The first evaluation has ended, and the second one begins in a heap that extends the one left
    there. -/
theorem Next.ends {t t' : Task} (h : Next settings text m t t') :
    ∃ v m', t.Ends settings (.ok v m') ∧ m'.heap.Extends t'.machine.heap := by
  cases h with
  | tree hreach hread hw hrun hmore hproceeds hread' hw' =>
    obtain ⟨v, m', hv, hheap⟩ := ends_of_runTree hw hrun
    refine ⟨v, m', hv, ?_⟩
    rw [Eval.emit_heap hw', ← hheap]
    exact hproceeds.extends

/-- If the run of a line ends, so did what it has begun, and its heap extends the one left there. -/
theorem Begins.ends {t : Task} (h : Begins settings text m t) (hfin : Outcome.Finished (run settings text m)) :
    ∃ r, t.Ends settings r ∧ r.machine.heap.Extends (Outcome.machine (run settings text m)).heap := by
  cases h with
  | @tree r tree m₁ m₂ hreach hread hw =>
    have hrun : runTree settings tree m₁ =
        (evaluate settings tree Heap.globalScope >>= fun v => Eval.emit v.text) m₂ := Run.bind_of_ok hw _
    have hrest : runTrees settings r m₁ = (Run.mapError .evaluation (runTree settings tree) >>= fun _ =>
        if r.read.2.isExhausted then pure () else runTrees settings r.read.2) m₁ := by
      rw [runTrees_eq, hread]
    rw [hreach.run_eq, hrest] at hfin ⊢
    cases he : evaluate settings tree Heap.globalScope m₂ with
    | ok v m' =>
      refine ⟨_, .of_ok he, ?_⟩
      have hkeeps := keeps_extending settings m'.heap
      refine kept_bind (P := fun m => m'.heap.Extends m.heap) ?_ fun _ m₃ hm₃ => ?_
      · rw [Run.machine_mapError, hrun, Run.bind_of_ok he]
        exact hkeeps.emit _ (.refl m'.heap)
      · split
        · exact hm₃
        · exact hkeeps.runTrees _ hm₃
    | error e m' =>
      rw [Run.bind_of_error he] at hrun
      cases e with
      | failed e =>
        refine ⟨_, ⟨⟨_, he⟩, trivial⟩, ?_⟩
        rw [Run.bind_of_error (Run.mapError_of_failed LineError.evaluation hrun)]
        exact .refl _
      | unfinished =>
        rw [Run.bind_apply, Run.mapError, hrun] at hfin
        exact hfin.elim

theorem Proceeds.snoc {r r' : Reader} {tree : Value} {m₁ m₂ m₃ : Machine} (h : Proceeds settings r m₁ r' m₂)
    (hread : r'.read.1 = .ok tree) (hrun : runTree settings tree m₂ = .ok () m₃)
    (hmore : r'.read.2.isExhausted = false) : Proceeds settings r m₁ r'.read.2 m₃ := by
  induction h with
  | refl => exact .tree hread hrun hmore (.refl _ _)
  | tree hread' hrun' hmore' _ ih => exact .tree hread' hrun' hmore' (ih hread hrun hmore)

theorem Reaches.proceeds {r : Reader} {m₀ m' : Machine} (h : Reaches settings text m r m')
    (hw : Eval.emit (Token.render (Token.scan text)) (scanned text m) = .ok () m₀) :
    Proceeds settings (.ofTokens (Token.scan text)) m₀ r m' := by
  induction h with
  | start hw' =>
    cases hw.symm.trans hw'
    exact .refl _ _
  | next _ hread hrun hmore ih => exact ih.snoc hread hrun hmore

theorem Reaches.ordered {r r' : Reader} {m₁ m₂ : Machine} (h : Reaches settings text m r m₁)
    (h' : Reaches settings text m r' m₂) : Proceeds settings r m₁ r' m₂ ∨ Proceeds settings r' m₂ r m₁ := by
  induction h with
  | start hw => exact .inl (h'.proceeds hw)
  | next _ hread hrun hmore ih =>
    rcases ih with hproceeds | hproceeds
    · cases hproceeds with
      | refl => exact .inr (.tree hread hrun hmore (.refl _ _))
      | tree hread' hrun' hmore' hproceeds =>
        cases hread.symm.trans hread'
        cases hrun.symm.trans hrun'
        exact .inl hproceeds
    · exact .inr (hproceeds.snoc hread hrun hmore)

/-- Of two evaluations that the run of a line begins, they are the same or one comes after the other. -/
theorem Begins.ordered {t t' : Task} (h : Begins settings text m t) (h' : Begins settings text m t') :
    t = t' ∨ Next settings text m t t' ∨ Next settings text m t' t := by
  have first {r r' : Reader} {tree tree' : Value} {m₁ m₂ m₃ m₄ : Machine} (hreach : Reaches settings text m r m₁)
      (hread : r.read.1 = .ok tree) (hw : Eval.emit tree.text m₁ = .ok () m₂) (hread' : r'.read.1 = .ok tree')
      (hw' : Eval.emit tree'.text m₃ = .ok () m₄) (hproceeds : Proceeds settings r m₁ r' m₃) :
      (⟨tree, Heap.globalScope, m₂⟩ : Task) = ⟨tree', Heap.globalScope, m₄⟩ ∨
        Next settings text m ⟨tree, Heap.globalScope, m₂⟩ ⟨tree', Heap.globalScope, m₄⟩ := by
    cases hproceeds with
    | refl =>
      cases hread.symm.trans hread'
      cases hw.symm.trans hw'
      exact .inl rfl
    | tree hread₁ hrun hmore hproceeds =>
      cases hread.symm.trans hread₁
      exact .inr (.tree hreach hread hw hrun hmore hproceeds hread' hw')
  cases h with
  | tree hreach hread hw =>
    cases h' with
    | tree hreach' hread' hw' =>
      rcases hreach.ordered hreach' with hproceeds | hproceeds
      · exact (first hreach hread hw hread' hw' hproceeds).imp_right .inl
      · exact (first hreach' hread' hw' hread hw hproceeds).imp Eq.symm .inr

end Line

/-! ## Operations -/

namespace Operation

variable {m m' : Machine} {op : Operation}

/-- In the operation the first evaluation ends before the second one begins: there is one inside
    which they lie in two parts of it that come one after the other, or in two trees of a line. -/
inductive Precedes (settings : Settings) (m : Machine) : Operation → Task → Task → Prop
  | parts {op : Operation} {cs cs₁ cs₂ : List Call} {t c₁ c₂ t₁ t₂ : Task} : Runs settings m op cs t →
      Next settings t c₁ c₂ → Inside settings c₁ cs₁ t₁ → Inside settings c₂ cs₂ t₂ → Precedes settings m op t₁ t₂
  | trees {text : String} {cs₁ cs₂ : List Call} {c₁ c₂ t₁ t₂ : Task} : Line.Next settings text m c₁ c₂ →
      Inside settings c₁ cs₁ t₁ → Inside settings c₂ cs₂ t₂ → Precedes settings m (.line text) t₁ t₂

theorem Runs.begins {cs : List Call} {t t' : Task} (h : Runs settings m op cs t) (h' : LineLisp.Begins settings t t') :
    ∃ cs', Runs settings m op cs' t' := by
  obtain ⟨cs', hin⟩ := h'.inside
  exact ⟨_, h.inside hin⟩

theorem Precedes.runs {t₁ t₂ : Task} (h : Precedes settings m op t₁ t₂) :
    (∃ cs, Runs settings m op cs t₁) ∧ ∃ cs, Runs settings m op cs t₂ := by
  cases h with
  | parts hruns hnext hin₁ hin₂ =>
    obtain ⟨_, h₁⟩ := hruns.begins hnext.begins.1
    obtain ⟨_, h₂⟩ := hruns.begins hnext.begins.2
    exact ⟨⟨_, h₁.inside hin₁⟩, _, h₂.inside hin₂⟩
  | trees hnext hin₁ hin₂ => exact ⟨⟨_, .line hnext.begins.1 hin₁⟩, _, .line hnext.begins.2 hin₂⟩

theorem Precedes.of_inside {cs : List Call} {t t₁ t₂ : Task} (hruns : Runs settings m op cs t)
    (h : PrecedesInside settings t t₁ t₂) : Precedes settings m op t₁ t₂ := by
  obtain ⟨p, c₁, c₂, hp, hnext, hin₁, hin₂⟩ := h
  obtain ⟨_, hp⟩ := inside_iff.mpr hp
  obtain ⟨_, hin₁⟩ := inside_iff.mpr hin₁
  obtain ⟨_, hin₂⟩ := inside_iff.mpr hin₂
  exact .parts (hruns.inside hp) hnext hin₁ hin₂

/-- Of two evaluations in an operation, either is inside the other or precedes it. -/
theorem Runs.ordered {cs₁ cs₂ : List Call} {t₁ t₂ : Task} (h₁ : Runs settings m op cs₁ t₁)
    (h₂ : Runs settings m op cs₂ t₂) :
    (∃ cs, Inside settings t₁ cs t₂) ∨ (∃ cs, Inside settings t₂ cs t₁) ∨ Precedes settings m op t₁ t₂ ∨
      Precedes settings m op t₂ t₁ := by
  have below {cs cs₁ cs₂ : List Call} {t : Task} (ht : Runs settings m op cs t) (h₁ : Inside settings t cs₁ t₁)
      (h₂ : Inside settings t cs₂ t₂) :
      (∃ cs, Inside settings t₁ cs t₂) ∨ (∃ cs, Inside settings t₂ cs t₁) ∨ Precedes settings m op t₁ t₂ ∨
        Precedes settings m op t₂ t₁ := by
    rcases inside_ordered (inside_iff.mp ⟨_, h₁⟩) (inside_iff.mp ⟨_, h₂⟩) with h | h | h | h
    · exact .inl (inside_iff.mpr h)
    · exact .inr (.inl (inside_iff.mpr h))
    · exact .inr (.inr (.inl (.of_inside ht h)))
    · exact .inr (.inr (.inr (.of_inside ht h)))
  cases h₁ with
  | evaluate hin₁ =>
    cases h₂ with
    | evaluate hin₂ => exact below (.evaluate .start) hin₁ hin₂
  | apply hlen henter hin₁ =>
    cases h₂ with
    | apply _ _ hin₂ => exact below (.apply hlen henter .start) hin₁ hin₂
  | line hbegins₁ hin₁ =>
    cases h₂ with
    | line hbegins₂ hin₂ =>
      rcases hbegins₁.ordered hbegins₂ with rfl | hnext | hnext
      · exact below (.line hbegins₁ .start) hin₁ hin₂
      · exact .inr (.inr (.inl (.trees hnext hin₁ hin₂)))
      · exact .inr (.inr (.inr (.trees hnext hin₂ hin₁)))

theorem Runs.extends {cs : List Call} {t : Task} (h : Runs settings m op cs t) :
    m.heap.Extends t.machine.heap := by
  cases h with
  | evaluate hin => exact hin.extends
  | apply _ _ hin => exact Heap.ConfinedTo.trans (.push _ _) hin.extends
  | line hbegins hin => exact hbegins.extends.trans hin.extends

theorem extends_of_inside {c₁ c₂ t₁ t₂ : Task} {cs₁ cs₂ : List Call}
    (hnext : ∃ v m, c₁.Ends settings (.ok v m) ∧ m.heap.Extends c₂.machine.heap) (hin₁ : Inside settings c₁ cs₁ t₁)
    (hin₂ : Inside settings c₂ cs₂ t₂) : ∃ r, t₁.Ends settings r ∧ r.machine.heap.Extends t₂.machine.heap := by
  obtain ⟨v, m, hc, hext⟩ := hnext
  obtain ⟨r, hr, hext'⟩ := hin₁.ends hc
  exact ⟨r, hr, hext'.trans (hext.trans hin₂.extends)⟩

/-- The later evaluation begins in a heap that extends the one that the earlier one has left. -/
theorem Precedes.extends {t₁ t₂ : Task} (h : Precedes settings m op t₁ t₂) :
    ∃ r, t₁.Ends settings r ∧ r.machine.heap.Extends t₂.machine.heap := by
  cases h with
  | parts _ hnext hin₁ hin₂ => exact extends_of_inside hnext.ends hin₁ hin₂
  | trees hnext hin₁ hin₂ => exact extends_of_inside hnext.ends hin₁ hin₂

/-- The heap that an operation leaves extends those that the evaluations in it have left. -/
theorem Ends.extends {cs : List Call} {t : Task} (h : Ends settings m op m') (hruns : Runs settings m op cs t) :
    ∃ r, t.Ends settings r ∧ r.machine.heap.Extends m'.heap := by
  cases hruns with
  | evaluate hin =>
    cases h with
    | evaluate he => exact hin.ends he
  | @apply params body outer name args cs t hlen henter hin =>
    cases h with
    | apply ha =>
      obtain ⟨⟨n, rfl⟩, hfin⟩ := ha
      have hcall (body' : Value → Meaning) :
          Procedure.applyWith settings body' (.closure params body outer) name args m = Outcome.onMachine .left
            (body' body m.heap.frames.size (Procedure.entered m name params args outer)) := by
        rw [Procedure.applyWith_closure, if_pos hlen, Procedure.call_of_mayEnter henter]
      cases n with
      | zero =>
        simp only [Procedure.applyWithin, hcall] at hfin
        exact ((Outcome.finished_onMachine _ _).mp hfin).elim
      | succ n =>
        simp only [Procedure.applyWithin, hcall] at hfin ⊢
        obtain ⟨r, hr, hext⟩ := hin.ends ⟨⟨n, rfl⟩, (Outcome.finished_onMachine _ _).mp hfin⟩
        refine ⟨r, hr, ?_⟩
        rw [Outcome.machine_onMachine]
        exact hext
  | line hbegins hin =>
    cases h with
    | line hr hfin =>
      subst hr
      obtain ⟨r, hr, hext⟩ := hbegins.ends hfin
      obtain ⟨r', hr', hext'⟩ := hin.ends hr
      exact ⟨r', hr', hext'.trans hext⟩

end Operation

/-! ## From one operation to the next -/

namespace Machine

/-- One thing is done with an interpreter in which no call is active: an operation, whatever its settings,
    that ends, or what a host may do with the machine. -/
inductive Passes : Machine → Machine → Prop
  | operation {settings : Settings} {op : Operation} {m m' : Machine} : op.Valid m →
      Operation.Ends settings m op m' → Passes m m'
  | define {m : Machine} (scope : ScopeId) (name : String) {v : Value} : v.Within m.heap.frames.size →
      Passes m { m with heap := m.heap.define scope name v }
  | newScope {m : Machine} {outer : Option ScopeId} {bindings : List (String × Value)} :
      (∀ o, outer = some o → o < m.heap.frames.size) → (∀ b ∈ bindings, b.2.Within m.heap.frames.size) →
        Passes m { m with heap := (m.heap.push (.ofBindings outer bindings)).2 }
  | note (m : Machine) (event : LogEvent) : Passes m { m with log := m.log.push event }
  | drained (m : Machine) : Passes m m.drained

variable {m m' : Machine}

theorem Passes.reachable (h : Passes m m') (hm : m.Reachable) : m'.Reachable := by
  cases h with
  | operation hop hends => exact hends.reachable hm hop
  | define scope name hv => exact .define scope name hm hv
  | newScope ho hbs => exact .newScope hm ho hbs
  | note _ event => exact .note event hm
  | drained => exact .drained hm

theorem Passes.extends (h : Passes m m') : m.heap.Extends m'.heap := by
  cases h with
  | operation _ hends =>
    cases hends with
    | evaluate he => exact he.extends
    | apply ha =>
      obtain ⟨⟨n, rfl⟩, -⟩ := ha
      exact (extension _).apply n _ _ _ Heap.globalScope m
    | line hr _ =>
      subst hr
      exact (Line.keeps_extending _ m.heap).run _ (.refl m.heap)
  | define scope name _ => exact (Heap.ConfinedTo.define m.heap scope name _).mono fun _ _ _ => trivial
  | newScope => exact .push _ _
  | note => exact .refl _
  | drained => exact .refl _

theorem extends_of_passes (h : Relation.ReflTransGen Passes m m') : m.heap.Extends m'.heap := by
  induction h with
  | refl => exact .refl _
  | tail _ hstep ih => exact ih.trans hstep.extends

theorem reachable_of_passes (h : Relation.ReflTransGen Passes m m') (hm : m.Reachable) : m'.Reachable := by
  induction h with
  | refl => exact hm
  | tail _ hstep ih => exact hstep.reachable ih

end Machine

namespace Operation

variable {m : Machine} {op : Operation} {t₁ t₂ : Task}

/-- The second evaluation begins after the first one, of this operation, has ended: in the operation, or
    after that has ended too in another one, whatever its settings. -/
inductive Later (settings : Settings) (m : Machine) (op : Operation) (t₁ : Task) : Settings → Task → Prop
  | same {t₂ : Task} : Precedes settings m op t₁ t₂ → Later settings m op t₁ settings t₂
  | after {settings' : Settings} {op' : Operation} {cs cs' : List Call} {m' m'' : Machine} {t₂ : Task} :
      Runs settings m op cs t₁ → Ends settings m op m' → Relation.ReflTransGen Machine.Passes m' m'' →
        op'.Valid m'' → Runs settings' m'' op' cs' t₂ → Later settings m op t₁ settings' t₂

theorem Later.valid {settings' : Settings} (hm : m.Reachable) (hop : op.Valid m)
    (h : Later settings m op t₁ settings' t₂) : t₁.Valid ∧ t₂.Valid := by
  cases h with
  | same h =>
    obtain ⟨⟨_, h₁⟩, _, h₂⟩ := h.runs
    exact ⟨h₁.valid hm.wellFormed hop, h₂.valid hm.wellFormed hop⟩
  | after h₁ hends hpasses hop' h₂ =>
    have hm' := Machine.reachable_of_passes hpasses (hends.reachable hm hop)
    exact ⟨h₁.valid hm.wellFormed hop, h₂.valid hm'.wellFormed hop'⟩

/-- What was bound where the earlier evaluation ended is bound there where the later one begins. -/
theorem Later.extends {settings' : Settings} (h : Later settings m op t₁ settings' t₂) :
    ∃ r, t₁.Ends settings r ∧ r.machine.heap.Extends t₂.machine.heap := by
  cases h with
  | same h => exact h.extends
  | after h₁ hends hpasses _ h₂ =>
    obtain ⟨r, hr, hext⟩ := hends.extends h₁
    exact ⟨r, hr, hext.trans ((Machine.extends_of_passes hpasses).trans h₂.extends)⟩

end Operation

end LineLisp
