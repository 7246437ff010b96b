/-
  LineLisp.Proofs.SinkCut — runs whose sink fails. `Attempts` says in which machines a run
  attempts to write which lines: the warning of `set!`, the values of the rounds of `repeat`,
  and what is written in the evaluations that it begins.
  - `failing_sink_cuts`: a run whose sink takes `k` lines more is the one whose sink never fails,
    or it is cut where that one attempts to write the line after these.
-/

import LineLisp.Proofs.Propagation
import LineLisp.Proofs.Truncation

namespace LineLisp

variable {settings : Settings}

/-! ## Attempts to write -/

/-- The evaluation attempts to write the line, in this machine. -/
inductive Attempts (settings : Settings) : Task → String → Machine → Prop
  | warning {operands : List Value} {scope : ScopeId} {m : Machine} {name : String} {e : Value} :
      operands[0]? = some (.symbol name) → operands[1]? = some e → m.heap.contains scope name = false →
        Attempts settings ⟨.form .assign operands, scope, m⟩ ("WARNING: setting undefined variable '" ++ name ++ "'")
          { m with log := m.log.push (.undefinedVariable name) }
  | output {operands : List Value} {scope : ScopeId} {m m₁ m₂ m' : Machine} {c v w body : Value} {n i : Nat} :
      operands[0]? = some c → Evaluates settings c scope m (.ok v m₁) → Form.count v m₁ = .ok n m₁ →
        operands[1]? = some body → i < n → Rounds settings body scope i m₁ m₂ →
          Evaluates settings body scope m₂ (.ok w m') →
            Attempts settings ⟨.form .iterate operands, scope, m⟩ w.text m'
  | inner {t t' : Task} {line : String} {m' : Machine} :
      Begins settings t t' → Attempts settings t' line m' → Attempts settings t line m'

theorem EvaluatesAll.of_arguments {k : Nat} {scope : ScopeId} {trees vs : List Value} {m m' : Machine}
    (h : Form.arguments scope (trees.map (.within settings k)) m = .ok vs m') :
    EvaluatesAll settings scope trees m vs m' := by
  induction trees generalizing m vs with
  | nil => cases h; exact .nil _
  | cons tree trees ih =>
    obtain ⟨v, m₁, hv, h⟩ := Run.bind_eq_ok h
    obtain ⟨us, m₂, hus, h⟩ := Run.bind_eq_ok h
    cases h
    exact .cons (.of_ok hv) (ih hus)

/-! ## Steps that do not read the machine -/

/-- The computation is a value or an error, whatever the machine. -/
def Run.Constant {ε α : Type} (x : Run ε α) : Prop := (∃ a, x = pure a) ∨ ∃ e, x = fail e

theorem Form.symbol_constant (form : Keyword) (tree : Value) : Run.Constant (symbol form tree) := by
  unfold symbol
  split
  · exact .inl ⟨_, rfl⟩
  · exact .inr ⟨_, rfl⟩

theorem Form.symbol_eq_pure {form : Keyword} {tree : Value} {name : String} (h : symbol form tree = pure name) :
    tree = .symbol name := by
  have h := congrFun h (.initial none)
  cases tree <;> cases h
  rfl

theorem Form.operand_constant (form : Keyword) (operands : List Operand) (i : Nat) :
    Run.Constant (operand form operands i) := by
  unfold operand
  split
  · exact .inl ⟨_, rfl⟩
  · exact .inr ⟨_, rfl⟩

theorem Form.count_constant (v : Value) : Run.Constant (count v) := by
  unfold count
  split
  · split
    · exact .inl ⟨_, rfl⟩
    · exact .inr ⟨_, rfl⟩
  · exact .inr ⟨_, rfl⟩

theorem Form.parameters_constant (trees : List Value) : Run.Constant (parameters trees) := by
  induction trees with
  | nil => exact .inl ⟨_, rfl⟩
  | cons tree trees ih =>
    unfold parameters
    rcases symbol_constant .lambda tree with ⟨name, h⟩ | ⟨e, h⟩
    · rcases ih with ⟨names, h'⟩ | ⟨e, h'⟩
      · exact .inl ⟨name :: names, by rw [h, h']; simp⟩
      · exact .inr ⟨e, by rw [h, h', pure_bind, Run.fail_bind]⟩
    · exact .inr ⟨e, by rw [h, Run.fail_bind]⟩

namespace Truncates

variable {A : String → Machine → Prop} {m : Machine} {α β : Type}

theorem constant_bind {ε : Type} {full : ε} {x : Run ε α} (hx : x.Constant) {f : α → Run ε β}
    (hf : ∀ a, x = Pure.pure a → Truncates full A m (f a)) : Truncates full A m (x >>= f) := by
  rcases hx with ⟨a, rfl⟩ | ⟨e, rfl⟩
  · rw [pure_bind]
    exact hf a rfl
  · rw [Run.fail_bind]
    exact fail e

theorem constant {ε : Type} {full : ε} {x : Run ε α} (hx : x.Constant) : Truncates full A m x := by
  rcases hx with ⟨a, rfl⟩ | ⟨e, rfl⟩
  · exact pure a
  · exact fail e

theorem operand {form : Keyword} {k : Nat} {trees : List Value} {i : Nat} {f : Operand → Eval Value}
    (hf : ∀ e, trees[i]? = some e → Truncates .sinkFull A m (f (.within settings k e))) :
    Truncates .sinkFull A m (Form.operand form (trees.map (.within settings k)) (i + 1) >>= f) := by
  cases h : trees[i]? with
  | some e =>
    rw [Form.operand_map h, pure_bind]
    exact hf e h
  | none =>
    refine constant_bind (Form.operand_constant _ _ _) fun o ho => ?_
    simp only [Form.operand, Nat.add_sub_cancel, List.getElem?_map, h, Option.map_none] at ho
    exact absurd (congrFun ho m) (by intro h; cases h)

theorem symbol {form : Keyword} {k : Nat} {trees : List Value} {f : String → Eval Value}
    (hf : ∀ name, trees[0]? = some (.symbol name) → Truncates .sinkFull A m (f name)) :
    Truncates .sinkFull A m (Form.operand form (trees.map (.within settings k)) 1 >>= fun o =>
      Form.symbol form o.tree >>= f) := by
  refine operand fun tree htree => constant_bind (Form.symbol_constant _ _) fun name hname => hf name ?_
  exact htree.trans (congrArg some (Form.symbol_eq_pure hname))

end Truncates

/-! ## Forms -/

/-- The evaluations of the tree within so many calls are truncated where they attempt to write. -/
def TreeTruncates (settings : Settings) (k : Nat) (tree : Value) : Prop :=
  ∀ (scope : ScopeId) (m : Machine), m.sink.room = none →
    Truncates .sinkFull (Attempts settings ⟨tree, scope, m⟩) m (evaluateWithin settings k tree scope)

theorem TreeTruncates.begun {k : Nat} {t : Task} {tree : Value} {scope : ScopeId} {m : Machine}
    (h : TreeTruncates settings k tree) (hb : Begins settings t ⟨tree, scope, m⟩) (hm : m.sink.room = none) :
    Truncates .sinkFull (Attempts settings t) m (evaluateWithin settings k tree scope) :=
  (h scope m hm).mono fun _ _ => .inner hb

section Forms

variable {k : Nat} {operands : List Value} (hsub : ∀ e ∈ operands, TreeTruncates settings k e)
variable {scope : ScopeId} {m : Machine} (hm : m.sink.room = none)

include hsub

theorem TreeTruncates.operand {i : Nat} {e : Value} (he : operands[i]? = some e) : TreeTruncates settings k e :=
  hsub e (List.mem_of_getElem? he)

include hm

theorem conditional_truncates :
    Truncates .sinkFull (Attempts settings ⟨.form .conditional operands, scope, m⟩) m
      (Form.conditional (operands.map (.within settings k)) scope) := by
  unfold Form.conditional
  refine .operand fun c hc => ?_
  refine .bind hm ((TreeTruncates.operand hsub hc).begun (.condition hc) hm) fun v m' hv hm' => ?_
  have hposition : (if v.isTrue then 2 else 3) = (if v.isTrue then 1 else 2) + 1 := by split <;> rfl
  rw [hposition]
  refine .operand fun b hb => ?_
  exact (TreeTruncates.operand hsub hb).begun (.branch hc (.of_ok hv) hb) hm'

theorem definition_truncates :
    Truncates .sinkFull (Attempts settings ⟨.form .define operands, scope, m⟩) m
      (Form.define (operands.map (.within settings k)) scope) := by
  unfold Form.define
  refine .symbol fun name hname => .operand fun e he => ?_
  refine .bind hm ((TreeTruncates.operand hsub he).begun (.definition hname he) hm) fun v m' _ _ => ?_
  exact .silent rfl rfl fun _ => rfl

omit hsub in
theorem warn_truncates {name : String} {e : Value} (hname : operands[0]? = some (.symbol name))
    (he : operands[1]? = some e) :
    Truncates .sinkFull (Attempts settings ⟨.form .assign operands, scope, m⟩) m (Form.warn scope name) := by
  unfold Form.warn
  refine .bind hm (.silent rfl rfl fun _ => rfl) fun bound m' hbound _ => ?_
  rw [Eval.isBound_apply] at hbound
  cases hbound
  cases hcontains : m.heap.contains scope name with
  | true => exact .pure ()
  | false =>
    refine .bind hm (.note _) fun _ m' hnote hm' => ?_
    cases hnote
    exact .emit hm' (.warning hname he hcontains)

theorem assignment_truncates :
    Truncates .sinkFull (Attempts settings ⟨.form .assign operands, scope, m⟩) m
      (Form.assign settings (operands.map (.within settings k)) scope) := by
  rw [Form.assign_eq]
  refine .symbol fun name hname => .operand fun e he => ?_
  refine .bind hm (warn_truncates hm hname he) fun _ m' hw hm' => ?_
  refine .bind hm' ((TreeTruncates.operand hsub he).begun (.assignment hname he hw) hm') fun v m' _ _ => ?_
  exact .silent rfl rfl fun _ => rfl

omit hm in
theorem rounds_truncates {c v body : Value} {times : Nat} {m₁ : Machine} (hc : operands[0]? = some c)
    (he : Evaluates settings c scope m (.ok v m₁)) (hcount : Form.count v m₁ = .ok times m₁)
    (hb : operands[1]? = some body) {i j : Nat} (hij : i + j = times) {m₂ : Machine}
    (hr : Rounds settings body scope i m₁ m₂) (hm₂ : m₂.sink.room = none) :
    Truncates .sinkFull (Attempts settings ⟨.form .iterate operands, scope, m⟩) m₂
      (Eval.iterate j (Form.round settings k body scope)) := by
  induction j generalizing i m₂ with
  | zero => exact .pure ()
  | succ j ih =>
    have hround := (TreeTruncates.operand hsub hb).begun (.round hc he hcount hb (by omega) hr) hm₂
    refine .bind hm₂ (.bind hm₂ hround fun w m₃ hw hm₃ => ?_) fun _ m₃ hround hm₃ => ?_
    · exact .emit hm₃ (.output hc he hcount hb (by omega) hr (.of_ok hw))
    · obtain ⟨w, m₄, hw, hwritten⟩ := Run.bind_eq_ok hround
      exact ih (by omega) (hr.snoc (.of_ok hw) hwritten) hm₃

theorem iteration_truncates :
    Truncates .sinkFull (Attempts settings ⟨.form .iterate operands, scope, m⟩) m
      (Form.iterate (operands.map (.within settings k)) scope) := by
  unfold Form.iterate
  refine .operand fun c hc => ?_
  refine .bind hm ((TreeTruncates.operand hsub hc).begun (.count hc) hm) fun v m₁ hv hm₁ => ?_
  refine .constant_bind (Form.count_constant v) fun times htimes => ?_
  refine .operand fun body hb => .bind hm₁ ?_ fun _ _ _ _ => .pure _
  have hcount : Form.count v m₁ = .ok times m₁ := by rw [htimes]; rfl
  exact rounds_truncates hsub hc (.of_ok hv) hcount hb (Nat.zero_add times) (.zero m₁) hm₁

omit hsub hm in
theorem lambda_truncates {A : String → Machine → Prop} :
    Truncates .sinkFull A m (Form.lambda (operands.map (.within settings k)) scope) := by
  unfold Form.lambda
  refine .operand fun tree _ => ?_
  rw [Operand.tree_within]
  split
  · refine .constant_bind (Form.parameters_constant _) fun names _ => .operand fun body _ => ?_
    exact .silent rfl rfl fun _ => rfl
  · exact .fail _

omit hsub hm in
theorem quote_truncates (scope : ScopeId) {A : String → Machine → Prop} :
    Truncates .sinkFull A m (Form.quote (operands.map (.within settings k)) scope) := by
  unfold Form.quote
  exact .operand fun tree _ => .pure _

theorem special_truncates (keyword : Keyword) :
    Truncates .sinkFull (Attempts settings ⟨.form keyword operands, scope, m⟩) m
      (Form.special settings keyword (operands.map (.within settings k)) scope) := by
  cases keyword with
  | conditional => exact conditional_truncates hsub hm
  | define => exact definition_truncates hsub hm
  | assign => exact assignment_truncates hsub hm
  | lambda => exact lambda_truncates
  | quote => exact quote_truncates scope
  | iterate => exact iteration_truncates hsub hm

omit hm in
/-- The operands from one on, those before it having been evaluated. -/
theorem arguments_truncates {name : String} (hname : Keyword.ofName? name = none) {before after vs : List Value}
    (hsplit : operands = before ++ after) {m' : Machine} (hall : EvaluatesAll settings scope before m vs m')
    (hm' : m'.sink.room = none) :
    Truncates .sinkFull (Attempts settings ⟨.list (.symbol name :: operands), scope, m⟩) m'
      (Form.arguments scope (after.map (.within settings k))) := by
  induction after generalizing before vs m' with
  | nil => exact .pure []
  | cons e after ih =>
    have he : TreeTruncates settings k e := hsub e (by simp [hsplit])
    have hbegun : Begins settings ⟨.list (.symbol name :: operands), scope, m⟩ ⟨e, scope, m'⟩ :=
      hsplit ▸ .operand hname hall
    refine .bind hm' (he.begun hbegun hm') fun v m₁ hv hm₁ => ?_
    exact .bind hm₁ (ih (by simp [hsplit]) (hall.snoc (.of_ok hv)) hm₁) fun _ _ _ _ => .pure _

end Forms

/-! ## Trees -/

theorem Primitive.apply_constant (k : Nat) (p : Primitive) (name : String) (args : List Value) :
    Run.Constant (Procedure.applyWithin settings k (.primitive p) name args) := by
  have hwith (body : Value → Meaning) :
      Run.Constant (Procedure.applyWith settings body (.primitive p) name args) := by
    simp only [Procedure.applyWith]
    split
    · exact .inl ⟨_, rfl⟩
    · exact .inr ⟨_, rfl⟩
    · exact .inr ⟨_, rfl⟩
  cases k with
  | zero => exact hwith fun _ _ => .unfinished
  | succ k => exact hwith (evaluateWithin settings k)

/-- A call is truncated where its body is. -/
theorem call_truncates {A : String → Machine → Prop} {m : Machine} {name : String} {params : List String}
    {args : List Value} {outer : ScopeId} {body : Meaning}
    (hbody : Procedure.MayEnter settings m →
      Truncates .sinkFull A (Procedure.entered m name params args outer) (body m.heap.frames.size)) :
    Truncates .sinkFull A m (Procedure.call settings name params args outer body) := by
  by_cases henter : Procedure.MayEnter settings m
  · obtain ⟨ls, hsink, hdepth, hk⟩ := hbody henter
    have hfree := Procedure.call_of_mayEnter henter name params args outer body
    have hroom (room : Option Nat) : Procedure.call settings name params args outer body (m.withRoom room) =
        Outcome.onMachine .left (body m.heap.frames.size
          ((Procedure.entered m name params args outer).withRoom room)) :=
      Procedure.call_of_mayEnter (m := m.withRoom room) henter name params args outer body
    refine ⟨ls, ?_, ?_, fun k => ⟨fun hle => ?_, fun line hline => ?_⟩⟩
    · rw [hfree, Outcome.machine_onMachine]
      exact hsink
    · rw [hfree, Outcome.machine_onMachine]
      exact congrArg Nat.pred hdepth
    · rw [hroom, (hk k).1 hle, hfree]
      cases body m.heap.frames.size (Procedure.entered m name params args outer) <;> rfl
    · obtain ⟨m₁, hA, hm₁, hcut⟩ := (hk k).2 line hline
      refine ⟨m₁, hA, hm₁, ?_⟩
      rw [hroom, hcut]
      rfl
  · have hrefused (room : Option Nat) : Procedure.call settings name params args outer body (m.withRoom room) =
        Procedure.tooDeep settings (m.withRoom room) :=
      Procedure.call_of_not_mayEnter (m := m.withRoom room) henter name params args outer body
    refine .silent ?_ ?_ fun room => ?_
    · rw [Procedure.call_of_not_mayEnter henter]
      rfl
    · rw [Procedure.call_of_not_mayEnter henter]
      rfl
    · rw [hrefused, Procedure.call_of_not_mayEnter henter]
      rfl

section Trees

variable {k : Nat}

/-- Calls of closures within so many calls are truncated where the evaluations of their bodies
    attempt to write. -/
def CallsTruncate (settings : Settings) (k : Nat) : Prop :=
  ∀ (A : String → Machine → Prop) (m : Machine) (name : String) (params : List String) (tree : Value)
    (outer : ScopeId) (args : List Value), m.sink.room = none →
      (args.length = params.length → Procedure.MayEnter settings m → ∀ line m₁,
        Attempts settings ⟨tree, m.heap.frames.size, Procedure.entered m name params args outer⟩ line m₁ → A line m₁) →
          Truncates .sinkFull A m (Procedure.applyWithin settings k (.closure params tree outer) name args)

theorem application_truncates (hcalls : CallsTruncate settings k) {name : String}
    (hname : Keyword.ofName? name = none) {operands : List Value}
    (hsub : ∀ e ∈ operands, TreeTruncates settings k e) {scope : ScopeId} {m : Machine} (hm : m.sink.room = none) :
    Truncates .sinkFull (Attempts settings ⟨.list (.symbol name :: operands), scope, m⟩) m
      (Form.application (Procedure.applyWithin settings k) name (operands.map (.within settings k)) scope) := by
  unfold Form.application
  refine .bind hm (.silent rfl rfl fun _ => rfl) fun callee m' hcallee _ => ?_
  rw [Eval.lookup_apply] at hcallee
  cases hcallee
  refine .bind hm (arguments_truncates hsub hname rfl (.nil m) hm) fun args m₁ hargs hm₁ => ?_
  have hall : EvaluatesAll settings scope operands m args m₁ := .of_arguments hargs
  cases hf : m.heap.get? scope name with
  | none => exact .silent rfl rfl fun _ => rfl
  | some f =>
    cases f with
    | closure id params tree outer =>
      refine hcalls _ m₁ name params tree outer args hm₁ fun hlen henter line m₂ h => ?_
      exact .inner (.call hname hf hall hlen henter) h
    | primitive p => exact .constant (Primitive.apply_constant k p name args)
    | _ => exact .silent rfl rfl fun _ => rfl

theorem tree_truncates (hcalls : CallsTruncate settings k) (tree : Value) : TreeTruncates settings k tree := by
  induction tree using Value.induction with
  | list elements ih =>
    intro scope m hm
    cases elements with
    | nil =>
      rw [evaluateWithin_list]
      exact .fail _
    | cons head operands =>
      have hsub : ∀ e ∈ operands, TreeTruncates settings k e := fun e he => ih e (List.mem_cons_of_mem _ he)
      cases head with
      | symbol name =>
        cases hname : Keyword.ofName? name with
        | some keyword =>
          obtain rfl := Keyword.ofName?_eq_some_iff.mp hname
          rw [show Value.list (.symbol keyword.name :: operands) = .form keyword operands from rfl,
            evaluateWithin_form]
          exact special_truncates hsub hm keyword
        | none =>
          rw [evaluateWithin_application k hname]
          exact application_truncates hcalls hname hsub hm
      | _ =>
        rw [evaluateWithin_list]
        exact .silent rfl rfl fun _ => rfl
  | _ =>
    intro scope m hm
    rw [evaluateWithin_eq]
    exact .silent rfl rfl fun _ => rfl

theorem calls_truncate (k : Nat) : CallsTruncate settings k := by
  have bodies {k : Nat} {body : Value → Meaning}
      (happly : Procedure.applyWithin settings k = Procedure.applyWith settings body)
      (hbody : ∀ tree scope m, m.sink.room = none →
        Truncates .sinkFull (Attempts settings ⟨tree, scope, m⟩) m (body tree scope)) :
      CallsTruncate settings k := by
    intro A m name params tree outer args hm hA
    rw [happly, Procedure.applyWith_closure]
    by_cases hlen : args.length = params.length
    · rw [if_pos hlen]
      refine call_truncates fun henter => ?_
      exact (hbody tree m.heap.frames.size (Procedure.entered m name params args outer) hm).mono (hA hlen henter)
    · rw [if_neg hlen]
      exact .fail _
  induction k with
  | zero => exact bodies rfl fun _ _ _ _ => .unfinished
  | succ k ih => exact bodies rfl fun tree scope m hm => tree_truncates ih tree scope m hm

end Trees

/-- An evaluation whose sink never fails, beside those whose sink takes so many lines more. -/
theorem evaluateWithin_truncates (k : Nat) (tree : Value) (scope : ScopeId) {m : Machine} (hm : m.sink.room = none) :
    Truncates .sinkFull (Attempts settings ⟨tree, scope, m⟩) m (evaluateWithin settings k tree scope) :=
  tree_truncates (calls_truncate k) tree scope m hm

/-! ## Lines -/

namespace Line

variable {line : String} {m : Machine}

/-- The run of the line attempts to write the text, in this machine. -/
inductive Attempts (settings : Settings) (line : String) (m : Machine) : String → Machine → Prop
  | tokens : Attempts settings line m (Token.render (Token.scan line)) (scanned line m)
  | tree {r : Reader} {tree : Value} {m₁ : Machine} : Reaches settings line m r m₁ → r.read.1 = .ok tree →
      Attempts settings line m tree.text m₁
  | inner {t : Task} {text : String} {m₁ : Machine} : Begins settings line m t →
      LineLisp.Attempts settings t text m₁ → Attempts settings line m text m₁
  | value {t : Task} {v : Value} {m₁ : Machine} : Begins settings line m t →
      evaluate settings t.tree t.scope t.machine = .ok v m₁ → Attempts settings line m v.text m₁

theorem runTree_truncates {r : Reader} {tree : Value} {m₁ : Machine} (hreach : Reaches settings line m r m₁)
    (hread : r.read.1 = .ok tree) (hm₁ : m₁.sink.room = none) :
    Truncates .sinkFull (Attempts settings line m) m₁ (runTree settings tree) := by
  unfold runTree
  refine .bind hm₁ (.emit hm₁ (.tree hreach hread)) fun _ m₂ hw hm₂ => ?_
  have hbegins : Begins settings line m ⟨tree, Heap.globalScope, m₂⟩ := .tree hreach hread hw
  refine .bind hm₂ ((evaluateWithin_truncates _ tree _ hm₂).mono fun _ _ => .inner hbegins) fun v m₃ hv hm₃ => ?_
  exact .emit hm₃ (.value hbegins hv)

theorem runTrees_truncates (r : Reader) {m₁ : Machine} (hreach : Reaches settings line m r m₁)
    (hm₁ : m₁.sink.room = none) :
    Truncates (.evaluation .sinkFull) (Attempts settings line m) m₁ (runTrees settings r) := by
  induction r using runTrees.induct generalizing m₁ with
  | case1 r e hr =>
    rw [runTrees_eq, hr]
    exact .fail _
  | case2 r tree hr ih =>
    rw [runTrees_eq, hr]
    refine .bind hm₁ ((runTree_truncates hreach hr hm₁).mapError LineError.evaluation) fun _ m₂ hrun hm₂ => ?_
    cases hx : r.read.2.isExhausted with
    | true => exact .pure ()
    | false => exact ih (.next hreach hr (Run.ok_of_mapError hrun) hx) hm₂

theorem run_truncates (line : String) (hm : m.sink.room = none) :
    Truncates (.evaluation .sinkFull) (Attempts settings line m) m (run settings line) := by
  unfold run
  refine .bind hm (.note _) fun _ m₁ hnote hm₁ => ?_
  cases hnote
  refine .bind hm₁ (.mapError LineError.evaluation (.emit hm₁ ?_)) fun _ m₂ hw hm₂ => ?_
  · exact .tokens
  · exact runTrees_truncates _ (.start (Run.ok_of_mapError hw)) hm₂

end Line

/-! ## Cut runs -/

/-- For every machine, run with a sink that never fails and with one that takes `k` lines more: if
    the first run ends, having written some lines, then with room for all of them the second one
    ends in the same way. Otherwise it fails for the sink, with the first `k` lines written, in
    the machine in which the first run attempts to write the next one, but at the depth of the
    beginning. -/
def CutBySink {ε α : Type} (full : ε) (attempts : Machine → String → Machine → Prop)
    (ends : Machine → Outcome ε α → Prop) : Prop :=
  ∀ (m : Machine) (r : Outcome ε α), ends (m.withRoom none) r → ∃ lines : List String,
    r.machine.sink = (m.withRoom none).sink.plus lines ∧
    ∀ k, (lines.length ≤ k → ends (m.withRoom (some k)) (r.withRoom (some (k - lines.length)))) ∧
      ∀ line, lines[k]? = some line → ∃ m₁, attempts (m.withRoom none) line m₁ ∧
        m₁.sink = (m.withRoom none).sink.plus (lines.take k) ∧
        ends (m.withRoom (some k)) (.error (.failed full) { m₁.withRoom (some 0) with depth := m.depth })

theorem CutBySink.of_truncates {ε α : Type} {full : ε} {attempts : Machine → String → Machine → Prop}
    {within : Nat → Run ε α} (h : ∀ n m, m.sink.room = none → Truncates full (attempts m) m (within n)) :
    CutBySink full attempts (Ends within) := by
  rintro m r ⟨⟨n, rfl⟩, hfin⟩
  obtain ⟨lines, hsink, -, hk⟩ := h n (m.withRoom none) rfl
  refine ⟨lines, hsink, fun k => ⟨fun hle => ?_, fun line hline => ?_⟩⟩
  · exact ⟨⟨n, (hk k).1 hle⟩, (Outcome.finished_onMachine _ _).mpr hfin⟩
  · obtain ⟨m₁, hA, hm₁, hcut⟩ := (hk k).2 line hline
    exact ⟨m₁, hA, hm₁, ⟨n, hcut⟩, trivial⟩

/-- A sink that fails cuts an evaluation, and the run of a line, to what was done before the
    first write that fails; and where the warning of `set!` is that write, nothing is evaluated
    and nothing bound. -/
theorem failing_sink_cuts (settings : Settings) :
    (∀ tree scope, CutBySink .sinkFull (fun m => Attempts settings ⟨tree, scope, m⟩)
      (Evaluates settings tree scope)) ∧
    (∀ line, CutBySink (.evaluation .sinkFull) (Line.Attempts settings line)
      (Ends fun _ => Line.run settings line)) ∧
    ∀ operands scope m name e, operands[0]? = some (.symbol name) → operands[1]? = some e →
      m.heap.contains scope name = false → m.sink.isFull = true →
        Evaluates settings (.form .assign operands) scope m
          (.error (.failed .sinkFull) { m with log := m.log.push (.undefinedVariable name) }) ∧
        ∀ t, ¬ Begins settings ⟨.form .assign operands, scope, m⟩ t := by
  refine ⟨fun tree scope => .of_truncates fun n m hm => evaluateWithin_truncates n tree scope hm,
    fun line => .of_truncates fun _ m hm => Line.run_truncates line hm, ?_⟩
  intro operands scope m name e hname he hbound hfull
  have hwarn : Form.warn scope name m =
      .error (.failed .sinkFull) { m with log := m.log.push (.undefinedVariable name) } := by
    rw [Form.warn_apply, hbound]
    exact Eval.emit_of_full (m := { m with log := m.log.push (.undefinedVariable name) }) hfull _
  refine ⟨⟨⟨0, ?_⟩, trivial⟩, fun t ht => ?_⟩
  · show evaluateWithin settings 0 (.form .assign operands) scope m = _
    rw [evaluateWithin_form, Form.special, Form.assign_eq, Form.operand_map hname, pure_bind, Form.operand_map he]
    exact Run.bind_of_error hwarn _
  · obtain ⟨name', m', hname', hw⟩ := ht.of_assign
    rw [hname] at hname'
    cases hname'
    rw [hwarn] at hw
    cases hw

/-- An empty global scope, and a sink that never fails. -/
def blank : Machine := ⟨⟨#[.empty none], 0⟩, 0, .empty none, #[]⟩

theorem Sink.plus_injective {s : Sink} {ls ls' : List String} (h : s.plus ls = s.plus ls') : ls = ls' := by
  have h := congrArg (·.lines.toList) h
  simpa [plus] using h

/-- With room for one line `(repeat 2 5)` fails at the second, and with room for two the line `x`
    fails at its value; with room for none `set!` of a name that is not bound fails at its
    warning. -/
theorem failing_sink_cuts_blank :
    let settings : Settings := ⟨true, some 1⟩
    (∃ m₁, Attempts settings ⟨.form .iterate [.int 2, .int 5], 0, blank⟩ "5" m₁ ∧ m₁.sink.lines = #["5"] ∧
      Evaluates settings (.form .iterate [.int 2, .int 5]) 0 (blank.withRoom (some 1))
        (.error (.failed .sinkFull) { m₁.withRoom (some 0) with depth := 0 })) ∧
    (∃ m₁, Line.Attempts settings "x" blank "nil" m₁ ∧ Ends (fun _ => Line.run settings "x")
      (blank.withRoom (some 2)) (.error (.failed (.evaluation .sinkFull)) { m₁.withRoom (some 0) with depth := 0 })) ∧
    Evaluates settings (.form .assign [.symbol "x", .int 1]) 0 (blank.withRoom (some 0))
      (.error (.failed .sinkFull) { blank.withRoom (some 0) with log := #[.undefinedVariable "x"] }) := by
  intro settings
  obtain ⟨heval, hline, hassign⟩ := failing_sink_cuts settings
  refine ⟨?_, ?_, (hassign [.symbol "x", .int 1] 0 _ "x" (.int 1) rfl rfl (by cbv) rfl).1⟩
  · have hr : Evaluates settings (.form .iterate [.int 2, .int 5]) 0 blank _ := ⟨⟨0, rfl⟩, by cbv⟩
    have hwritten : (Outcome.machine (evaluateWithin settings 0 (.form .iterate [.int 2, .int 5]) 0 blank)).sink =
        blank.sink.plus ["5", "5"] := by cbv
    obtain ⟨lines, hsink, hk⟩ := heval _ _ blank _ hr
    obtain rfl := Sink.plus_injective (hwritten.symm.trans hsink)
    obtain ⟨m₁, hA, hm₁, hcut⟩ := (hk 1).2 "5" rfl
    exact ⟨m₁, hA, by rw [hm₁]; rfl, hcut⟩
  · have hr : Ends (fun _ => Line.run settings "x") blank _ := ⟨⟨0, rfl⟩, by cbv⟩
    have hwritten : (Outcome.machine (Line.run settings "x" blank)).sink =
        blank.sink.plus [Token.render (Token.scan "x"), "x", "nil"] := by cbv
    obtain ⟨lines, hsink, hk⟩ := hline "x" blank _ hr
    obtain rfl := Sink.plus_injective (hwritten.symm.trans hsink)
    obtain ⟨m₁, hA, -, hcut⟩ := (hk 2).2 "nil" rfl
    exact ⟨m₁, hA, hcut⟩

end LineLisp
