/-
  LineLisp.Proofs.Coupling — two evaluations side by side, where the trees that are evaluated
  are told apart from the values that they give. A tree is code for the scope that it is
  evaluated in, and code says what may become of it: what a form evaluates in turn, which trees
  it quotes and which closures it makes. Values are never evaluated, but for the bodies of
  closures that are called.
  - `Coupling.meaning`: if the steps are related, and what applications do is, then the
    evaluations of related code are.
  - `Coupling.applyWith`: applications are related if calls of related closures are.
  - `Coupling.Calls` and `Coupling.Lockstep`: from calls to whole evaluations, which the second
    side is given as many calls for as the first one, or more.
-/

import LineLisp.Proofs.Outcome

namespace LineLisp

/-! ## Trees -/

theorem Value.induction {P : Value → Prop} (number : ∀ n, P (.number n))
    (symbol : ∀ name, P (.symbol name)) (list : ∀ vs, (∀ v ∈ vs, P v) → P (.list vs))
    (primitive : ∀ p, P (.primitive p))
    (closure : ∀ id params body scope, P body → P (.closure id params body scope))
    (nil : P .nil) (v : Value) : P v :=
  match v with
  | .number n => number n
  | .symbol name => symbol name
  | .list vs => list vs fun v _ => Value.induction number symbol list primitive closure nil v
  | .primitive p => primitive p
  | .closure id params body scope =>
    closure id params body scope (Value.induction number symbol list primitive closure nil body)
  | .nil => nil

/-- A special form with these operands. -/
def Value.form (keyword : Keyword) (operands : List Value) : Value := .list (.symbol keyword.name :: operands)

/-- The tree is neither looked up nor a form: it evaluates to itself. -/
def Value.IsConstant : Value → Prop
  | .symbol _ => False
  | .list _ => False
  | _ => True

/-- Values that are the same but for the identities, the bodies and the scopes of closures. -/
inductive Value.Similar : Value → Value → Prop
  | number (n : Number) : Similar (.number n) (.number n)
  | symbol (name : String) : Similar (.symbol name) (.symbol name)
  | list {vs vs' : List Value} : List.Forall₂ Similar vs vs' → Similar (.list vs) (.list vs')
  | primitive (p : Primitive) : Similar (.primitive p) (.primitive p)
  | closure (id id' : ClosureId) (params : List String) (body body' : Value) (scope scope' : ScopeId) :
      Similar (.closure id params body scope) (.closure id' params body' scope')
  | nil : Similar .nil .nil

theorem Value.eq_symbol {v : Value} {name : String} (h : v.symbol? = some name) : v = .symbol name := by
  cases v <;> cases h
  rfl

namespace Value.Similar

variable {v v' : Value}

theorem refl (v : Value) : v.Similar v := by
  induction v using Value.induction with
  | number n => exact .number n
  | symbol name => exact .symbol name
  | list vs ih => exact .list (List.forall₂_same.mpr ih)
  | primitive p => exact .primitive p
  | closure => exact .closure _ _ _ _ _ _ _
  | nil => exact .nil

theorem kind_eq (h : v.Similar v') : v.kind = v'.kind := by
  cases h <;> rfl

theorem symbol?_eq (h : v.Similar v') : v.symbol? = v'.symbol? := by
  cases h <;> rfl

theorem isTrue_eq (h : v.Similar v') : v.isTrue = v'.isTrue := by
  cases h <;> rfl

theorem isSome_procedure? (h : v.Similar v') : v.procedure?.isSome = v'.procedure?.isSome := by
  cases h <;> rfl

/-- They are printed in the same way. -/
theorem text_eq (h : v.Similar v') : v.text = v'.text := by
  induction v using Value.induction generalizing v' with
  | list vs ih =>
    cases h with
    | list hvs =>
      simp only [text]
      congr 3
      induction hvs with
      | nil => rfl
      | cons hv _ ihvs =>
        rw [texts, texts, ih _ List.mem_cons_self hv, ihvs fun w hw => ih w (List.mem_cons_of_mem _ hw)]
  | number n => cases h; rfl
  | symbol name => cases h; rfl
  | primitive p => cases h; rfl
  | closure id params body scope ih => cases h; rfl
  | nil => cases h; rfl

end Value.Similar

/-! ## Parameter lists -/

namespace Form

theorem symbol_none {form : Keyword} {tree : Value} (h : tree.symbol? = none) :
    symbol form tree = .fail (.notASymbol form tree.text) := by
  rw [symbol, h]

theorem parameters_names (names : List String) : parameters (names.map .symbol) = pure names := by
  induction names with
  | nil => rfl
  | cons name names ih =>
    show (symbol .lambda (.symbol name) >>= fun n => parameters (names.map .symbol) >>= fun ns => pure (n :: ns)) = _
    rw [ih]
    rfl

theorem parameters_notASymbol (names : List String) {t : Value} (ht : t.symbol? = none) (after : List Value) :
    parameters (names.map .symbol ++ t :: after) = .fail (.notASymbol .lambda t.text) := by
  induction names with
  | nil =>
    show (symbol .lambda t >>= fun n => parameters after >>= fun ns => pure (n :: ns)) = _
    rw [symbol_none ht, Run.fail_bind]
  | cons name names ih =>
    show (symbol .lambda (.symbol name) >>= fun n =>
      parameters (names.map .symbol ++ t :: after) >>= fun ns => pure (n :: ns)) = _
    rw [ih]
    rfl

/-- A parameter list consists of names, or some tree is the first that is none. -/
theorem names_or_not (trees : List Value) : (∃ names : List String, trees = names.map .symbol) ∨
    ∃ (names : List String) (t : Value) (after : List Value),
      trees = names.map .symbol ++ t :: after ∧ t.symbol? = none := by
  induction trees with
  | nil => exact .inl ⟨[], rfl⟩
  | cons t trees ih =>
    cases ht : t.symbol? with
    | none => exact .inr ⟨[], t, trees, rfl, ht⟩
    | some name =>
      obtain rfl := Value.eq_symbol ht
      rcases ih with ⟨names, rfl⟩ | ⟨names, u, after, rfl, hu⟩
      · exact .inl ⟨name :: names, rfl⟩
      · exact .inr ⟨name :: names, u, after, rfl, hu⟩

/-- Similar parameter lists give the same names, or fail alike. -/
theorem parameters_eq {trees trees' : List Value} (h : List.Forall₂ Value.Similar trees trees') :
    parameters trees = parameters trees' := by
  induction h with
  | nil => rfl
  | @cons t t' trees trees' ht _ ih =>
    have hsymbol : symbol .lambda t = symbol .lambda t' := by
      rw [symbol, symbol, ht.symbol?_eq, ht.text_eq]
    rw [parameters, parameters, hsymbol, ih]

theorem count_eq {v v' : Value} (h : v.Similar v') : count v = count v' := by
  cases h <;> rfl

variable (form : Keyword) (o o' : Operand) (os : List Operand)

theorem operand_first : operand form (o :: os) 1 = pure o := rfl
theorem operand_second : operand form (o :: o' :: os) 2 = pure o' := rfl
theorem operand_first_missing : operand form [] 1 = .fail (.missingOperand form 1) := rfl
theorem operand_second_missing : operand form [o] 2 = .fail (.missingOperand form 2) := rfl

end Form

/-- The scope in which `set!` evaluates its expression. -/
def Settings.readScope (settings : Settings) (scope : ScopeId) : ScopeId :=
  if settings.setReadsGlobal then Heap.globalScope else scope

/-! ## Couplings -/

/-- A relation of evaluations under two settings, closed under the steps of evaluation, with
    the code that is evaluated and the values that it gives. Each clause that steps the machines
    leaves it to the rest of the computation to go on from there, in the same world or in a
    later one. -/
structure Coupling (settings settings' : Settings) where
  World : Type
  le : World → World → Prop
  scope : World → ScopeId → ScopeId → Prop
  /-- Trees that are evaluated in two scopes. -/
  code : World → ScopeId → ScopeId → Value → Value → Prop
  value : World → Value → Value → Prop
  /-- Evaluations on behalf of forms that stand in two scopes. -/
  rel : World → ScopeId → ScopeId → Eval Value → Eval Value → Prop
  le_refl (w : World) : le w w
  le_trans {u v w : World} : le u v → le v w → le u w
  code_mono {w w' : World} {s s' : ScopeId} {t t' : Value} : le w w' → code w s s' t t' → code w' s s' t t'
  value_mono {w w' : World} {v v' : Value} : le w w' → value w v v' → value w' v v'
  scope_of_code {w : World} {s s' : ScopeId} {t t' : Value} : code w s s' t t' → scope w s s'
  similar_code {w : World} {s s' : ScopeId} {t t' : Value} : code w s s' t t' → t.Similar t'
  similar_value {w : World} {v v' : Value} : value w v v' → v.Similar v'
  /-- The elements of a form are code, whether the form evaluates them or not. -/
  elements {w : World} {s s' : ScopeId} {ts ts' : List Value} : code w s s' (.list ts) (.list ts') →
    List.Forall₂ (code w s s') ts ts'
  constant {w : World} {s s' : ScopeId} {t t' : Value} : code w s s' t t' → t.IsConstant → value w t t'
  quoted {w : World} {s s' : ScopeId} {t t' : Value} {surplus surplus' : List Value} :
    code w s s' (.form .quote (t :: surplus)) (.form .quote (t' :: surplus')) → value w t t'
  /-- `set!` takes its expression to where it is evaluated. -/
  assigned {w : World} {s s' : ScopeId} {name : String} {e e' : Value} {surplus surplus' : List Value} :
    code w s s' (.form .assign (.symbol name :: e :: surplus)) (.form .assign (.symbol name :: e' :: surplus')) →
      code w (settings.readScope s) (settings'.readScope s') e e' ∧
        ∀ {w' : World} {x x' : Eval Value}, le w w' →
          rel w' (settings.readScope s) (settings'.readScope s') x x' → rel w' s s' x x'
  protected nil (w : World) : value w .nil .nil
  /-- What primitives give is related to itself. -/
  result {w : World} {p : Primitive} {args args' : List Value} {v : Value} :
    List.Forall₂ (value w) args args' → p.result? args = some (.ok v) → value w v v
  protected pure {w : World} {s s' : ScopeId} {v v' : Value} : value w v v' → rel w s s' (pure v) (pure v')
  protected fail {w : World} {s s' : ScopeId} (e : EvalError) : rel w s s' (Run.fail e) (Run.fail e)
  protected bind {w : World} {s s' : ScopeId} {x x' : Eval Value} {f f' : Value → Eval Value} :
    rel w s s' x x' → (∀ w' v v', le w w' → value w' v v' → rel w' s s' (f v) (f' v')) →
      rel w s s' (x >>= f) (x' >>= f')
  lookup {w : World} {s s' : ScopeId} {f f' : Option Value → Eval Value} {name : String} :
    code w s s' (.symbol name) (.symbol name) → (∀ o o', Option.Rel (value w) o o' → rel w s s' (f o) (f' o')) →
      rel w s s' (Eval.lookup s name >>= f) (Eval.lookup s' name >>= f')
  isBound {w : World} {s s' : ScopeId} {f f' : Bool → Eval Value} {name : String} :
    code w s s' (.symbol name) (.symbol name) → (∀ b, rel w s s' (f b) (f' b)) →
      rel w s s' (Eval.isBound s name >>= f) (Eval.isBound s' name >>= f')
  /-- The events that forms note; the begin of a call is not one of them. -/
  protected note {w : World} {s s' : ScopeId} {f f' : Unit → Eval Value} {event : LogEvent} :
    event.level = .debug → (∀ w', le w w' → rel w' s s' (f ()) (f' ())) →
      rel w s s' (Run.note event >>= f) (Run.note event >>= f')
  emit {w : World} {s s' : ScopeId} {f f' : Unit → Eval Value} (line : String) :
    (∀ w', le w w' → rel w' s s' (f ()) (f' ())) → rel w s s' (Eval.emit line >>= f) (Eval.emit line >>= f')
  define {w : World} {s s' : ScopeId} {v v' : Value} {f f' : Unit → Eval Value} {name : String} :
    code w s s' (.symbol name) (.symbol name) → value w v v' → (∀ w', le w w' → rel w' s s' (f ()) (f' ())) →
      rel w s s' (Eval.define s name v >>= f) (Eval.define s' name v' >>= f')
  newClosure {w : World} {s s' : ScopeId} {names : List String} {body body' : Value} {surplus surplus' : List Value} :
    code w s s' (.form .lambda (.list (names.map .symbol) :: body :: surplus))
      (.form .lambda (.list (names.map .symbol) :: body' :: surplus')) →
        rel w s s' (Eval.newClosure names body s) (Eval.newClosure names body' s')

namespace Coupling

variable {settings settings' : Settings} (C : Coupling settings settings')
variable {w : C.World} {s s' : ScopeId}

/-- Operands that are code, evaluated in a related way wherever they are code. -/
structure OperandRel (w : C.World) (s s' : ScopeId) (o o' : Operand) : Prop where
  code : C.code w s s' o.tree o'.tree
  eval {w' : C.World} {r r' : ScopeId} : C.le w w' → C.code w' r r' o.tree o'.tree →
    C.rel w' r r' (o.eval r) (o'.eval r')

/-- The operands of a special form, which is code. -/
structure FormRel (w : C.World) (s s' : ScopeId) (keyword : Keyword) (os os' : List Operand) : Prop where
  code : C.code w s s' (.form keyword (os.map Operand.tree)) (.form keyword (os'.map Operand.tree))
  operands : List.Forall₂ (C.OperandRel w s s') os os'

variable {C}
variable {os os' : List Operand} {keyword : Keyword}

theorem OperandRel.mono {w' : C.World} (h : C.le w w') {o o' : Operand} (ho : C.OperandRel w s s' o o') :
    C.OperandRel w' s s' o o' :=
  ⟨C.code_mono h ho.code, fun h' => ho.eval (C.le_trans h h')⟩

/-- They are evaluated in the scopes of their forms. -/
theorem OperandRel.run {w' : C.World} {o o' : Operand} (ho : C.OperandRel w s s' o o') (h : C.le w w') :
    C.rel w' s s' (o.eval s) (o'.eval s') :=
  ho.eval h (C.code_mono h ho.code)

/-! ## Forms -/

theorem operand (form : Keyword) (position : Nat) {f f' : Operand → Eval Value}
    (hos : List.Forall₂ (C.OperandRel w s s') os os')
    (hf : ∀ o o', C.OperandRel w s s' o o' → C.rel w s s' (f o) (f' o')) :
    C.rel w s s' (Form.operand form os position >>= f) (Form.operand form os' position >>= f') := by
  have h : Option.Rel (C.OperandRel w s s') os[position - 1]? os'[position - 1]? := by
    generalize position - 1 = i
    induction hos generalizing i with
    | nil => exact .none
    | cons ho _ ih =>
      cases i with
      | zero => exact .some ho
      | succ i => exact ih i
  unfold Form.operand
  revert h
  generalize os[position - 1]? = x
  generalize os'[position - 1]? = x'
  intro h
  cases h with
  | none => simpa only [Run.fail_bind] using C.fail _
  | some ho => simpa only [pure_bind] using hf _ _ ho

/-- A name that code has in front of it is the same on both sides. -/
theorem symbol (form : Keyword) {t t' : Value} (ht : C.code w s s' t t') {f f' : String → Eval Value}
    (hf : ∀ name, t = .symbol name → t' = .symbol name → C.rel w s s' (f name) (f' name)) :
    C.rel w s s' (Form.symbol form t >>= f) (Form.symbol form t' >>= f') := by
  have hsimilar := C.similar_code ht
  cases hsymbol : t.symbol? with
  | none =>
    rw [Form.symbol_none hsymbol, Form.symbol_none (hsimilar.symbol?_eq ▸ hsymbol), hsimilar.text_eq, Run.fail_bind,
      Run.fail_bind]
    exact C.fail _
  | some name =>
    obtain rfl := Value.eq_symbol hsymbol
    obtain rfl := Value.eq_symbol (hsimilar.symbol?_eq ▸ hsymbol)
    exact hf name rfl rfl

theorem arguments (hos : List.Forall₂ (C.OperandRel w s s') os os') {f f' : List Value → Eval Value}
    (hf : ∀ w' vs vs', C.le w w' → List.Forall₂ (C.value w') vs vs' → C.rel w' s s' (f vs) (f' vs')) :
    C.rel w s s' (Form.arguments s os >>= f) (Form.arguments s' os' >>= f') := by
  induction os generalizing w os' f f' with
  | nil =>
    cases hos
    simpa only [Form.arguments, pure_bind] using hf w [] [] (C.le_refl w) .nil
  | cons o os ih =>
    cases hos with
    | cons ho hos =>
      simp only [Form.arguments, bind_assoc, pure_bind]
      refine C.bind (ho.run (C.le_refl w)) fun w₁ v v' h₁ hv => ?_
      refine ih (hos.imp fun _ _ => .mono h₁) fun w₂ vs vs' h₂ hvs => ?_
      exact hf w₂ _ _ (C.le_trans h₁ h₂) (.cons (C.value_mono h₂ hv) hvs)

theorem rounds (n : Nat) {o o' : Operand} (ho : C.OperandRel w s s' o o') {f f' : Unit → Eval Value}
    (hf : ∀ w', C.le w w' → C.rel w' s s' (f ()) (f' ())) :
    C.rel w s s'
      (Eval.iterate n (o.eval s >>= fun v => Eval.emit v.text) >>= f)
      (Eval.iterate n (o'.eval s' >>= fun v => Eval.emit v.text) >>= f') := by
  induction n generalizing w with
  | zero => simpa only [Eval.iterate, pure_bind] using hf w (C.le_refl w)
  | succ n ih =>
    simp only [Eval.iterate, bind_assoc]
    refine C.bind (ho.run (C.le_refl w)) fun w₁ v v' h₁ hv => ?_
    rw [(C.similar_value hv).text_eq]
    refine C.emit _ fun w₂ h₂ => ?_
    have h₂ := C.le_trans h₁ h₂
    exact ih (ho.mono h₂) fun w₃ h₃ => hf w₃ (C.le_trans h₂ h₃)

theorem conditional (hos : List.Forall₂ (C.OperandRel w s s') os os') :
    C.rel w s s' (Form.conditional os s) (Form.conditional os' s') := by
  unfold Form.conditional
  refine operand _ _ hos fun o o' ho => ?_
  refine C.bind (ho.run (C.le_refl w)) fun w₁ v v' h₁ hv => ?_
  rw [(C.similar_value hv).isTrue_eq]
  refine operand _ _ (hos.imp fun _ _ => .mono h₁) fun b b' hb => ?_
  exact hb.run (C.le_refl w₁)

theorem definition (hos : List.Forall₂ (C.OperandRel w s s') os os') :
    C.rel w s s' (Form.define os s) (Form.define os' s') := by
  unfold Form.define
  refine operand _ _ hos fun o o' ho => symbol _ ho.code fun name hname hname' => ?_
  refine operand _ _ hos fun b b' hb => ?_
  refine C.bind (hb.run (C.le_refl w)) fun w₁ v v' h₁ hv => ?_
  have hcode : C.code w s s' (.symbol name) (.symbol name) := by
    have := ho.code
    rwa [hname, hname'] at this
  exact C.define (C.code_mono h₁ hcode) hv fun w₂ h₂ => C.pure (C.value_mono h₂ hv)

theorem assignment (h : C.FormRel w s s' .assign os os') :
    C.rel w s s' (Form.assign settings os s) (Form.assign settings' os' s') := by
  obtain ⟨hform, hos⟩ := h
  unfold Form.assign
  cases hos with
  | nil => simpa only [Form.operand_first_missing, Run.fail_bind] using C.fail _
  | @cons n n' os os' hn hos =>
    rw [Form.operand_first, Form.operand_first, pure_bind, pure_bind]
    refine symbol _ hn.code fun name hname hname' => ?_
    cases hos with
    | nil => simpa only [Form.operand_second_missing, Run.fail_bind] using C.fail _
    | @cons b b' os os' hb hos =>
      rw [Form.operand_second, Form.operand_second, pure_bind, pure_bind]
      simp only [List.map_cons, hname, hname'] at hform
      have hcode : C.code w s s' (.symbol name) (.symbol name) := by
        have := hn.code
        rwa [hname, hname'] at this
      obtain ⟨hright, htake⟩ := C.assigned hform
      have rest {w₁ : C.World} (h₁ : C.le w w₁) : C.rel w₁ s s'
          (b.eval (settings.readScope s) >>= fun v => Eval.define s name v >>= fun _ => pure v)
          (b'.eval (settings'.readScope s') >>= fun v => Eval.define s' name v >>= fun _ => pure v) := by
        refine C.bind (htake h₁ (hb.eval h₁ (C.code_mono h₁ hright))) fun w₂ v v' h₂ hv => ?_
        have h₂ := C.le_trans h₁ h₂
        exact C.define (C.code_mono h₂ hcode) hv fun w₃ h₃ => C.pure (C.value_mono h₃ hv)
      refine C.isBound hcode fun bound => ?_
      cases bound with
      | true => exact rest (C.le_refl w)
      | false =>
        simp only [Form.warnUndefined, bind_assoc]
        exact C.note rfl fun w₁ h₁ => C.emit _ fun w₂ h₂ => rest (C.le_trans h₁ h₂)

theorem eq_names {names : List String} {trees : List Value}
    (h : List.Forall₂ Value.Similar (names.map .symbol) trees) : trees = names.map .symbol := by
  induction names generalizing trees with
  | nil => cases h; rfl
  | cons name names ih =>
    cases h with
    | cons hname hnames =>
      cases hname
      rw [ih hnames, List.map_cons]

theorem lambda (h : C.FormRel w s s' .lambda os os') :
    C.rel w s s' (Form.lambda os s) (Form.lambda os' s') := by
  obtain ⟨hform, hos⟩ := h
  unfold Form.lambda
  cases hos with
  | nil => simpa only [Form.operand_first_missing, Run.fail_bind] using C.fail _
  | @cons p p' os os' hp hos =>
    rw [Form.operand_first, Form.operand_first, pure_bind, pure_bind]
    have hsimilar := C.similar_code hp.code
    simp only [List.map_cons] at hform
    revert hsimilar hform
    generalize p.tree = t
    generalize p'.tree = t'
    intro hsimilar hform
    cases hsimilar with
    | @list trees trees' htrees =>
      simp only [← Form.parameters_eq htrees]
      rcases Form.names_or_not trees with ⟨names, rfl⟩ | ⟨names, u, after, rfl, hu⟩
      · rw [Form.parameters_names, pure_bind, pure_bind]
        obtain rfl := eq_names htrees
        cases hos with
        | nil => simpa only [Form.operand_second_missing, Run.fail_bind] using C.fail _
        | cons hb hos => exact C.newClosure hform
      · rw [Form.parameters_notASymbol names hu, Run.fail_bind, Run.fail_bind]
        exact C.fail _
    | number n => exact C.fail _
    | symbol name => exact C.fail _
    | primitive p => exact C.fail _
    | closure => exact C.fail _
    | nil => exact C.fail _

theorem quote (h : C.FormRel w s s' .quote os os') :
    C.rel w s s' (Form.quote os s) (Form.quote os' s') := by
  obtain ⟨hform, hos⟩ := h
  unfold Form.quote
  cases hos with
  | nil => simpa only [Form.operand_first_missing, Run.fail_bind] using C.fail _
  | cons ho hos => exact C.pure (C.quoted hform)

theorem iteration (hos : List.Forall₂ (C.OperandRel w s s') os os') :
    C.rel w s s' (Form.iterate os s) (Form.iterate os' s') := by
  unfold Form.iterate
  refine operand _ _ hos fun o o' ho => ?_
  refine C.bind (ho.run (C.le_refl w)) fun w₁ v v' h₁ hv => ?_
  rw [Form.count_eq (C.similar_value hv)]
  have hbody (n : Nat) : C.rel w₁ s s'
      (Form.operand .iterate os 2 >>= fun body =>
        Eval.iterate n (body.eval s >>= fun v => Eval.emit v.text) >>= fun _ => pure .nil)
      (Form.operand .iterate os' 2 >>= fun body =>
        Eval.iterate n (body.eval s' >>= fun v => Eval.emit v.text) >>= fun _ => pure .nil) :=
    operand _ _ (hos.imp fun _ _ => .mono h₁) fun b b' hb => rounds n hb fun w₂ _ => C.pure (C.nil w₂)
  unfold Form.count
  split
  · split
    · simpa only [pure_bind] using hbody _
    · simpa only [Run.fail_bind] using C.fail _
  · simpa only [Run.fail_bind] using C.fail _

theorem special (h : C.FormRel w s s' keyword os os') :
    C.rel w s s' (Form.special settings keyword os s) (Form.special settings' keyword os' s') := by
  cases keyword with
  | conditional => exact conditional h.operands
  | define => exact definition h.operands
  | assign => exact assignment h
  | lambda => exact lambda h
  | quote => exact quote h
  | iterate => exact iteration h.operands

variable (C)

/-- Applications of related procedures to related arguments, from related scopes. -/
def ApplyRel (apply apply' : Application) : Prop :=
  ∀ (w : C.World) (s s' : ScopeId) (f f' : Value) (p p' : Procedure) (name : String) (args args' : List Value),
    C.scope w s s' → C.value w f f' → f.procedure? = some p → f'.procedure? = some p' →
      List.Forall₂ (C.value w) args args' → C.rel w s s' (apply p name args) (apply' p' name args')

variable {C}
variable {apply apply' : Application}

theorem application (happly : C.ApplyRel apply apply') {name : String}
    (hname : C.code w s s' (.symbol name) (.symbol name)) (hos : List.Forall₂ (C.OperandRel w s s') os os') :
    C.rel w s s' (Form.application apply name os s) (Form.application apply' name os' s') := by
  unfold Form.application
  refine C.lookup hname fun o o' ho => ?_
  refine arguments hos fun w₁ vs vs' h₁ hvs => ?_
  have inert (f : Unit → Eval Value) (hf : f = fun _ => pure .nil) :
      C.rel w₁ s s' (Run.note (.notAProcedure name) >>= f) (Run.note (.notAProcedure name) >>= f) := by
    subst hf
    exact C.note rfl fun w₂ _ => C.pure (C.nil w₂)
  cases ho with
  | none => exact inert _ rfl
  | @some f f' hf =>
    have hsome := (C.similar_value hf).isSome_procedure?
    simp only [Option.bind_some]
    cases hp : f.procedure? with
    | none =>
      have hp' : f'.procedure? = none := by simpa [hp] using hsome
      rw [hp']
      exact inert _ rfl
    | some p =>
      obtain ⟨p', hp'⟩ := Option.isSome_iff_exists.mp (by rw [← hsome, hp]; rfl)
      rw [hp']
      have hscope := C.scope_of_code (C.code_mono h₁ hname)
      exact happly w₁ s s' f f' p p' name vs vs' hscope (C.value_mono h₁ hf) hp hp' hvs

theorem form (happly : C.ApplyRel apply apply')
    (hcode : C.code w s s' (.list (os.map Operand.tree)) (.list (os'.map Operand.tree)))
    (hos : List.Forall₂ (C.OperandRel w s s') os os') :
    C.rel w s s' (Form.meaning settings apply os s) (Form.meaning settings' apply' os' s') := by
  cases hos with
  | nil => exact C.fail _
  | @cons o o' os os' ho hos =>
    have hhead := ho.code
    have hsimilar := C.similar_code ho.code
    simp only [List.map_cons] at hcode
    simp only [Form.meaning]
    revert hhead hsimilar hcode
    generalize o.tree = t
    generalize o'.tree = t'
    intro hhead hsimilar hcode
    have htext := hsimilar.text_eq
    cases hsimilar with
    | symbol name =>
      simp only
      cases hkeyword : Keyword.ofName? name with
      | some keyword =>
        obtain rfl := Keyword.ofName?_eq_some_iff.mp hkeyword
        exact special ⟨hcode, hos⟩
      | none => exact application happly hhead hos
    | _ =>
      simp only [htext]
      exact C.note rfl fun w₁ _ => C.pure (C.nil w₁)

/-- Related code is evaluated in a related way. -/
theorem meaning (happly : C.ApplyRel apply apply') (t : Value) {t' : Value} (ht : C.code w s s' t t') :
    C.rel w s s' (t.meaning settings apply s) (t'.meaning settings' apply' s') := by
  induction t using Value.induction generalizing w s s' t' with
  | symbol name =>
    cases C.similar_code ht
    simp only [Value.meaning]
    refine C.lookup ht fun o o' ho => C.pure ?_
    cases ho with
    | none => exact C.nil w
    | some h => exact h
  | list ts ih =>
    cases C.similar_code ht with
    | @list _ ts' hsimilar =>
      simp only [Value.meaning, Value.operands_eq_map]
      refine form happly (by simpa [Function.comp_def] using ht) ?_
      have helements := C.elements ht
      clear ht hsimilar
      induction helements with
      | nil => exact .nil
      | @cons u u' us us' hu _ ihus =>
        refine .cons ⟨hu, fun _ hcode => ?_⟩ (ihus fun v hv => ih v (List.mem_cons_of_mem _ hv))
        exact ih u List.mem_cons_self hcode
  | number n => cases C.similar_code ht; exact C.pure (C.constant ht trivial)
  | primitive p => cases C.similar_code ht; exact C.pure (C.constant ht trivial)
  | closure id params body scope ih => cases C.similar_code ht; exact C.pure (C.constant ht trivial)
  | nil => cases C.similar_code ht; exact C.pure (C.constant ht trivial)

/-! ## Calls -/

theorem number {p : Primitive} {v v' : Value} (hv : C.value w v v') : p.number v = p.number v' := by
  have hkind := (C.similar_value hv).kind_eq
  cases C.similar_value hv <;> simp_all [Primitive.number]

theorem result?_eq (p : Primitive) {args args' : List Value} (h : List.Forall₂ (C.value w) args args') :
    p.result? args = p.result? args' := by
  cases h with
  | nil => cases p <;> rfl
  | cons hv hvs =>
    cases hvs with
    | nil => cases p <;> simp [Primitive.result?, Primitive.unary, number hv]
    | cons hu hus =>
      cases hus with
      | nil => cases p <;> simp [Primitive.result?, Primitive.binary, number hv, number hu]
      | cons => cases p <;> rfl

/-- Applications are related if the calls of related closures are. -/
theorem applyWith {body body' : Value → Meaning}
    (hcall : ∀ (w : C.World) (s s' : ScopeId) (i i' : ClosureId) (params : List String) (t t' : Value)
      (outer outer' : ScopeId) (name : String) (args args' : List Value), C.scope w s s' →
        C.value w (.closure i params t outer) (.closure i' params t' outer') →
          List.Forall₂ (C.value w) args args' → args.length = params.length →
            C.rel w s s' (Procedure.call settings name params args outer (body t))
              (Procedure.call settings' name params args' outer' (body' t'))) :
    C.ApplyRel (Procedure.applyWith settings body) (Procedure.applyWith settings' body') := by
  intro w s s' f f' p p' name args args' hs hf hp hp' hargs
  cases C.similar_value hf with
  | primitive q =>
    cases hp
    cases hp'
    simp only [Procedure.applyWith, ← result?_eq q hargs, ← hargs.length_eq]
    cases hr : q.result? args with
    | none => exact C.fail _
    | some r =>
      cases r with
      | error e => exact C.fail e
      | ok v => exact C.pure (C.result hargs hr)
  | closure i i' params t t' outer outer' =>
    cases hp
    cases hp'
    rw [Procedure.applyWith_closure, Procedure.applyWith_closure, ← hargs.length_eq]
    by_cases h : args.length = params.length
    · rw [if_pos h, if_pos h]
      exact hcall w s s' i i' params t t' outer outer' name args args' hs hf hargs h
    · rw [if_neg h, if_neg h]
      exact C.fail _
  | _ => cases hp

variable (C)

/-- The call of a closure is related to another one if the evaluations of related code are. -/
structure ClosureCalls : Prop where
  call {body body' : Value → Meaning}
    (hbody : ∀ (w : C.World) (s s' : ScopeId) (t t' : Value), C.code w s s' t t' →
      C.rel w s s' (body t s) (body' t' s'))
    (w : C.World) (s s' : ScopeId) (i i' : ClosureId) (params : List String) (t t' : Value)
    (outer outer' : ScopeId) (name : String) (args args' : List Value) : C.scope w s s' →
      C.value w (.closure i params t outer) (.closure i' params t' outer') →
        List.Forall₂ (C.value w) args args' → args.length = params.length →
          C.rel w s s' (Procedure.call settings name params args outer (body t))
            (Procedure.call settings' name params args' outer' (body' t'))

/-- Besides, calls that are out of bounds are related to anything. -/
structure Calls : Prop extends ClosureCalls C where
  unfinished {w : C.World} {s s' : ScopeId} (x' : Eval Value) : C.rel w s s' Run.unfinished x'

/-- Besides, calls that are out of bounds are related to each other. -/
structure Lockstep : Prop extends ClosureCalls C where
  unfinished {w : C.World} {s s' : ScopeId} : C.rel w s s' Run.unfinished Run.unfinished

variable {C}

/-- The second side may take more calls than the first. -/
theorem Calls.applyWithin (h : C.Calls) {n n' : Nat} (hn : n ≤ n') :
    C.ApplyRel (Procedure.applyWithin settings n) (Procedure.applyWithin settings' n') := by
  induction n generalizing n' with
  | zero => cases n' <;> exact Coupling.applyWith (h.call fun _ _ _ _ _ _ => h.unfinished _)
  | succ n ih =>
    obtain ⟨n', rfl⟩ := Nat.exists_eq_succ_of_ne_zero (Nat.ne_zero_of_lt hn)
    refine Coupling.applyWith (h.call fun w s s' t t' ht => ?_)
    rw [evaluateWithin_eq, evaluateWithin_eq]
    exact meaning (ih (Nat.le_of_succ_le_succ hn)) t ht

theorem Calls.evaluateWithin (h : C.Calls) {n n' : Nat} (hn : n ≤ n') {t t' : Value} (ht : C.code w s s' t t') :
    C.rel w s s' (evaluateWithin settings n t s) (evaluateWithin settings' n' t' s') := by
  rw [evaluateWithin_eq, evaluateWithin_eq]
  exact meaning (h.applyWithin hn) t ht

/-- Both sides take equally many calls. -/
theorem Lockstep.applyWithin (h : C.Lockstep) (n : Nat) :
    C.ApplyRel (Procedure.applyWithin settings n) (Procedure.applyWithin settings' n) := by
  induction n with
  | zero => exact Coupling.applyWith (h.call fun _ _ _ _ _ _ => h.unfinished)
  | succ n ih =>
    refine Coupling.applyWith (h.call fun w s s' t t' ht => ?_)
    rw [evaluateWithin_eq, evaluateWithin_eq]
    exact meaning ih t ht

theorem Lockstep.evaluateWithin (h : C.Lockstep) (n : Nat) {t t' : Value} (ht : C.code w s s' t t') :
    C.rel w s s' (LineLisp.evaluateWithin settings n t s) (LineLisp.evaluateWithin settings' n t' s') := by
  rw [evaluateWithin_eq, evaluateWithin_eq]
  exact meaning (h.applyWithin n) t ht

end Coupling

end LineLisp
