/-
  LineLisp.Proofs.SetWarnings — the warnings of `set!` in whole runs. A `set!` looks its name up
  before it does anything else; what an earlier `define` or `set!` has bound it finds, since no
  operation unbinds a name or leads a scope elsewhere.
  - `SetsWarning` and `SetsSilently`: what a `set!` evaluates and attempts to write.
  - `Task.Binds.bound`: a `define` or `set!` that has come to a value has bound its name.
  - `set_warns_until_bound`: a `set!` warns once if its name is not bound and not at all if it
    is, and after a `define` or `set!` of the name in a scope none inside that scope warns.
-/

import LineLisp.Proofs.SinkCut
import LineLisp.Proofs.Succession

namespace LineLisp

/-! ## Bound names -/

namespace Heap

/-- The scope binds the name itself. -/
def BindsIn (h : Heap) (scope : ScopeId) (name : String) : Prop :=
  ∃ f, h.frames[scope]? = some f ∧ f.contains name = true

/-- What the scope's own frame binds the name to. -/
def own? (h : Heap) (scope : ScopeId) (name : String) : Option Value := h.frames[scope]?.bind (·.get? name)

theorem bindsIn_iff {h : Heap} {scope : ScopeId} {name : String} :
    h.BindsIn scope name ↔ h.own? scope name ≠ none := by
  cases hf : h.frames[scope]? with
  | none => simp [BindsIn, own?, hf]
  | some f => simp [BindsIn, own?, hf, Frame.contains_eq_isSome, Option.isSome_iff_ne_none]

/-- A definition changes what one scope binds one name to. -/
theorem own?_define (h : Heap) (scope id : ScopeId) (name x : String) (v : Value) :
    (h.define scope name v).own? id x =
      if id = scope ∧ x = name ∧ scope < h.frames.size then some v else h.own? id x := by
  rw [own?, own?, frames_define]
  by_cases hid : id = scope
  · subst hid
    by_cases hsize : id < h.frames.size
    · by_cases hx : x = name <;> simp [hx, hsize, Frame.get?_define]
    · simp [hsize]
  · rw [if_neg fun heq => hid heq.symm, if_neg fun hall => hid hall.1]

/-- A name is bound from a scope if one of those binds it to which the links lead. -/
theorem Chain.contains_iff {h : Heap} (hw : h.WellFormed) {scope : ScopeId} {ids : List ScopeId}
    (hc : h.Chain scope ids) {name : String} :
    h.contains scope name = true ↔ ∃ i ∈ ids, h.BindsIn i name := by
  have hbinds {id : ScopeId} {f : Frame} (hf : h.frames[id]? = some f) : h.BindsIn id name ↔ f.contains name = true :=
    ⟨fun ⟨f', hf', hn⟩ => Option.some.inj (hf.symm.trans hf') ▸ hn, fun hn => ⟨f, hf, hn⟩⟩
  induction hc with
  | outermost hlink =>
    obtain ⟨f, hf, ho⟩ := link_eq_some_iff.mp hlink
    simp [hw.linked.contains_eq name hf, ho, hbinds hf]
  | inside hlink _ ih =>
    obtain ⟨f, hf, ho⟩ := link_eq_some_iff.mp hlink
    simp [hw.linked.contains_eq name hf, ho, hbinds hf, ih]

theorem Extends.bindsIn {h h' : Heap} (hext : h.Extends h') {scope : ScopeId} {name : String}
    (hb : h.BindsIn scope name) : h'.BindsIn scope name := by
  obtain ⟨f, hf, hn⟩ := hb
  obtain ⟨f', hf', -, hn'⟩ := hext.extended scope f hf
  exact ⟨f', hf', hn' name hn⟩

theorem bindsIn_define {h : Heap} {scope : ScopeId} (hs : scope < h.frames.size) (name : String) (v : Value) :
    (h.define scope name v).BindsIn scope name := by
  refine ⟨h.frames[scope].define name v, ?_, ?_⟩
  · rw [frames_define, if_pos rfl, Array.getElem?_eq_getElem hs]
    rfl
  · rw [Frame.contains_eq_isSome, Frame.get?_define, if_pos rfl]
    rfl

end Heap

/-! ## One `set!` -/

variable {settings : Settings}

/-- The evaluation of a `set!` of a name to what its right side is. -/
def Task.setting (name : String) (right : Value) (surplus : List Value) (scope : ScopeId) (m : Machine) : Task :=
  ⟨.form .assign (.symbol name :: right :: surplus), scope, m⟩

/-- What `set!` does apart from warning: it evaluates its right side and binds its name. -/
def Form.setTo (settings : Settings) (k : Nat) (name : String) (right : Value) (scope : ScopeId) : Eval Value := do
  let value ← evaluateWithin settings k right (settings.readScope scope)
  Eval.define scope name value
  return value

/-- The `set!` attempts to write nothing itself. -/
structure SetsSilently (settings : Settings) (name : String) (right : Value) (surplus : List Value) (scope : ScopeId)
    (m : Machine) : Prop where
  within (k : Nat) :
    (Task.setting name right surplus scope m).within settings k = Form.setTo settings k name right scope m
  attempts (line : String) (m' : Machine) :
    Attempts settings (.setting name right surplus scope m) line m' ↔
      Attempts settings ⟨right, settings.readScope scope, m⟩ line m'

/-- The `set!` attempts itself to write the warning, once and before its right side is evaluated, and
    nothing else. -/
structure SetsWarning (settings : Settings) (name : String) (right : Value) (surplus : List Value) (scope : ScopeId)
    (m : Machine) : Prop where
  within (k : Nat) :
    (Task.setting name right surplus scope m).within settings k = (do
      Run.note (.undefinedVariable name)
      Eval.emit ("WARNING: setting undefined variable '" ++ name ++ "'")
      Form.setTo settings k name right scope : Eval Value) m
  attempts (line : String) (m' : Machine) :
    Attempts settings (.setting name right surplus scope m) line m' ↔
      line = "WARNING: setting undefined variable '" ++ name ++ "'" ∧
          m' = { m with log := m.log.push (.undefinedVariable name) } ∨
      ∃ m₁, Eval.emit ("WARNING: setting undefined variable '" ++ name ++ "'")
            { m with log := m.log.push (.undefinedVariable name) } = .ok () m₁ ∧
        Attempts settings ⟨right, settings.readScope scope, m₁⟩ line m'

section Setting

variable {name : String} {right : Value} {surplus : List Value} {scope : ScopeId} {m : Machine}

theorem Task.within_setting (k : Nat) :
    (setting name right surplus scope m).within settings k =
      (Form.warn scope name >>= fun _ => Form.setTo settings k name right scope) m := by
  have hsymbol : Form.symbol .assign (.symbol name) = pure name := rfl
  rw [Task.within, setting, evaluateWithin_form, Form.special, Form.assign_eq, Form.operand_map (by rfl), pure_bind,
    Operand.tree_within, hsymbol, pure_bind, Form.operand_map (by rfl), pure_bind]
  rfl

/-- What a `set!` attempts to write is its warning or is written on the right side. -/
theorem attempts_setting_iff {line : String} {m' : Machine} :
    Attempts settings (.setting name right surplus scope m) line m' ↔
      m.heap.contains scope name = false ∧ line = "WARNING: setting undefined variable '" ++ name ++ "'" ∧
          m' = { m with log := m.log.push (.undefinedVariable name) } ∨
      ∃ m₁, Form.warn scope name m = .ok () m₁ ∧ Attempts settings ⟨right, settings.readScope scope, m₁⟩ line m' := by
  constructor
  · intro h
    generalize ht : Task.setting name right surplus scope m = t at h
    cases h with
    | warning hname _ hbound =>
      obtain ⟨htree, rfl, rfl⟩ := Task.mk.inj ht
      obtain ⟨-, rfl⟩ := Value.form_injective htree
      cases hname
      exact .inl ⟨hbound, rfl, rfl⟩
    | output => cases (Value.form_injective (Task.mk.inj ht).1).1
    | inner hb h =>
      subst ht
      obtain ⟨_, _, m₁, hname, hright, hw, rfl⟩ := hb.of_form
      cases hname
      cases hright
      exact .inr ⟨m₁, hw, h⟩
  · rintro (⟨hbound, rfl, rfl⟩ | ⟨m₁, hw, h⟩)
    · exact .warning rfl rfl hbound
    · exact .inner (.assignment rfl rfl hw) h

/-- Without a right side a `set!` attempts to write nothing. -/
theorem not_attempts_without_right {line : String} {m' : Machine} :
    ¬ Attempts settings ⟨.form .assign [.symbol name], scope, m⟩ line m' := by
  intro h
  generalize ht : (⟨.form .assign [.symbol name], scope, m⟩ : Task) = t at h
  cases h with
  | warning _ hright _ =>
    obtain ⟨-, rfl⟩ := Value.form_injective (Task.mk.inj ht).1
    cases hright
  | output => cases (Value.form_injective (Task.mk.inj ht).1).1
  | inner hb _ =>
    subst ht
    obtain ⟨_, _, _, -, hright, -⟩ := hb.of_form
    cases hright

theorem setsSilently_of_bound (hbound : m.heap.contains scope name = true) :
    SetsSilently settings name right surplus scope m := by
  have hwarn : Form.warn scope name m = .ok () m := by rw [Form.warn_apply, if_pos hbound]
  constructor
  case within =>
    intro k
    rw [Task.within_setting, Run.bind_of_ok hwarn]
  case attempts =>
    intro line m'
    simp [attempts_setting_iff, hbound, hwarn]

theorem setsWarning_of_not_bound (hbound : m.heap.contains scope name = false) :
    SetsWarning settings name right surplus scope m := by
  have hwarn : Form.warn scope name m = Eval.emit ("WARNING: setting undefined variable '" ++ name ++ "'")
      { m with log := m.log.push (.undefinedVariable name) } := by
    rw [Form.warn_apply, hbound, if_neg Bool.false_ne_true]
  constructor
  case within =>
    intro k
    have hnote : (Run.note (.undefinedVariable name) : Eval Unit) m =
        .ok () { m with log := m.log.push (.undefinedVariable name) } := rfl
    rw [Task.within_setting, Run.bind_of_ok hnote, Run.bind_apply, Run.bind_apply, hwarn]
  case attempts =>
    intro line m'
    simp [attempts_setting_iff, hbound, hwarn]

end Setting

/-! ## After a definition -/

/-- The evaluation is of a `define` or `set!` of the name, in this scope, and comes to a value. -/
inductive Task.Binds (settings : Settings) : Task → String → ScopeId → Prop
  | define {name : String} {operands : List Value} {scope : ScopeId} {m m' : Machine} {v : Value} :
      Evaluates settings (.form .define (.symbol name :: operands)) scope m (.ok v m') →
        Binds settings ⟨.form .define (.symbol name :: operands), scope, m⟩ name scope
  | assign {name : String} {operands : List Value} {scope : ScopeId} {m m' : Machine} {v : Value} :
      Evaluates settings (.form .assign (.symbol name :: operands)) scope m (.ok v m') →
        Binds settings ⟨.form .assign (.symbol name :: operands), scope, m⟩ name scope

/-- To bind a name to a value that was found leaves the name bound. -/
theorem Form.setTo_binds {k : Nat} {name : String} {e v : Value} {read scope : ScopeId} {m m' : Machine}
    (hs : scope < m.heap.frames.size)
    (h : (evaluateWithin settings k e read >>= fun value => Eval.define scope name value >>= fun _ => pure value) m =
      .ok v m') : m'.heap.BindsIn scope name := by
  obtain ⟨_, m₁, he, h⟩ := Run.bind_eq_ok h
  cases h
  exact Heap.bindsIn_define ((Evaluates.of_ok he).extends.lt_size hs) name v

/-- A `define` that comes to a value has evaluated its operand and bound its name. -/
theorem Form.define_eq_ok {k : Nat} {name : String} {operands : List Value} {scope : ScopeId} {m m' : Machine}
    {v : Value}
    (h : evaluateWithin settings k (.form .define (.symbol name :: operands)) scope m = .ok v m') :
    ∃ e, operands[0]? = some e ∧ (evaluateWithin settings k e scope >>= fun value =>
      Eval.define scope name value >>= fun _ => pure value) m = .ok v m' := by
  have hsymbol : symbol .define (.symbol name) = pure name := rfl
  rw [evaluateWithin_form, special, define, operand_map (by rfl), pure_bind, Operand.tree_within, hsymbol,
    pure_bind] at h
  cases operands with
  | nil => cases h
  | cons e surplus =>
    rw [operand_map (by rfl), pure_bind] at h
    exact ⟨e, rfl, h⟩

/-- A `set!` that comes to a value has warned where it must before that. -/
theorem Form.assign_eq_ok {k : Nat} {name : String} {operands : List Value} {scope : ScopeId} {m m' : Machine}
    {v : Value}
    (h : evaluateWithin settings k (.form .assign (.symbol name :: operands)) scope m = .ok v m') :
    ∃ e m₁, operands[0]? = some e ∧ warn scope name m = .ok () m₁ ∧ setTo settings k name e scope m₁ = .ok v m' := by
  cases operands with
  | nil =>
    have hsymbol : symbol .assign (.symbol name) = pure name := rfl
    rw [evaluateWithin_form, special, assign_eq, operand_map (by rfl), pure_bind, Operand.tree_within, hsymbol,
      pure_bind] at h
    cases h
  | cons e surplus =>
    obtain ⟨_, m₁, hw, h⟩ := Run.bind_eq_ok ((Task.within_setting k).symm.trans h)
    exact ⟨e, m₁, rfl, hw, h⟩

/-- A `define` or `set!` that has come to a value has left its name bound in its scope. -/
theorem Task.Binds.bound {t : Task} {name : String} {scope : ScopeId} (h : t.Binds settings name scope) (ht : t.Valid)
    {r : Outcome EvalError Value} (hr : t.Ends settings r) : r.machine.heap.BindsIn scope name := by
  cases h with
  | define hv =>
    obtain rfl := hr.unique hv
    obtain ⟨⟨k, hk⟩, -⟩ := hv
    obtain ⟨e, -, hk⟩ := Form.define_eq_ok hk
    exact Form.setTo_binds ht.scope hk
  | assign hv =>
    obtain rfl := hr.unique hv
    obtain ⟨⟨k, hk⟩, -⟩ := hv
    obtain ⟨e, m₁, -, hw, hk⟩ := Form.assign_eq_ok hk
    exact Form.setTo_binds (Form.warn_heap hw ▸ ht.scope) hk

/-! ## Whole runs -/

/-- From every state that is reached, in every run: a `set!` attempts to write its warning, once and
    before its right side is evaluated, if no scope binds its name to which the links lead from its own;
    otherwise, or without a right side, it attempts to write nothing itself. After a `define` or `set!`
    of a name has come to a value in a scope, no `set!` of the name that is evaluated later warns in
    that scope or in one from which the links lead there. -/
theorem set_warns_until_bound {m : Machine} (hm : m.Reachable) (settings : Settings) {op : Operation}
    (hop : op.Valid m) :
    (∀ cs name right surplus scope m₁, op.Runs settings m cs (.setting name right surplus scope m₁) →
      ∃ ids, m₁.heap.Chain scope ids ∧
        ((∀ i ∈ ids, ¬ m₁.heap.BindsIn i name) ∧ SetsWarning settings name right surplus scope m₁ ∨
          (∃ i ∈ ids, m₁.heap.BindsIn i name) ∧ SetsSilently settings name right surplus scope m₁)) ∧
    (∀ name scope m₁ line m', ¬ Attempts settings ⟨.form .assign [.symbol name], scope, m₁⟩ line m') ∧
    ∀ t name f settings' right surplus scope m₂ ids, t.Binds settings name f →
      op.Later settings m t settings' (.setting name right surplus scope m₂) → m₂.heap.Chain scope ids → f ∈ ids →
        SetsSilently settings' name right surplus scope m₂ := by
  refine ⟨fun cs name right surplus scope m₁ hruns => ?_, fun _ _ _ _ _ => not_attempts_without_right, ?_⟩
  · have hv := hruns.valid hm.wellFormed hop
    obtain ⟨ids, hids⟩ := hv.wellFormed.exists_chain hv.scope
    have hiff : m₁.heap.contains scope name = true ↔ ∃ i ∈ ids, m₁.heap.BindsIn i name :=
      hids.contains_iff hv.wellFormed
    refine ⟨ids, hids, ?_⟩
    cases hbound : m₁.heap.contains scope name with
    | false =>
      rw [hbound] at hiff
      exact .inl ⟨by simpa using hiff, setsWarning_of_not_bound hbound⟩
    | true => exact .inr ⟨hiff.mp hbound, setsSilently_of_bound hbound⟩
  · intro t name f settings' right surplus scope m₂ ids hbinds hlater hids hf
    obtain ⟨ht, ht₂⟩ := hlater.valid hm hop
    obtain ⟨r, hr, hext⟩ := hlater.extends
    have hbound : m₂.heap.BindsIn f name := hext.bindsIn (hbinds.bound ht hr)
    exact setsSilently_of_bound ((hids.contains_iff ht₂.wellFormed).mpr ⟨f, hf, hbound⟩)

/-- In the sum of two `set!`s of `n` the first one warns and the second one does not. -/
theorem set_warns_until_bound_sum :
    ∃ m : Machine, Operation.Later .standard (.initial none)
        (.evaluate (.list [.symbol "+", .form .assign [.symbol "n", .int 1], .form .assign [.symbol "n", .int 2]])
          Heap.globalScope)
        (.setting "n" (.int 1) [] Heap.globalScope (.initial none)) .standard
        (.setting "n" (.int 2) [] Heap.globalScope m) ∧
      SetsWarning .standard "n" (.int 1) [] Heap.globalScope (.initial none) ∧
        SetsSilently .standard "n" (.int 2) [] Heap.globalScope m ∧
        m.sink.lines = #["WARNING: setting undefined variable 'n'"] := by
  have hform (n : Int32) : Value.Within 1 (.form .assign [.symbol "n", .int n]) :=
    .list (by simpa using ⟨.symbol _, .symbol _, .number _⟩)
  have hvalid : Operation.Valid (.initial none) (.evaluate (.list [.symbol "+", .form .assign [.symbol "n", .int 1],
      .form .assign [.symbol "n", .int 2]]) Heap.globalScope) :=
    .evaluate (.list (by simpa using ⟨.symbol _, hform 1, hform 2⟩)) Nat.one_pos
  obtain ⟨hsets, -, hlater⟩ := set_warns_until_bound (.initial none) .standard hvalid
  have hpart : HasPart .standard ⟨.list [.symbol "+", .form .assign [.symbol "n", .int 1],
      .form .assign [.symbol "n", .int 2]], Heap.globalScope, .initial none⟩
      (.setting "n" (.int 1) [] Heap.globalScope (.initial none)) := .operand rfl rfl (.nil _)
  obtain ⟨ids, hids, ⟨-, hwarning⟩ | ⟨⟨i, -, f, hf, hn⟩, -⟩⟩ :=
    hsets _ "n" (.int 1) [] _ _ (.evaluate (.part .start hpart))
  · have hrest (global : Frame) (line : String) : (do
        Run.note (.undefinedVariable "n")
        Eval.emit line
        Form.setTo .standard 0 "n" (.int 1) Heap.globalScope : Eval Value) ⟨⟨#[global], 0⟩, 0, .empty none, #[]⟩ =
        .ok (.int 1) ⟨⟨#[global.define "n" (.int 1)], 0⟩, 0, ⟨#[line], none⟩, #[.undefinedVariable "n"]⟩ := rfl
    have hfirst : Evaluates .standard (.form .assign [.symbol "n", .int 1]) Heap.globalScope (.initial none) _ :=
      .of_ok ((hwarning.within 0).trans (hrest .global _))
    have hnext : Next .standard ⟨.list [.symbol "+", .form .assign [.symbol "n", .int 1],
        .form .assign [.symbol "n", .int 2]], Heap.globalScope, .initial none⟩
        (.setting "n" (.int 1) [] Heap.globalScope (.initial none)) _ :=
      @Next.operand .standard "+" [] [] [] [] _ _ _ _ _ _ (.form .assign [.symbol "n", .int 2]) rfl (.nil _)
        (.cons hfirst (.nil _))
    have hsecond := Operation.Later.same (.parts (.evaluate .start) hnext .start .start)
    have hsilent := hlater _ "n" Heap.globalScope _ _ _ _ _ _ (.assign hfirst) hsecond (.outermost rfl)
      List.mem_cons_self
    exact ⟨_, hsecond, hwarning, hsilent, by decide⟩
  · have hglobal : f ∈ #[Frame.global] := Array.mem_of_getElem? hf
    rw [Array.mem_singleton.mp hglobal] at hn
    exact absurd hn (by decide)

end LineLisp
