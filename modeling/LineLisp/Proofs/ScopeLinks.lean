/-
  LineLisp.Proofs.ScopeLinks — where the links between scopes lead. A scope is linked to the one
  around it, which was made before it; closures are linked to the scopes that they were made in,
  and may be bound there, but no look-up follows those links.
  - `Heap.WellFormed.linked`: from every scope the links lead outward to one that stands inside
    none, and look-ups follow them to the end.
  - `Moment.Leads.link`: what an operation does to links is to make those of the calls that it
    enters; a link that was made stays.
  - `Operation.Runs.valid`: every evaluation in an operation begins in a well-formed heap.
  - `scopes_stay_linked`: in every state that is reached, and at every evaluation on the way to
    the next one, the links are sound.
-/

import LineLisp.Proofs.DepthLimit
import LineLisp.Proofs.Moments
import LineLisp.Proofs.Termination

namespace LineLisp

/-! ## Links -/

namespace Heap

/-- The scope around a scope, if there is one; nothing at all if the scope does not exist. -/
def link (h : Heap) (id : ScopeId) : Option (Option ScopeId) := h.frames[id]?.map Frame.outer

/-- The links lead from a scope through these to one that stands inside none. -/
inductive Chain (h : Heap) : ScopeId → List ScopeId → Prop
  | outermost {id : ScopeId} : h.link id = some none → Chain h id [id]
  | inside {id outer : ScopeId} {ids : List ScopeId} : h.link id = some (some outer) → Chain h outer ids →
      Chain h id (id :: ids)

/-- Every link leads to a scope that was made earlier, none leads on from the global scope, and
    look-ups take one link after the other until there is none. -/
structure Linked (h : Heap) : Prop where
  global : h.link globalScope = some none
  outer {id outer : ScopeId} : h.link id = some (some outer) → outer < id ∧ outer < h.frames.size
  captured {id : ScopeId} {f : Frame} {b : String × Value} : h.frames[id]? = some f → b ∈ f.bindings →
    b.2.Within h.frames.size
  chain {id : ScopeId} : id < h.frames.size → ∃ ids, h.Chain id ids ∧ ids.Pairwise (· > ·)
  get?_eq {id : ScopeId} {f : Frame} (name : String) : h.frames[id]? = some f →
    h.get? id name = (f.get? name).or (f.outer.bind (h.get? · name))
  contains_eq {id : ScopeId} {f : Frame} (name : String) : h.frames[id]? = some f →
    h.contains id name = (f.contains name || f.outer.any (h.contains · name))
  names_eq {id : ScopeId} {f : Frame} : h.frames[id]? = some f → h.names id = f.names ++ f.outer.elim [] h.names

theorem link_eq_some_iff {h : Heap} {id : ScopeId} {outer : Option ScopeId} :
    h.link id = some outer ↔ ∃ f, h.frames[id]? = some f ∧ f.outer = outer :=
  Option.map_eq_some_iff

theorem link_eq_none_iff {h : Heap} {id : ScopeId} : h.link id = none ↔ h.frames.size ≤ id :=
  Option.map_eq_none_iff.trans Array.getElem?_eq_none_iff

theorem link_define (h : Heap) (scope id : ScopeId) (name : String) (v : Value) :
    (h.define scope name v).link id = h.link id := by
  rw [link, frames_define]
  split
  · rw [Option.map_map]
    rfl
  · rfl

theorem link_push (h : Heap) (f : Frame) (id : ScopeId) :
    (h.push f).2.link id = if id = h.frames.size then some f.outer else h.link id := by
  rw [link, push, Array.getElem?_push]
  split <;> rfl

theorem Chain.le {h : Heap} (hn : h.Nested) {id : ScopeId} {ids : List ScopeId} (hc : h.Chain id ids) :
    ∀ i ∈ ids, i ≤ id := by
  induction hc with
  | outermost => simp
  | inside hlink _ ih =>
    obtain ⟨f, hf, ho⟩ := link_eq_some_iff.mp hlink
    have := hn.outer hf ho
    simp only [List.mem_cons, forall_eq_or_imp, Nat.le_refl, true_and]
    exact fun i hi => (ih i hi).trans (Nat.le_of_lt this)

theorem Chain.descends {h : Heap} (hn : h.Nested) {id : ScopeId} {ids : List ScopeId} (hc : h.Chain id ids) :
    ids.Pairwise (· > ·) := by
  induction hc with
  | outermost => exact List.pairwise_singleton _ _
  | inside hlink hc ih =>
    obtain ⟨f, hf, ho⟩ := link_eq_some_iff.mp hlink
    exact .cons (fun i hi => Nat.lt_of_le_of_lt (hc.le hn i hi) (hn.outer hf ho)) ih

namespace Nested

variable {h : Heap} (hn : h.Nested)

include hn

/-- The links from a scope that exists lead to an end. -/
theorem exists_chain {id : ScopeId} (hid : id < h.frames.size) : ∃ ids, h.Chain id ids := by
  induction id using Nat.strongRecOn with
  | _ id ih =>
    have hf := Array.getElem?_eq_getElem hid
    cases ho : h.frames[id].outer with
    | none => exact ⟨[id], .outermost (link_eq_some_iff.mpr ⟨_, hf, ho⟩)⟩
    | some outer =>
      have hlt := hn.outer hf ho
      obtain ⟨ids, hids⟩ := ih outer hlt (Nat.lt_trans hlt hid)
      exact ⟨id :: ids, .inside (link_eq_some_iff.mpr ⟨_, hf, ho⟩) hids⟩

variable {id : ScopeId} {f : Frame}

theorem chain_eq_cons (hf : h.frames[id]? = some f) : h.chain id = f :: f.outer.elim [] h.chain := by
  rw [hn.chain_eq, hf]
  rfl

theorem get?_eq (hf : h.frames[id]? = some f) (name : String) :
    h.get? id name = (f.get? name).or (f.outer.bind (h.get? · name)) := by
  rw [get?, hn.chain_eq_cons hf, List.findSome?_cons]
  cases f.get? name <;> cases f.outer <;> rfl

theorem contains_eq (hf : h.frames[id]? = some f) (name : String) :
    h.contains id name = (f.contains name || f.outer.any (h.contains · name)) := by
  rw [contains, hn.chain_eq_cons hf, List.any_cons]
  cases f.outer <;> rfl

theorem names_eq (hf : h.frames[id]? = some f) : h.names id = f.names ++ f.outer.elim [] h.names := by
  rw [names, hn.chain_eq_cons hf, List.flatMap_cons]
  cases f.outer <;> rfl

end Nested

theorem WellFormed.exists_chain {h : Heap} (hw : h.WellFormed) {id : ScopeId} (hid : id < h.frames.size) :
    ∃ ids, h.Chain id ids :=
  hw.nested.exists_chain hid

/-- In a well-formed heap the links are sound. -/
theorem WellFormed.linked {h : Heap} (hw : h.WellFormed) : h.Linked := by
  constructor
  case global =>
    refine link_eq_some_iff.mpr ⟨_, Array.getElem?_eq_getElem hw.nonempty, ?_⟩
    -- A scope around the global one would be earlier than the first.
    exact Option.eq_none_iff_forall_ne_some.mpr fun o ho =>
      Nat.not_lt_zero o (hw.outer (Array.getElem?_eq_getElem hw.nonempty) ho)
  case outer =>
    intro id outer hlink
    obtain ⟨f, hf, ho⟩ := link_eq_some_iff.mp hlink
    have hlt := hw.outer hf ho
    exact ⟨hlt, Nat.lt_trans hlt (Array.getElem?_eq_some_iff.mp hf).1⟩
  case captured => exact hw.within
  case chain =>
    intro id hid
    obtain ⟨ids, hids⟩ := hw.exists_chain hid
    exact ⟨ids, hids, hids.descends hw.nested⟩
  case get?_eq => exact fun name hf => hw.nested.get?_eq hf name
  case contains_eq => exact fun name hf => hw.nested.contains_eq hf name
  case names_eq => exact fun hf => hw.nested.names_eq hf

end Heap

/-! ## Links of calls -/

namespace Moment

variable {settings : Settings} {E : List Call → Call → Prop} {x y : Moment}

/-- A step leaves a link as it is, or makes that of a call's scope. -/
theorem Step.link (h : Step settings E x y) (id : ScopeId) :
    y.machine.heap.link id = x.machine.heap.link id ∨
      x.machine.heap.link id = none ∧
        ∃ cs c, E cs c ∧ c.scope = id ∧ y.machine.heap.link id = some (some c.outer) := by
  cases h with
  | note => exact .inl rfl
  | write => exact .inl rfl
  | define scope name v => exact .inl (Heap.link_define ..)
  | makeClosure => exact .inl rfl
  | leave => exact .inl rfl
  | @enter cs c m args hc _ hscope =>
    have hpush := m.heap.link_push (.ofBindings (some c.outer) (c.params.zip args)) id
    by_cases hid : id = m.heap.frames.size
    · rw [if_pos hid, Frame.outer_ofBindings] at hpush
      exact .inr ⟨Heap.link_eq_none_iff.mpr (Nat.le_of_eq hid.symm), cs, c, hc, hscope.trans hid.symm, hpush⟩
    · rw [if_neg hid] at hpush
      exact .inl hpush

/-- A link that was made stays. -/
theorem Step.link_eq (h : Step settings E x y) {id : ScopeId} {outer : Option ScopeId}
    (hlink : x.machine.heap.link id = some outer) : y.machine.heap.link id = some outer := by
  rcases h.link id with heq | ⟨hnone, -⟩
  · rw [heq, hlink]
  · rw [hlink] at hnone
    cases hnone

theorem Leads.link_eq (h : Leads settings E x y) {id : ScopeId} {outer : Option ScopeId}
    (hlink : x.machine.heap.link id = some outer) : y.machine.heap.link id = some outer := by
  induction h with
  | refl => exact hlink
  | tail _ hstep ih => exact hstep.link_eq ih

/-- The links that are made are those of the scopes of calls. -/
theorem Leads.link (h : Leads settings E x y) {id : ScopeId} (hnone : x.machine.heap.link id = none)
    {outer : Option ScopeId} (hlink : y.machine.heap.link id = some outer) :
    ∃ cs c, E cs c ∧ c.scope = id ∧ outer = some c.outer := by
  induction h generalizing outer with
  | refl =>
    rw [hnone] at hlink
    cases hlink
  | tail _ hstep ih =>
    rcases hstep.link id with heq | ⟨-, cs, c, hc, hid, hmade⟩
    · exact ih (heq ▸ hlink)
    · exact ⟨cs, c, hc, hid, Option.some.inj (hlink.symm.trans hmade)⟩

/-- The calls that are active have scopes inside those that their closures were made in. -/
def Scoped (x : Moment) : Prop := ∀ c ∈ x.calls, x.machine.heap.link c.scope = some (some c.outer)

theorem Scoped.step (hx : x.Scoped) (h : Step settings E x y) : y.Scoped := by
  intro c hc
  cases h with
  | note => exact hx c hc
  | write => exact hx c hc
  | define scope name v => exact (Heap.link_define ..).trans (hx c hc)
  | makeClosure => exact hx c hc
  | leave => exact hx c (List.mem_cons_of_mem _ hc)
  | @enter cs c' m args hc' hnumber hscope hlen henter =>
    rcases List.mem_cons.mp hc with rfl | hc
    · rw [hscope]
      refine (m.heap.link_push _ _).trans ?_
      rw [if_pos rfl, Frame.outer_ofBindings]
    · exact (Step.enter hc' hnumber hscope hlen henter).link_eq (hx c hc)

theorem Scoped.leads (hx : x.Scoped) (h : Leads settings E x y) : y.Scoped := by
  induction h with
  | refl => exact hx
  | tail _ hstep ih => exact ih.step hstep

end Moment

/-! ## Operations -/

namespace Operation

/-- What is evaluated or applied is at home in the heap. -/
inductive Valid (m : Machine) : Operation → Prop
  | evaluate {tree : Value} {scope : ScopeId} : tree.Within m.heap.frames.size → scope < m.heap.frames.size →
      Valid m (.evaluate tree scope)
  | apply {p : Procedure} {name : String} {args : List Value} : p.Within m.heap.frames.size →
      (∀ a ∈ args, a.Within m.heap.frames.size) → Valid m (.apply p name args)
  | line (text : String) : Valid m (.line text)

end Operation

variable {settings : Settings} {m m' : Machine} {op : Operation}

theorem Inside.valid {t t' : Task} {cs : List Call} (h : Inside settings t cs t') (hv : t.Valid) : t'.Valid := by
  induction h with
  | start => exact hv
  | part _ hp ih => exact hp.1.valid ih
  | body _ he ih => exact he.begins.valid ih

/-- The evaluation of a tree that was read, in the global scope. -/
theorem Task.valid_of_read {r : Reader} {tree : Value} (hread : r.read.1 = .ok tree) (hm : m.heap.WellFormed) :
    Task.Valid ⟨tree, Heap.globalScope, m⟩ :=
  ⟨hm, Reader.read_within hread _, hm.nonempty⟩

theorem Line.Reaches.wellFormed {text : String} {r : Reader} (hm : m.heap.WellFormed)
    (h : Reaches settings text m r m') : m'.heap.WellFormed := by
  induction h with
  | start hw =>
    rw [Eval.emit_heap hw]
    exact hm
  | next _ hread hrun _ ih =>
    obtain ⟨_, m₁, hw, hrun⟩ := Run.bind_eq_ok hrun
    obtain ⟨v, m₂, hv, hrun⟩ := Run.bind_eq_ok hrun
    have hm₁ := Task.valid_of_read hread (m := m₁) (Eval.emit_heap hw ▸ ih)
    rw [Eval.emit_heap hrun]
    exact ((Evaluates.of_ok hv).follows hm₁.wellFormed hm₁.tree hm₁.scope).1.wellFormed

theorem Line.Begins.valid {text : String} {t : Task} (hm : m.heap.WellFormed) (h : Begins settings text m t) :
    t.Valid := by
  cases h with
  | tree hreach hread hw => exact Task.valid_of_read hread (Eval.emit_heap hw ▸ hreach.wellFormed hm)

/-- Every evaluation in an operation begins in a well-formed heap. -/
theorem Operation.Runs.valid {cs : List Call} {t : Task} (hm : m.heap.WellFormed) (hop : op.Valid m)
    (h : Runs settings m op cs t) : t.Valid := by
  cases h with
  | evaluate hin =>
    cases hop with
    | evaluate ht hs => exact hin.valid ⟨hm, ht, hs⟩
  | apply hlen henter hin =>
    cases hop with
    | apply hp hargs =>
      obtain ⟨v, hv, hclosure⟩ := hp
      obtain ⟨id, rfl⟩ := Value.eq_closure hv
      exact hin.valid (.entered hm hclosure hargs)
  | line hbegins hin => exact hin.valid (hbegins.valid hm)

theorem Operation.Ends.reachable (hm : m.Reachable) (hop : op.Valid m) (h : Ends settings m op m') : m'.Reachable := by
  cases h with
  | evaluate he =>
    cases hop with
    | evaluate ht hs => exact .evaluate hm ht hs he
  | apply ha =>
    cases hop with
    | apply hp hargs => exact .apply hm hp hargs ha
  | line hr hfin => exact .line hm hr hfin

/-- A call is of the closure that its name is bound to where the form begins, or of the one that
    is applied. -/
theorem Operation.Enters.captured {cs : List Call} {c : Call} (h : Enters settings m op cs c) :
    (∃ operands scope m₁ id, Runs settings m op cs ⟨.list (.symbol c.name :: operands), scope, m₁⟩ ∧
      m₁.heap.get? scope c.name = some (.closure id c.params c.body c.outer)) ∨
    cs = [] ∧ ∃ args, op = .apply (.closure c.params c.body c.outer) c.name args := by
  cases h with
  | applied => exact .inr ⟨rfl, _, rfl⟩
  | inside hruns he =>
    cases he with
    | call _ hf => exact .inl ⟨_, _, _, _, hruns, hf⟩

/-- In an operation that begins in a machine all links are sound, from evaluation to evaluation
    and however these end. -/
structure Operation.KeepsLinks (settings : Settings) (m : Machine) (op : Operation) : Prop where
  /-- Where an evaluation begins, the heap is sound and the tree and the scope are at home in it. -/
  begins {cs : List Call} {t : Task} : Runs settings m op cs t → t.machine.heap.Linked ∧ t.Valid
  /-- Where it ends, so is the heap, and a value is at home in it. -/
  result {cs : List Call} {t : Task} {r : Outcome EvalError Value} : Runs settings m op cs t →
    Evaluates settings t.tree t.scope t.machine r →
      r.machine.heap.Linked ∧ ∀ v m', r = .ok v m' → v.Within m'.heap.frames.size
  /-- So are the arguments of an application. -/
  arguments {cs : List Call} {name : String} {operands args : List Value} {scope : ScopeId} {m₁ m₂ : Machine} :
    Runs settings m op cs ⟨.list (.symbol name :: operands), scope, m₁⟩ →
      EvaluatesAll settings scope operands m₁ args m₂ →
        m₂.heap.Linked ∧ ∀ a ∈ args, a.Within m₂.heap.frames.size
  /-- The scope of a call that is active stands inside the one that its closure was made in. -/
  active {cs : List Call} {c : Call} {t : Task} : Runs settings m op cs t → c ∈ cs →
    t.machine.heap.link c.scope = some (some c.outer)
  captured {cs : List Call} {c : Call} : Enters settings m op cs c →
    (∃ operands scope m₁ id, Runs settings m op cs ⟨.list (.symbol c.name :: operands), scope, m₁⟩ ∧
      m₁.heap.get? scope c.name = some (.closure id c.params c.body c.outer)) ∨
    cs = [] ∧ ∃ args, op = .apply (.closure c.params c.body c.outer) c.name args
  /-- Where the operation ends, the heap is sound, the links that there were are as before, and the
      others are those of the scopes of calls. -/
  ends {m' : Machine} : Ends settings m op m' → m'.heap.Linked
  kept {m' : Machine} {id : ScopeId} {outer : Option ScopeId} : Ends settings m op m' →
    m.heap.link id = some outer → m'.heap.link id = some outer
  made {m' : Machine} {id : ScopeId} {outer : Option ScopeId} : Ends settings m op m' → m.heap.link id = none →
    m'.heap.link id = some outer → ∃ cs c, Enters settings m op cs c ∧ c.scope = id ∧ outer = some c.outer
  /-- The value of an application is at home in the heap. -/
  applied {p : Procedure} {name : String} {args : List Value} {v : Value} {m' : Machine} :
    op = .apply p name args → Applies settings p name args m (.ok v m') → v.Within m'.heap.frames.size

/-- In every state that is reached the links between scopes are sound: they lead to scopes that
    were made earlier, in the end to one that stands inside none, and look-ups follow them to that
    end. They are so all the while an operation leads to the next state, whether it ends or not. -/
theorem scopes_stay_linked {m : Machine} (hm : m.Reachable) :
    m.heap.Linked ∧ ∀ (settings : Settings) (op : Operation), op.Valid m → op.KeepsLinks settings m := by
  have hw := hm.wellFormed
  refine ⟨hw.linked, fun settings op hop => ?_⟩
  constructor
  case begins =>
    intro cs t h
    have hv := h.valid hw hop
    exact ⟨hv.wellFormed.linked, hv⟩
  case result =>
    intro cs t r h he
    have hv := h.valid hw hop
    obtain ⟨⟨n, rfl⟩, -⟩ := he
    have hsound : Outcome.Sound _ (evaluateWithin settings n t.tree t.scope t.machine) :=
      evaluateWithin_sound hv.wellFormed n hv.tree hv.scope
    exact ⟨hsound.wellFormed.linked, fun _ _ hr => hsound.value hr⟩
  case arguments =>
    intro cs name operands args scope m₁ m₂ h hall
    have hv := h.valid hw hop
    obtain ⟨hfollows, hargs⟩ :=
      hall.follows hv.wellFormed (fun t ht => hv.tree.of_mem (List.mem_cons_of_mem _ ht)) hv.scope
    exact ⟨hfollows.wellFormed.linked, hargs⟩
  case active =>
    intro cs c t h hc
    have hstart : Moment.Scoped ⟨[], m⟩ := fun c hc => absurd hc List.not_mem_nil
    exact hstart.leads h.leads c hc
  case captured => exact fun h => h.captured
  case ends => exact fun h => (h.reachable hm hop).wellFormed.linked
  case kept => exact fun h hlink => h.leads.link_eq hlink
  case made => exact fun h hnone hlink => h.leads.link hnone hlink
  case applied =>
    intro p name args v m' hop' ha
    subst hop'
    cases hop with
    | apply hp hargs =>
      obtain ⟨⟨n, hn⟩, -⟩ := ha
      have hsound : Outcome.Sound _ (Procedure.applyWithin settings n p name args m) :=
        applyWithin_sound hw n name hp hargs
      exact hsound.value hn

/-- A closure that is bound in the scope that it was made in calls itself: the scopes of both its
    calls stand inside that one. -/
theorem scopes_stay_linked_recursion :
    (calling .global).Reachable ∧ Operation.Valid (calling .global) (.evaluate (.list [.symbol "f"]) 1) ∧
      (calling .global).heap.get? 1 "f" = some (.closure 0 [] (.list [.symbol "f"]) 1) ∧
      ∃ m', Operation.Ends ⟨true, some 2⟩ (calling .global) (.evaluate (.list [.symbol "f"]) 1) m' ∧
        m'.heap.Linked ∧ m'.heap.link 3 = some (some 1) ∧
          ∃ cs c, Operation.Enters ⟨true, some 2⟩ (calling .global) (.evaluate (.list [.symbol "f"]) 1) cs c ∧
            c.scope = 3 ∧ c.outer = 1 := by
  have hvalid : Operation.Valid (calling .global) (.evaluate (.list [.symbol "f"]) 1) :=
    .evaluate (.list (by simpa using .symbol "f")) (Nat.lt_succ_self 1)
  have hlinks := (scopes_stay_linked calling_reachable).2 ⟨true, some 2⟩ _ hvalid
  have hlink (global : Frame) : (Outcome.machine (evaluateWithin ⟨true, some 2⟩ 2 (.list [.symbol "f"]) 1
      (calling global))).heap.link 3 = some (some 1) := by cbv
  have hfin (global : Frame) : Outcome.Finished (evaluateWithin ⟨true, some 2⟩ 2 (.list [.symbol "f"]) 1
      (calling global)) := by cbv
  have hends : Operation.Ends ⟨true, some 2⟩ (calling .global) (.evaluate (.list [.symbol "f"]) 1) _ :=
    .evaluate ⟨⟨2, rfl⟩, hfin .global⟩
  have hbound (global : Frame) :
      (calling global).heap.get? 1 "f" = some (.closure 0 [] (.list [.symbol "f"]) 1) := by cbv
  obtain ⟨cs, c, hc, hscope, houter⟩ := hlinks.made hends rfl (hlink .global)
  exact ⟨calling_reachable, hvalid, hbound .global, _, hends, hlinks.ends hends, hlink .global, cs, c, hc, hscope,
    (Option.some.inj houter).symm⟩

end LineLisp
