/-
  LineLisp.Proofs.Discipline — what holds of evaluation because of the code that it meets. A
  discipline says which trees may be evaluated in which scope and which values they give; the
  trees inside a form, the closures that it makes and what `set!` evaluates elsewhere keep to it.
  It also says which bindings are shared: code names no others, so that two machines may differ
  in these.
  - `Discipline.evaluateWithin`: code ends alike in machines that are alike, under two settings
    that the discipline does not tell apart, and gives data.
  - `Discipline.run`: so does a line of which every tree is code.
  - `Discipline.Keeps.inside`: every evaluation inside one of code is one of code.
-/

import LineLisp.Proofs.ScopeLinks

namespace LineLisp

/-- What is evaluated where and which values it gives, under two settings. -/
structure Discipline (settings settings' : Settings) where
  /-- Trees that are evaluated in a scope. -/
  code : ScopeId → Value → Prop
  /-- Values that are given and bound. -/
  data : Value → Prop
  /-- Bindings, by their scopes and names, that are the same on both sides. -/
  shared : ScopeId → String → Bool
  sameDepth : settings.maxDepth = settings'.maxDepth
  elements {s : ScopeId} {ts : List Value} : code s (.list ts) → ∀ t ∈ ts, code s t
  constant {s : ScopeId} {t : Value} : code s t → t.IsConstant → data t
  quoted {s : ScopeId} {t : Value} {surplus : List Value} : code s (.form .quote (t :: surplus)) → data t
  assigned {s : ScopeId} {name : String} {e : Value} {surplus : List Value} :
    code s (.form .assign (.symbol name :: e :: surplus)) →
      settings.readScope s = settings'.readScope s ∧ code (settings.readScope s) e
  lambda {s : ScopeId} {names : List String} {body : Value} {surplus : List Value} (id : ClosureId) :
    code s (.form .lambda (.list (names.map .symbol) :: body :: surplus)) → data (.closure id names body s)
  /-- The body of a closure is code wherever it is called. -/
  body {id : ClosureId} {params : List String} {t : Value} {outer : ScopeId} (s : ScopeId) :
    data (.closure id params t outer) → code s t
  nil : data .nil
  result {p : Primitive} {args : List Value} {v : Value} : (∀ a ∈ args, data a) →
    p.result? args = some (.ok v) → data v
  /-- Code names shared bindings, whichever scope holds them. -/
  named {s : ScopeId} {name : String} : code s (.symbol name) → ∀ i, shared i name = true

theorem Settings.maxDepth_refl (settings : Settings) : settings.maxDepth = settings.maxDepth := rfl

/-! ## Frames -/

theorem lookup_filter {p : String → Bool} {name : String} (h : p name = true) (bs : List (String × Value)) :
    (bs.filter fun b => p b.1).lookup name = bs.lookup name := by
  induction bs with
  | nil => rfl
  | cons b bs ih =>
    rw [List.filter_cons]
    by_cases hb : name = b.1
    · rw [if_pos (hb ▸ h), List.lookup_cons, List.lookup_cons, hb, beq_self_eq_true]
    · have hne : (name == b.1) = false := beq_eq_false_iff_ne.mpr hb
      rw [List.lookup_cons (a := name), hne]
      split
      · rw [List.lookup_cons, hne, ih]
      · exact ih

/-- The value is bound to a name in some scope. -/
def Heap.Binds (h : Heap) (v : Value) : Prop :=
  ∃ (id : ScopeId) (f : Frame) (name : String), h.frames[id]? = some f ∧ (name, v) ∈ f.bindings

namespace Discipline

variable {settings settings' : Settings} (D : Discipline settings settings')

/-- Frames of one scope that stand inside the same one and have the same shared bindings, which are
    data. -/
structure FrameAlike (i : ScopeId) (f f' : Frame) : Prop where
  outer : f.outer = f'.outer
  bindings : (f.bindings.filter fun b => D.shared i b.1) = f'.bindings.filter fun b => D.shared i b.1
  data {b : String × Value} : b ∈ f.bindings → D.shared i b.1 = true → D.data b.2

/-- Machines that are the same but for bindings that are not shared. -/
structure Alike (m m' : Machine) : Prop where
  frames (i : ScopeId) : Option.Rel (D.FrameAlike i) m.heap.frames[i]? m'.heap.frames[i]?
  closures : m.heap.closures = m'.heap.closures
  depth : m.depth = m'.depth
  sink : m.sink = m'.sink
  log : m.log = m'.log

/-- Outcomes that are the same but for the machines, which are alike. -/
inductive Agree {ε α : Type} (P : α → Prop) : Outcome ε α → Outcome ε α → Prop
  | ok {a : α} {m m' : Machine} : P a → D.Alike m m' → Agree P (.ok a m) (.ok a m')
  | error (e : Stop ε) {m m' : Machine} : D.Alike m m' → Agree P (.error e m) (.error e m')

variable {D}

namespace FrameAlike

variable {i : ScopeId} {f f' : Frame}

theorem refl (hf : ∀ b ∈ f.bindings, D.shared i b.1 = true → D.data b.2) : D.FrameAlike i f f :=
  ⟨rfl, rfl, fun hb hshared => hf _ hb hshared⟩

theorem get?_eq (h : D.FrameAlike i f f') {name : String} (hname : D.shared i name = true) :
    f.get? name = f'.get? name := by
  unfold Frame.get?
  rw [← lookup_filter hname, h.bindings, lookup_filter hname]

theorem data_get? (h : D.FrameAlike i f f') {name : String} (hname : D.shared i name = true) {v : Value}
    (hv : f.get? name = some v) : D.data v := by
  obtain ⟨before, after, hbs, -⟩ := List.lookup_eq_some_iff.mp hv
  exact h.data (b := (name, v)) (by rw [hbs]; simp) hname

theorem define (h : D.FrameAlike i f f') (name : String) {v : Value} (hv : D.data v) :
    D.FrameAlike i (f.define name v) (f'.define name v) := by
  have swap (bs : List (String × Value)) :
      ((bs.filter fun b => b.1 ≠ name).filter fun b => D.shared i b.1) =
        (bs.filter fun b => D.shared i b.1).filter fun b => b.1 ≠ name := by
    rw [List.filter_filter, List.filter_filter]
    exact List.filter_congr fun b _ => Bool.and_comm _ _
  refine ⟨h.outer, ?_, fun {b} hb hshared => ?_⟩
  · show List.filter _ ((name, v) :: _) = List.filter _ ((name, v) :: _)
    rw [List.filter_cons, List.filter_cons, swap, swap, h.bindings]
  · rcases Frame.mem_define hb with rfl | hb
    · exact hv
    · exact h.data hb hshared

end FrameAlike

/-! ## Machines -/

namespace Alike

variable {m m' : Machine}

theorem size_eq (h : D.Alike m m') : m.heap.frames.size = m'.heap.frames.size := by
  have hnone (i : ScopeId) : m.heap.frames.size ≤ i ↔ m'.heap.frames.size ≤ i := by
    rw [← Array.getElem?_eq_none_iff, ← Array.getElem?_eq_none_iff]
    have hi := h.frames i
    generalize m.heap.frames[i]? = x at hi
    generalize m'.heap.frames[i]? = x' at hi
    cases hi <;> simp
  exact Nat.le_antisymm ((hnone _).mpr (Nat.le_refl _)) ((hnone _).mp (Nat.le_refl _))

/-- Look-ups pass alike frames. -/
theorem chain (h : D.Alike m m') (s : ScopeId) :
    List.Forall₂ (fun f f' => ∃ i, D.FrameAlike i f f') (m.heap.chain s) (m'.heap.chain s) := by
  induction s using Nat.strongRecOn with
  | _ s ih =>
    rw [Heap.chain, Heap.chain]
    have hs := h.frames s
    generalize m.heap.frames[s]? = x at hs
    generalize m'.heap.frames[s]? = x' at hs
    cases hs with
    | none => exact .nil
    | @some f f' hf =>
      refine .cons ⟨s, hf⟩ ?_
      rw [← hf.outer]
      cases f.outer with
      | none => exact .nil
      | some outer =>
        by_cases hlt : outer < s
        · simpa only [if_pos hlt] using ih outer hlt
        · simpa only [if_neg hlt] using .nil

theorem get? (h : D.Alike m m') {s : ScopeId} {name : String} (hname : ∀ i, D.shared i name = true) :
    m.heap.get? s name = m'.heap.get? s name ∧ ∀ v, m.heap.get? s name = some v → D.data v := by
  unfold Heap.get?
  have hchain := h.chain s
  generalize m.heap.chain s = fs at hchain
  generalize m'.heap.chain s = fs' at hchain
  induction hchain with
  | nil => exact ⟨rfl, fun _ hv => by cases hv⟩
  | cons hf _ ih =>
    obtain ⟨i, hf⟩ := hf
    rw [List.findSome?_cons, List.findSome?_cons, ← hf.get?_eq (hname i)]
    split
    · next v hv => exact ⟨rfl, fun _ hu => Option.some.inj hu ▸ hf.data_get? (hname i) hv⟩
    · exact ih

theorem contains_eq (h : D.Alike m m') (s : ScopeId) {name : String} (hname : ∀ i, D.shared i name = true) :
    m.heap.contains s name = m'.heap.contains s name := by
  unfold Heap.contains
  have hchain := h.chain s
  generalize m.heap.chain s = fs at hchain
  generalize m'.heap.chain s = fs' at hchain
  induction hchain with
  | nil => rfl
  | cons hf _ ih =>
    obtain ⟨i, hf⟩ := hf
    rw [List.any_cons, List.any_cons, ih, Frame.contains_eq_isSome, Frame.contains_eq_isSome, hf.get?_eq (hname i)]

theorem note (h : D.Alike m m') (event : LogEvent) :
    D.Alike { m with log := m.log.push event } { m' with log := m'.log.push event } :=
  { h with log := congrArg (·.push event) h.log }

theorem write (h : D.Alike m m') (line : String) :
    D.Alike { m with sink := m.sink.write line } { m' with sink := m'.sink.write line } :=
  { h with sink := congrArg (·.write line) h.sink }

theorem makeClosure (h : D.Alike m m') :
    D.Alike { m with heap := { m.heap with closures := m.heap.closures + 1 } }
      { m' with heap := { m'.heap with closures := m'.heap.closures + 1 } } :=
  { h with closures := congrArg (· + 1) h.closures }

theorem define (h : D.Alike m m') (s : ScopeId) (name : String) {v : Value} (hv : D.data v) :
    D.Alike { m with heap := m.heap.define s name v } { m' with heap := m'.heap.define s name v } := by
  refine { h with frames := fun i => ?_ }
  rw [Heap.frames_define, Heap.frames_define]
  have hi := h.frames i
  generalize m.heap.frames[i]? = x at hi
  generalize m'.heap.frames[i]? = x' at hi
  by_cases hs : s = i
  · rw [if_pos hs, if_pos hs]
    cases hi with
    | none => exact .none
    | some hf => exact .some (hf.define name hv)
  · rw [if_neg hs, if_neg hs]
    exact hi

theorem entered (h : D.Alike m m') (name : String) (params : List String) {args : List Value} (outer : ScopeId)
    (hargs : ∀ a ∈ args, D.data a) :
    D.Alike (Procedure.entered m name params args outer) (Procedure.entered m' name params args outer) where
  frames i := by
    have hnew : D.FrameAlike i (.ofBindings (some outer) (params.zip args))
        (.ofBindings (some outer) (params.zip args)) :=
      .refl fun b hb _ => hargs b.2 (List.of_mem_zip (Frame.mem_ofBindings hb)).2
    simp only [Procedure.entered, Heap.push, Array.getElem?_push, h.size_eq]
    by_cases hi : i = m'.heap.frames.size
    · rw [if_pos hi, if_pos hi]
      exact .some hnew
    · rw [if_neg hi, if_neg hi]
      exact h.frames i
  closures := h.closures
  depth := congrArg (· + 1) h.depth
  sink := h.sink
  log := by
    simp only [Procedure.entered, h.log, h.depth]

theorem left (h : D.Alike m m') : D.Alike m.left m'.left :=
  { h with depth := congrArg (· - 1) h.depth }

/-- A machine is like itself if all that is bound is data. -/
theorem refl (hm : ∀ v, m.heap.Binds v → D.data v) : D.Alike m m where
  frames i := by
    cases hf : m.heap.frames[i]? with
    | none => exact .none
    | some f => exact .some (.refl fun b hb _ => hm b.2 ⟨i, f, b.1, hf, hb⟩)
  closures := rfl
  depth := rfl
  sink := rfl
  log := rfl

/-- If all bindings are shared, what is bound is data. -/
theorem data (h : D.Alike m m') (hshared : ∀ i name, D.shared i name = true) {v : Value} (hv : m.heap.Binds v) :
    D.data v := by
  obtain ⟨i, f, name, hf, hb⟩ := hv
  have hi := h.frames i
  rw [hf] at hi
  generalize m'.heap.frames[i]? = x at hi
  cases hi with
  | some hf => exact hf.data hb (hshared i name)

/-- If all bindings are shared, the machines are the same. -/
theorem eq (h : D.Alike m m') (hshared : ∀ i name, D.shared i name = true) : m = m' := by
  have hframes : m.heap.frames = m'.heap.frames := by
    refine Array.ext_getElem? fun i => ?_
    have hi := h.frames i
    generalize m.heap.frames[i]? = x at hi
    generalize m'.heap.frames[i]? = x' at hi
    cases hi with
    | none => rfl
    | @some f f' hf =>
      have hall (bs : List (String × Value)) : (bs.filter fun b => D.shared i b.1) = bs :=
        List.filter_eq_self.mpr fun b _ => hshared i b.1
      have hbindings := hf.bindings
      rw [hall, hall] at hbindings
      have houter := hf.outer
      cases f
      cases f'
      cases hbindings
      cases houter
      rfl
  obtain ⟨⟨frames, closures⟩, depth, sink, log⟩ := m
  obtain ⟨⟨frames', closures'⟩, depth', sink', log'⟩ := m'
  obtain ⟨-, hclosures, hdepth, hsink, hlog⟩ := h
  cases hframes
  cases hclosures
  cases hdepth
  cases hsink
  cases hlog
  rfl

end Alike

/-! ## Outcomes -/

section Outcomes

variable {ε α β : Type} {P : α → Prop} {Q : β → Prop}

theorem Agree.bind {x x' : Run ε α} {f f' : α → Run ε β} {m m' : Machine} (hx : D.Agree P (x m) (x' m'))
    (hf : ∀ a m₁ m₁', x m = .ok a m₁ → P a → D.Alike m₁ m₁' → D.Agree Q (f a m₁) (f' a m₁')) :
    D.Agree Q ((x >>= f) m) ((x' >>= f') m') := by
  rw [Run.bind_apply, Run.bind_apply]
  generalize x m = r at hx hf
  generalize x' m' = r' at hx
  cases hx with
  | ok ha hm => exact hf _ _ _ rfl ha hm
  | error e hm => exact .error e hm

theorem Agree.alike {r r' : Outcome ε α} (h : D.Agree P r r') : D.Alike r.machine r'.machine := by
  cases h with
  | ok _ hm => exact hm
  | error e hm => exact hm

theorem Agree.holds {a : α} {m : Machine} {r : Outcome ε α} (h : D.Agree P (.ok a m) r) : P a := by
  cases h with
  | ok ha _ => exact ha

/-- If all bindings are shared, the outcomes are the same. -/
theorem Agree.eq {r r' : Outcome ε α} (h : D.Agree P r r') (hshared : ∀ i name, D.shared i name = true) :
    r = r' := by
  cases h with
  | ok _ hm => rw [hm.eq hshared]
  | error e hm => rw [hm.eq hshared]

theorem Agree.left {r r' : Outcome ε α} (h : D.Agree P r r') :
    D.Agree P (r.onMachine .left) (r'.onMachine .left) := by
  cases h with
  | ok ha hm => exact .ok ha hm.left
  | error e hm => exact .error e hm.left

theorem Agree.mapError {ε' : Type} (g : ε → ε') {x x' : Run ε α} {m m' : Machine} (h : D.Agree P (x m) (x' m')) :
    D.Agree P (Run.mapError g x m) (Run.mapError g x' m') := by
  unfold Run.mapError
  generalize x m = r at h
  generalize x' m' = r' at h
  cases h with
  | ok ha hm => exact .ok ha hm
  | error e hm =>
    cases e with
    | failed e => exact .error _ hm
    | unfinished => exact .error _ hm

theorem Agree.emit (line : String) {m m' : Machine} (h : D.Alike m m') :
    D.Agree (fun _ => True) (Eval.emit line m) (Eval.emit line m') := by
  cases hfull : m.sink.isFull with
  | true =>
    rw [Eval.emit_of_full hfull, Eval.emit_of_full (h.sink ▸ hfull)]
    exact .error _ h
  | false =>
    rw [Eval.emit_of_room hfull, Eval.emit_of_room (h.sink ▸ hfull)]
    exact .ok trivial (h.write line)

end Outcomes

/-! ## Evaluation -/

variable (D)

/-- Computations that end alike from machines that are alike. -/
def EndAlike (x x' : Eval Value) : Prop := ∀ m m', D.Alike m m' → D.Agree D.data (x m) (x' m')

/-- The coupling of code with itself. -/
def coupling : Coupling settings settings' where
  World := Unit
  le _ _ := True
  scope _ := Eq
  code _ s s' t t' := (s = s' ∧ t = t') ∧ D.code s t
  value _ v v' := D.data v ∧ v = v'
  rel _ _ _ := D.EndAlike
  le_refl _ := trivial
  le_trans _ _ := trivial
  code_mono _ h := h
  value_mono _ h := h
  scope_of_code h := h.1.1
  similar_code h := h.1.2 ▸ .refl _
  similar_value h := h.2 ▸ .refl _
  elements {_ s s' ts ts'} h := by
    obtain ⟨⟨rfl, heq⟩, hcode⟩ := h
    cases heq
    exact List.forall₂_same.mpr fun t ht => ⟨⟨rfl, rfl⟩, D.elements hcode t ht⟩
  constant h hconstant := ⟨D.constant h.2 hconstant, h.1.2⟩
  quoted h := by
    obtain ⟨⟨-, heq⟩, hcode⟩ := h
    cases heq
    exact ⟨D.quoted hcode, rfl⟩
  assigned h := by
    obtain ⟨⟨rfl, heq⟩, hcode⟩ := h
    cases heq
    obtain ⟨hread, he⟩ := D.assigned hcode
    exact ⟨⟨⟨hread, rfl⟩, he⟩, fun _ hx => hx⟩
  nil _ := ⟨D.nil, rfl⟩
  result hargs hresult := ⟨D.result ((List.forall₂_and_left ..).mp hargs).1 hresult, rfl⟩
  pure hv m m' hm := hv.2 ▸ .ok hv.1 hm
  fail e m m' hm := .error _ hm
  bind hx hf m m' hm := (hx m m' hm).bind fun v m₁ m₁' _ hv hm₁ => hf () v v trivial ⟨hv, rfl⟩ m₁ m₁' hm₁
  lookup {w s s' f f' name} hname hf m m' hm := by
    obtain ⟨⟨rfl, -⟩, hcode⟩ := hname
    obtain ⟨heq, hdata⟩ := hm.get? (s := s) (D.named hcode)
    rw [Run.bind_apply, Run.bind_apply, Eval.lookup_apply, Eval.lookup_apply, ← heq]
    refine hf _ _ ?_ m m' hm
    cases hv : m.heap.get? s name with
    | none => exact .none
    | some v => exact .some ⟨hdata v hv, rfl⟩
  isBound {w s s' f f' name} hname hf m m' hm := by
    obtain ⟨⟨rfl, -⟩, hcode⟩ := hname
    rw [Run.bind_apply, Run.bind_apply, Eval.isBound_apply, Eval.isBound_apply, ← hm.contains_eq s (D.named hcode)]
    exact hf _ m m' hm
  note {w s s' f f' event} _ hf m m' hm := hf () trivial _ _ (hm.note event)
  emit line hf m m' hm := (Agree.emit line hm).bind fun _ m₁ m₁' _ _ hm₁ => hf () trivial m₁ m₁' hm₁
  define {w s s' v v' f f' name} hname hv hf m m' hm := by
    obtain ⟨⟨rfl, -⟩, -⟩ := hname
    obtain ⟨hv, rfl⟩ := hv
    exact hf () trivial _ _ (hm.define s name hv)
  newClosure {w s s' names body body' surplus surplus'} h m m' hm := by
    obtain ⟨⟨rfl, heq⟩, hcode⟩ := h
    cases heq
    simp only [Eval.newClosure, Heap.makeClosure, hm.closures]
    exact .ok (D.lambda _ hcode) (hm.closures ▸ hm.makeClosure)

variable {D}

theorem mayEnter_iff {m m' : Machine} (h : D.Alike m m') :
    Procedure.MayEnter settings m ↔ Procedure.MayEnter settings' m' := by
  unfold Procedure.MayEnter
  rw [D.sameDepth, h.depth]

theorem lockstep : D.coupling.Lockstep where
  unfinished _ _ hm := .error _ hm
  call {body body'} hbody w s s' i i' params t t' outer outer' name args args' hs hc hargs _ m m' hm := by
    obtain ⟨hdata, heq⟩ := hc
    cases heq
    obtain ⟨hdatas, hsame⟩ := (List.forall₂_and_left ..).mp hargs
    obtain rfl := List.forall₂_eq_eq_eq ▸ hsame
    by_cases henter : Procedure.MayEnter settings m
    · rw [Procedure.call_of_mayEnter henter, Procedure.call_of_mayEnter ((mayEnter_iff hm).mp henter), hm.size_eq]
      have hcode := D.body m'.heap.frames.size hdata
      exact (hbody () _ _ t t ⟨⟨rfl, rfl⟩, hcode⟩ _ _ (hm.entered name params outer hdatas)).left
    · rw [Procedure.call_of_not_mayEnter henter, Procedure.call_of_not_mayEnter (mt (mayEnter_iff hm).mpr henter),
        Procedure.tooDeep, Procedure.tooDeep, D.sameDepth]
      exact .error _ hm

/-- Code ends alike in machines that are alike, and gives data. -/
theorem evaluateWithin (n : Nat) {s : ScopeId} {t : Value} (ht : D.code s t) {m m' : Machine} (hm : D.Alike m m') :
    D.Agree D.data (LineLisp.evaluateWithin settings n t s m) (LineLisp.evaluateWithin settings' n t s m') :=
  lockstep.evaluateWithin (w := ()) n ⟨⟨rfl, rfl⟩, ht⟩ m m' hm

end Discipline

/-! ## Lines -/

/-- The run of a line comes to read a tree. -/
def Line.Reads (settings : Settings) (text : String) (m : Machine) (tree : Value) : Prop :=
  ∃ r m₁, Line.Reaches settings text m r m₁ ∧ r.read.1 = .ok tree

namespace Discipline

variable {settings settings' : Settings} {D : Discipline settings settings'}

theorem evaluate {s : ScopeId} {t : Value} (ht : D.code s t) {m m' : Machine} (hm : D.Alike m m') :
    D.Agree D.data (LineLisp.evaluate settings t s m) (LineLisp.evaluate settings' t s m') := by
  have hbound : settings.callBound = settings'.callBound := by rw [Settings.callBound, Settings.callBound, D.sameDepth]
  unfold LineLisp.evaluate
  rw [← hbound]
  exact evaluateWithin _ ht hm

theorem runTree {tree : Value} (ht : D.code Heap.globalScope tree) {m m' : Machine} (hm : D.Alike m m') :
    D.Agree (fun _ => True) (Line.runTree settings tree m) (Line.runTree settings' tree m') :=
  (Agree.emit _ hm).bind fun _ _ _ _ _ hm₁ => (evaluate ht hm₁).bind fun _ _ _ _ _ hm₂ => .emit _ hm₂

theorem runTrees {text : String} {m₀ : Machine} (hcode : ∀ tree, Line.Reads settings text m₀ tree →
      D.code Heap.globalScope tree) {r : Reader} {m m' : Machine} (hreach : Line.Reaches settings text m₀ r m)
    (hm : D.Alike m m') :
    D.Agree (fun _ => True) (Line.runTrees settings r m) (Line.runTrees settings' r m') := by
  induction r using Line.runTrees.induct generalizing m m' with
  | case1 r e hread =>
    rw [Line.runTrees_eq settings, Line.runTrees_eq settings', hread]
    exact .error _ hm
  | case2 r tree hread ih =>
    rw [Line.runTrees_eq settings, Line.runTrees_eq settings', hread]
    have hrun := (runTree (hcode tree ⟨r, m, hreach, hread⟩) hm).mapError LineError.evaluation
    refine hrun.bind fun _ m₁ m₁' heq _ hm₁ => ?_
    cases hmore : r.read.2.isExhausted with
    | true => exact .ok trivial hm₁
    | false => exact ih (.next hreach hread (Run.ok_of_mapError heq) hmore) hm₁

/-- A line of which every tree is code ends alike in machines that are alike. -/
theorem run {text : String} {m m' : Machine} (hcode : ∀ tree, Line.Reads settings text m tree →
      D.code Heap.globalScope tree) (hm : D.Alike m m') :
    D.Agree (fun _ => True) (Line.run settings text m) (Line.run settings' text m') := by
  rw [Line.run_apply, Line.run_apply]
  have hscanned : D.Alike (Line.scanned text m) (Line.scanned text m') := hm.note _
  refine ((Agree.emit _ hscanned).mapError LineError.evaluation).bind fun _ m₁ m₁' heq _ hm₁ => ?_
  exact runTrees hcode (.start (Run.ok_of_mapError heq)) hm₁

end Discipline

/-! ## Evaluations inside -/

namespace Discipline

variable {settings : Settings} {D : Discipline settings settings}

variable (D) in
/-- The evaluation that begins is of code, in a machine whose shared bindings are data. -/
structure Keeps (t : Task) : Prop where
  code : D.code t.scope t.tree
  alike : D.Alike t.machine t.machine

theorem Alike.emit {line : String} {m m' : Machine} (h : D.Alike m m) (hw : Eval.emit line m = .ok () m') :
    D.Alike m' m' := by
  have hagree := Agree.emit line h
  rw [hw] at hagree
  exact hagree.alike

theorem Alike.warn {scope : ScopeId} {name : String} {m m' : Machine} (h : D.Alike m m)
    (hw : Form.warn scope name m = .ok () m') : D.Alike m' m' := by
  rw [Form.warn_apply] at hw
  split at hw
  · cases hw
    exact h
  · exact (h.note _).emit hw

/-- Code keeps the shared bindings data, and gives data. -/
theorem evaluates {s : ScopeId} {t : Value} {m : Machine} {r : Outcome EvalError Value} (ht : D.code s t)
    (hm : D.Alike m m) (h : Evaluates settings t s m r) :
    D.Alike r.machine r.machine ∧ ∀ v m', r = .ok v m' → D.data v := by
  obtain ⟨⟨n, rfl⟩, -⟩ := h
  have hagree := evaluateWithin n ht hm
  refine ⟨hagree.alike, fun v m' heq => ?_⟩
  rw [show LineLisp.evaluateWithin settings n t s m = .ok v m' from heq] at hagree
  exact hagree.holds

theorem evaluatesAll {scope : ScopeId} {trees vs : List Value} {m m' : Machine} (ht : ∀ t ∈ trees, D.code scope t)
    (hm : D.Alike m m) (h : EvaluatesAll settings scope trees m vs m') :
    D.Alike m' m' ∧ ∀ v ∈ vs, D.data v := by
  induction h with
  | nil m => exact ⟨hm, fun v hv => absurd hv List.not_mem_nil⟩
  | cons he _ ih =>
    obtain ⟨ht, hts⟩ := List.forall_mem_cons.mp ht
    obtain ⟨hm₁, hv⟩ := evaluates ht hm he
    obtain ⟨hm', hvs⟩ := ih hts hm₁
    exact ⟨hm', List.forall_mem_cons.mpr ⟨hv _ _ rfl, hvs⟩⟩

theorem rounds {scope : ScopeId} {body : Value} {n : Nat} {m m' : Machine} (hbody : D.code scope body)
    (hm : D.Alike m m) (h : Rounds settings body scope n m m') : D.Alike m' m' := by
  induction h with
  | zero m => exact hm
  | succ he hw _ ih =>
    obtain ⟨hm₁, -⟩ := evaluates hbody hm he
    exact ih (hm₁.emit hw)

theorem operand_code {keyword : Keyword} {operands : List Value} {scope : ScopeId} {i : Nat} {e : Value}
    (h : D.code scope (.form keyword operands)) (he : operands[i]? = some e) : D.code scope e :=
  D.elements h e (List.mem_cons_of_mem _ (List.mem_of_getElem? he))

/-- What an evaluation of code begins is one of code. -/
theorem Keeps.begins {t t' : Task} (hk : D.Keeps t) (h : Begins settings t t') : D.Keeps t' := by
  obtain ⟨hcode, hm⟩ := hk
  cases h with
  | condition hc => exact ⟨operand_code hcode hc, hm⟩
  | branch hc he hb =>
    exact ⟨operand_code hcode hb, (evaluates (operand_code hcode hc) hm he).1⟩
  | definition _ he => exact ⟨operand_code hcode he, hm⟩
  | @assignment operands scope m m' name e hname he hw =>
    obtain ⟨surplus, rfl⟩ : ∃ surplus, operands = .symbol name :: e :: surplus := by
      match operands, hname, he with
      | _ :: _ :: surplus, rfl, rfl => exact ⟨surplus, rfl⟩
    exact ⟨(D.assigned hcode).2, hm.warn hw⟩
  | count hc => exact ⟨operand_code hcode hc, hm⟩
  | round hc he _ hb _ hr =>
    have hm₁ := (evaluates (operand_code hcode hc) hm he).1
    exact ⟨operand_code hcode hb, rounds (operand_code hcode hb) hm₁ hr⟩
  | operand _ hall =>
    have hoperands := (List.forall_mem_cons.mp (D.elements hcode)).2
    obtain ⟨hbefore, hafter⟩ := List.forall_mem_append.mp hoperands
    exact ⟨hafter _ List.mem_cons_self, (evaluatesAll hbefore hm hall).1⟩
  | call _ hf hall _ _ =>
    obtain ⟨hname, hoperands⟩ := List.forall_mem_cons.mp (D.elements hcode)
    have hclosure := (hm.get? (D.named hname)).2 _ hf
    obtain ⟨hm', hargs⟩ := evaluatesAll hoperands hm hall
    exact ⟨D.body _ hclosure, hm'.entered _ _ _ hargs⟩

/-- Every evaluation inside one of code is one of code. -/
theorem Keeps.inside {t t' : Task} {cs : List Call} (hk : D.Keeps t) (h : Inside settings t cs t') : D.Keeps t' := by
  induction h with
  | start => exact hk
  | part _ hp ih => exact ih.begins hp.1
  | body _ he ih => exact ih.begins he.begins

variable {text : String} {m : Machine}

theorem reaches (hcode : ∀ tree, Line.Reads settings text m tree → D.code Heap.globalScope tree) (hm : D.Alike m m)
    {r : Reader} {m₁ : Machine} (h : Line.Reaches settings text m r m₁) : D.Alike m₁ m₁ := by
  induction h with
  | start hw => exact (hm.note _).emit hw
  | next hreach hread hrun _ ih =>
    have hagree := runTree (hcode _ ⟨_, _, hreach, hread⟩) ih
    rw [hrun] at hagree
    exact hagree.alike

/-- Every evaluation in the run of a line of which every tree is code is one of code. -/
theorem keeps_of_runs (hcode : ∀ tree, Line.Reads settings text m tree → D.code Heap.globalScope tree)
    (hm : D.Alike m m) {cs : List Call} {t : Task} (h : Operation.Runs settings m (.line text) cs t) : D.Keeps t := by
  cases h with
  | line hbegins hin =>
    cases hbegins with
    | tree hreach hread hw =>
      exact Keeps.inside ⟨hcode _ ⟨_, _, hreach, hread⟩, (reaches hcode hm hreach).emit hw⟩ hin

end Discipline

end LineLisp
