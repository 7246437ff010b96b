/-
  LineLisp.Proofs.Interference — names that code does not mention do not matter to it. Where a
  name occurs neither in a tree nor in a procedure that is bound, no look-up and no `set!` that
  its evaluation comes to is of that name, and no closure that it makes mentions it.
  - `omitting`: the discipline of trees in which the name does not occur, of which every binding
    is shared but that of the name in one scope.
  - `unrelated_names_do_not_interfere`: whatever the name is bound to there, evaluation ends in
    the same way, and the machines that it leaves differ in nothing but that binding.
-/

import LineLisp.Proofs.Discipline
import LineLisp.Proofs.WriteConfinement

namespace LineLisp

/-- The name occurs as a symbol nowhere in the value, nor among the parameters or in the body of a
    closure in it. -/
inductive Value.Omits (x : String) : Value → Prop
  | number (n : Number) : Omits x (.number n)
  | symbol {name : String} : name ≠ x → Omits x (.symbol name)
  | list {vs : List Value} : (∀ v ∈ vs, Omits x v) → Omits x (.list vs)
  | primitive (p : Primitive) : Omits x (.primitive p)
  | closure {id : ClosureId} {params : List String} {body : Value} {scope : ScopeId} :
      x ∉ params → Omits x body → Omits x (.closure id params body scope)
  | nil : Omits x .nil

/-- The frame without its binding of a name. -/
def Frame.without (x : String) (f : Frame) : Frame := { f with bindings := f.bindings.filter (·.1 ≠ x) }

/-- The machine without the binding of a name in one scope. -/
def Machine.without (f : ScopeId) (x : String) (m : Machine) : Machine :=
  { m with heap := { m.heap with frames := m.heap.frames.modify f (Frame.without x) } }

variable {settings : Settings} {x : String} {f : ScopeId}

theorem Value.Omits.elements {vs : List Value} (h : (Value.list vs).Omits x) : ∀ v ∈ vs, v.Omits x := by
  cases h with
  | list h => exact h

/-- Trees in which the name does not occur, and bindings of which only that in one scope may differ. -/
def omitting (settings : Settings) (f : ScopeId) (x : String) : Discipline settings settings where
  code _ t := t.Omits x
  data v := v.procedure?.isSome → v.Omits x
  shared i name := decide ¬(i = f ∧ name = x)
  sameDepth := settings.maxDepth_refl
  elements h := h.elements
  constant h _ _ := h
  quoted h _ := h.elements _ (.tail _ (.head _))
  assigned h := ⟨rfl, h.elements _ (.tail _ (.tail _ (.head _)))⟩
  lambda {_ names _ _} id h _ := by
    have hparams : (Value.list (names.map .symbol)).Omits x := h.elements _ (.tail _ (.head _))
    refine .closure (fun hx => ?_) (h.elements _ (.tail _ (.tail _ (.head _))))
    cases hparams.elements _ (List.mem_map_of_mem hx) with
    | symbol hne => exact hne rfl
  body _ h := by
    cases h rfl with
    | closure _ hbody => exact hbody
  nil h := by cases h
  result _ hresult _ := by
    obtain ⟨n, rfl⟩ := Primitive.result?_ok hresult
    exact .number n
  named h i := by
    cases h with
    | symbol hne => exact decide_eq_true fun h => hne h.2

/-- Another binding of the name in the scope does not matter. -/
theorem alike_define {m : Machine} (hm : ∀ v, m.heap.Binds v → v.procedure?.isSome → v.Omits x) (w : Value) :
    (omitting settings f x).Alike m { m with heap := m.heap.define f x w } where
  frames i := by
    rw [Heap.frames_define]
    cases hg : m.heap.frames[i]? with
    | none => split <;> exact .none
    | some g =>
      have hdata {b : String × Value} (hb : b ∈ g.bindings) := hm b.2 ⟨i, g, b.1, hg, hb⟩
      split
      · next hi =>
        refine .some ⟨rfl, ?_, fun hb _ => hdata hb⟩
        simp only [omitting, Frame.define, hi, List.filter_cons]
        simp
      · exact .some (.refl fun b hb _ => hdata hb)
  closures := rfl
  depth := rfl
  sink := rfl
  log := rfl

/-- Machines that are alike differ in nothing but the binding of the name in the scope. -/
theorem without_eq {m m' : Machine} (h : (omitting settings f x).Alike m m') : m.without f x = m'.without f x := by
  have hframes : m.heap.frames.modify f (Frame.without x) = m'.heap.frames.modify f (Frame.without x) := by
    refine Array.ext_getElem? fun i => ?_
    rw [Array.getElem?_modify, Array.getElem?_modify]
    have hi := h.frames i
    generalize m.heap.frames[i]? = y at hi
    generalize m'.heap.frames[i]? = y' at hi
    cases hi with
    | none => rfl
    | @some g g' hg =>
      obtain ⟨houter, hbindings, -⟩ := hg
      by_cases hi : f = i
      · rw [if_pos hi, if_pos hi]
        simp only [Option.map_some, Frame.without, houter]
        simp only [omitting, hi] at hbindings
        simpa using hbindings
      · rw [if_neg hi, if_neg hi]
        have hi : i ≠ f := Ne.symm hi
        have hall (bs : List (String × Value)) : (bs.filter fun b => (omitting settings f x).shared i b.1) = bs :=
          List.filter_eq_self.mpr fun b _ => decide_eq_true fun h => hi h.1
        rw [hall, hall] at hbindings
        cases g
        cases g'
        cases houter
        cases hbindings
        rfl
  simp only [Machine.without, hframes, h.closures, h.depth, h.sink, h.log]

theorem Discipline.Agree.without_eq {P : Value → Prop} {r r' : Outcome EvalError Value}
    (h : (omitting settings f x).Agree P r r') : r.onMachine (.without f x) = r'.onMachine (.without f x) := by
  cases h with
  | ok _ hm => rw [Outcome.onMachine_ok, Outcome.onMachine_ok, LineLisp.without_eq hm]
  | error e hm => rw [Outcome.onMachine_error, Outcome.onMachine_error, LineLisp.without_eq hm]

/-- If a name occurs neither in a tree nor in the procedures that are bound, then it does not matter
    to the evaluation of the tree, in whichever scope, what the name is bound to in a scope: with
    and without the binding the evaluation ends with the same value or error, or not at all, and the
    machines that it leaves are the same but for that binding. -/
theorem unrelated_names_do_not_interfere (settings : Settings) {m : Machine} {x : String} {tree : Value}
    (hm : ∀ v, m.heap.Binds v → v.procedure?.isSome → v.Omits x) (htree : tree.Omits x) (scope f : ScopeId)
    (w : Value) :
    let m' : Machine := { m with heap := m.heap.define f x w }
    (∀ r, Evaluates settings tree scope m r → ∃ r', Evaluates settings tree scope m' r' ∧
      r'.onMachine (.without f x) = r.onMachine (.without f x)) ∧
    ∀ r', Evaluates settings tree scope m' r' → ∃ r, Evaluates settings tree scope m r ∧
      r.onMachine (.without f x) = r'.onMachine (.without f x) := by
  intro m'
  have hagree (n : Nat) : (omitting settings f x).Agree (omitting settings f x).data
      (evaluateWithin settings n tree scope m) (evaluateWithin settings n tree scope m') :=
    Discipline.evaluateWithin n htree (alike_define hm w)
  constructor
  · rintro r ⟨⟨n, rfl⟩, hfin⟩
    have heq := (hagree n).without_eq
    refine ⟨_, ⟨⟨n, rfl⟩, ?_⟩, heq.symm⟩
    rwa [← Outcome.finished_onMachine (.without f x), ← heq, Outcome.finished_onMachine]
  · rintro r' ⟨⟨n, rfl⟩, hfin⟩
    have heq := (hagree n).without_eq
    refine ⟨_, ⟨⟨n, rfl⟩, ?_⟩, heq⟩
    rwa [← Outcome.finished_onMachine (.without f x), heq, Outcome.finished_onMachine]

/-- The call of `f`, which sets `n`, comes to the same with `m` bound beside `n`. -/
theorem unrelated_names_do_not_interfere_setter :
    let bound : Machine := { setterMachine with heap := setterMachine.heap.define 1 "m" (.int 7) }
    ∃ r r', Evaluates .standard (.list [.symbol "f"]) 1 setterMachine r ∧
      Evaluates .standard (.list [.symbol "f"]) 1 bound r' ∧
        r'.onMachine (.without 1 "m") = r.onMachine (.without 1 "m") ∧ ∃ m, r = .ok (.int 2) m := by
  have hm : ∀ v, setterMachine.heap.Binds v → v.procedure?.isSome → v.Omits "m" := by
    rintro v ⟨id, fr, name, hf, hb⟩ hproc
    match id, hf with
    | 0, rfl =>
      obtain ⟨-, rfl⟩ := Prod.mk.inj (List.mem_singleton.mp hb)
      exact .closure List.not_mem_nil (.list (by simpa using ⟨.symbol (by decide), .symbol (by decide), .number _⟩))
    | 1, rfl =>
      obtain ⟨-, rfl⟩ := Prod.mk.inj (List.mem_singleton.mp hb)
      cases hproc
  have htree : (Value.list [.symbol "f"]).Omits "m" := .list (by simpa using .symbol (by decide))
  have h : Evaluates .standard (.list [.symbol "f"]) 1 setterMachine
      (evaluateWithin .standard 1 (.list [.symbol "f"]) 1 setterMachine) := ⟨⟨1, rfl⟩, by cbv⟩
  obtain ⟨r', h', heq⟩ := (unrelated_names_do_not_interfere .standard hm htree 1 1 (.int 7)).1 _ h
  exact ⟨_, r', h, h', heq, _, by cbv⟩

end LineLisp
