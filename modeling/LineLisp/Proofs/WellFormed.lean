/-
  LineLisp.Proofs.WellFormed — heaps in which every link leads to a scope that exists. A scope
  stands inside an earlier one, and the closures that names are bound to were made in scopes
  that exist; closures may still refer to themselves and to each other through bindings.
  - `Heap.Nested.chain_eq`: the scopes around a scope are followed to their end.
  - `evaluateWithin_sound` and `applyWithin_sound`: evaluation and application keep a heap
    well-formed, however they end, and give values whose closures were made in its scopes.
-/

import LineLisp.Proofs.Evolution

namespace LineLisp

/-! ## Values -/

/-- Every closure in the value was made in one of the first `n` scopes. -/
inductive Value.Within (n : Nat) : Value → Prop
  | number (x : Number) : Within n (.number x)
  | symbol (name : String) : Within n (.symbol name)
  | list {vs : List Value} : (∀ v ∈ vs, Within n v) → Within n (.list vs)
  | primitive (p : Primitive) : Within n (.primitive p)
  | closure {id : ClosureId} {params : List String} {body : Value} {scope : ScopeId} :
      Within n body → scope < n → Within n (.closure id params body scope)
  | nil : Within n .nil

/-- It is the procedure of a value whose closures were made in the first `n` scopes. -/
def Procedure.Within (n : Nat) (p : Procedure) : Prop := ∃ v : Value, v.procedure? = some p ∧ v.Within n

theorem Value.Within.mono {n n' : Nat} (hn : n ≤ n') {v : Value} (h : v.Within n) : v.Within n' := by
  induction h with
  | number x => exact .number x
  | symbol name => exact .symbol name
  | list _ ih => exact .list ih
  | primitive p => exact .primitive p
  | closure _ hs ih => exact .closure ih (Nat.lt_of_lt_of_le hs hn)
  | nil => exact .nil

theorem Primitive.binary_ok {p : Primitive} {op : Number → Number → Number} {v w u : Value}
    (h : p.binary op v w = .ok u) : ∃ m n, u = .number (op m n) := by
  unfold binary at h
  cases hv : p.number v with
  | error e => rw [hv] at h; cases h
  | ok m =>
    cases hw : p.number w with
    | error e => rw [hv, hw] at h; cases h
    | ok n => rw [hv, hw] at h; cases h; exact ⟨m, n, rfl⟩

theorem Primitive.unary_ok {p : Primitive} {op : Number → Number} {v u : Value} (h : p.unary op v = .ok u) :
    ∃ n, u = .number (op n) := by
  unfold unary at h
  cases hv : p.number v with
  | error e => rw [hv] at h; cases h
  | ok m => rw [hv] at h; cases h; exact ⟨m, rfl⟩

/-- Primitives give what their operations give. -/
theorem Primitive.result?_cases {p : Primitive} {args : List Value} {v : Value}
    (h : p.result? args = some (.ok v)) :
    (∃ m n : Number, v = .number (m.add n)) ∨ (∃ m n : Number, v = .number (m.mul n)) ∨
      ∃ n : Number, v = .number n.abs := by
  unfold result? at h
  split at h
  · exact .inl (binary_ok (Option.some.inj h))
  · exact .inr (.inl (binary_ok (Option.some.inj h)))
  · exact .inr (.inr (unary_ok (Option.some.inj h)))
  · cases h

/-- Primitives give numbers. -/
theorem Primitive.result?_ok {p : Primitive} {args : List Value} {v : Value}
    (h : p.result? args = some (.ok v)) : ∃ n, v = .number n := by
  rcases result?_cases h with ⟨m, n, rfl⟩ | ⟨m, n, rfl⟩ | ⟨n, rfl⟩
  · exact ⟨_, rfl⟩
  · exact ⟨_, rfl⟩
  · exact ⟨_, rfl⟩

/-! ## Heaps -/

theorem Frame.mem_define {f : Frame} {name : String} {v : Value} {b : String × Value}
    (h : b ∈ (f.define name v).bindings) : b = (name, v) ∨ b ∈ f.bindings := by
  rcases List.mem_cons.mp h with h | h
  · exact .inl h
  · exact .inr (List.mem_filter.mp h).1

theorem Frame.outer_ofBindings (outer : Option ScopeId) (bs : List (String × Value)) :
    (ofBindings outer bs).outer = outer := by
  have step (f : Frame) : (bs.foldl (fun f b => f.define b.1 b.2) f).outer = f.outer := by
    induction bs generalizing f with
    | nil => rfl
    | cons b bs ih => exact ih _
  exact step (empty outer)

theorem Frame.mem_ofBindings {outer : Option ScopeId} {bs : List (String × Value)} {b : String × Value}
    (h : b ∈ (ofBindings outer bs).bindings) : b ∈ bs := by
  have step (f : Frame) : b ∈ (bs.foldl (fun f b => f.define b.1 b.2) f).bindings →
      b ∈ bs ∨ b ∈ f.bindings := by
    clear h
    induction bs generalizing f with
    | nil => exact .inr
    | cons c bs ih =>
      intro h
      rcases ih _ h with h | h
      · exact .inl (List.mem_cons_of_mem c h)
      · rcases mem_define h with rfl | h
        · exact .inl List.mem_cons_self
        · exact .inr h
  exact (step (empty outer) h).resolve_right List.not_mem_nil

/-- A scope stands inside an earlier one, or inside none. -/
structure Heap.Nested (h : Heap) : Prop where
  outer {id outer : ScopeId} {f : Frame} : h.frames[id]? = some f → f.outer = some outer → outer < id

/-- There is a global scope, a scope stands inside an earlier one, and the closures that names
    are bound to were made in scopes that exist. -/
structure Heap.WellFormed (h : Heap) : Prop where
  nonempty : 0 < h.frames.size
  outer {id outer : ScopeId} {f : Frame} : h.frames[id]? = some f → f.outer = some outer → outer < id
  within {id : ScopeId} {f : Frame} {b : String × Value} :
    h.frames[id]? = some f → b ∈ f.bindings → b.2.Within h.frames.size

namespace Heap

theorem size_define (h : Heap) (id : ScopeId) (name : String) (v : Value) :
    (h.define id name v).frames.size = h.frames.size :=
  Array.size_modify

theorem size_push (h : Heap) (f : Frame) : (h.push f).2.frames.size = h.frames.size + 1 :=
  Array.size_push f

/-- The scopes around a scope are scopes of the heap. -/
theorem exists_of_mem_chain {h : Heap} {id : ScopeId} {f : Frame} (hf : f ∈ h.chain id) :
    ∃ i : ScopeId, h.frames[i]? = some f := by
  induction id using Nat.strongRecOn with
  | _ id ih =>
    unfold chain at hf
    split at hf
    · cases hf
    · next g hg =>
      rcases List.mem_cons.mp hf with rfl | hf
      · exact ⟨id, hg⟩
      · split at hf
        · cases hf
        · next outer _ =>
          split at hf
          · next hlt => exact ih outer hlt hf
          · cases hf

/-- The scopes around a scope are followed to their end: no link leads onward in a circle. -/
theorem Nested.chain_eq {h : Heap} (hn : h.Nested) (id : ScopeId) :
    h.chain id = h.frames[id]?.elim [] fun f => f :: f.outer.elim [] h.chain := by
  rw [chain]
  cases hf : h.frames[id]? with
  | none => rfl
  | some f =>
    cases ho : f.outer with
    | none => simp [ho]
    | some o => simp [ho, hn.outer hf ho]

namespace WellFormed

variable {h : Heap}

theorem nested (hw : h.WellFormed) : h.Nested := ⟨hw.outer⟩

theorem of_frames_eq {h' : Heap} (hw : h.WellFormed) (heq : h'.frames = h.frames) : h'.WellFormed := by
  refine ⟨?_, ?_, ?_⟩ <;> rw [heq]
  · exact hw.nonempty
  · exact hw.outer
  · exact hw.within

theorem define (hw : h.WellFormed) (id : ScopeId) (name : String) {v : Value} (hv : v.Within h.frames.size) :
    (h.define id name v).WellFormed := by
  refine ⟨?_, fun {i o f} hf ho => ?_, fun {i f b} hf hb => ?_⟩
  · rw [size_define]
    exact hw.nonempty
  · rw [frames_define] at hf
    split at hf
    · obtain ⟨g, hg, rfl⟩ := Option.map_eq_some_iff.mp hf
      exact hw.outer hg ho
    · exact hw.outer hf ho
  · rw [size_define]
    rw [frames_define] at hf
    split at hf
    · obtain ⟨g, hg, rfl⟩ := Option.map_eq_some_iff.mp hf
      rcases Frame.mem_define hb with rfl | hb
      · exact hv
      · exact hw.within hg hb
    · exact hw.within hf hb

theorem push (hw : h.WellFormed) {outer : Option ScopeId} {bs : List (String × Value)}
    (ho : ∀ o, outer = some o → o < h.frames.size) (hbs : ∀ b ∈ bs, b.2.Within h.frames.size) :
    (h.push (.ofBindings outer bs)).2.WellFormed := by
  have frame {i : ScopeId} {f : Frame} (hf : (h.push (.ofBindings outer bs)).2.frames[i]? = some f) :
      i = h.frames.size ∧ f = .ofBindings outer bs ∨ h.frames[i]? = some f := by
    rw [Heap.push, Array.getElem?_push] at hf
    split at hf
    · next hi => exact .inl ⟨hi, (Option.some.inj hf).symm⟩
    · exact .inr hf
  refine ⟨?_, fun {i o f} hf hfo => ?_, fun {i f b} hf hb => ?_⟩
  · rw [size_push]
    exact Nat.succ_pos _
  · rcases frame hf with ⟨rfl, rfl⟩ | hf
    · rw [Frame.outer_ofBindings] at hfo
      exact ho o hfo
    · exact hw.outer hf hfo
  · rw [size_push]
    rcases frame hf with ⟨rfl, rfl⟩ | hf
    · exact (hbs b (Frame.mem_ofBindings hb)).mono (Nat.le_succ _)
    · exact (hw.within hf hb).mono (Nat.le_succ _)

theorem chain_eq (hw : h.WellFormed) (id : ScopeId) :
    h.chain id = h.frames[id]?.elim [] fun f => f :: f.outer.elim [] h.chain :=
  hw.nested.chain_eq id

theorem get?_within (hw : h.WellFormed) {id : ScopeId} {name : String} {v : Value}
    (hv : h.get? id name = some v) : v.Within h.frames.size := by
  obtain ⟨f, hf, hv⟩ := List.exists_of_findSome?_eq_some hv
  obtain ⟨i, hi⟩ := exists_of_mem_chain hf
  obtain ⟨l₁, l₂, hl, -⟩ := List.lookup_eq_some_iff.mp hv
  exact hw.within (b := (name, v)) hi (by rw [hl]; simp)

theorem initial : Heap.initial.WellFormed := by
  have frame {i : ScopeId} {f : Frame} (hf : Heap.initial.frames[i]? = some f) : f = .global := by
    obtain ⟨hi, rfl⟩ := Array.getElem?_eq_some_iff.mp hf
    obtain rfl := Nat.lt_one_iff.mp hi
    rfl
  refine ⟨Nat.zero_lt_one, fun {i o f} hf ho => ?_, fun {i f b} hf hb => ?_⟩
  · rw [frame hf, Frame.global, Frame.outer_ofBindings] at ho
    cases ho
  · rw [frame hf] at hb
    rcases List.mem_cons.mp (Frame.mem_ofBindings hb) with rfl | hb
    · exact .number _
    · obtain ⟨p, -, rfl⟩ := List.mem_map.mp hb
      exact .primitive p

end WellFormed

end Heap

/-! ## Evaluation -/

/-- The outcome leaves a well-formed heap of at least `n` scopes, in which the value is at
    home. -/
structure Outcome.Sound (n : Nat) (r : Outcome EvalError Value) : Prop where
  wellFormed : r.machine.heap.WellFormed
  size_le : n ≤ r.machine.heap.frames.size
  value {v : Value} {m : Machine} : r = .ok v m → v.Within m.heap.frames.size

namespace Outcome.Sound

variable {n n' : Nat} {m : Machine}

theorem ok {v : Value} (hw : m.heap.WellFormed) (hle : n ≤ m.heap.frames.size)
    (hv : v.Within m.heap.frames.size) : Sound n (.ok v m) :=
  ⟨hw, hle, fun h => by cases h; exact hv⟩

theorem error {e : Stop EvalError} (hw : m.heap.WellFormed) (hle : n ≤ m.heap.frames.size) :
    Sound n (.error e m) :=
  ⟨hw, hle, fun h => by cases h⟩

theorem mono {r : Outcome EvalError Value} (hn : n ≤ n') (h : Sound n' r) : Sound n r :=
  ⟨h.wellFormed, Nat.le_trans hn h.size_le, h.value⟩

theorem left {r : Outcome EvalError Value} (h : Sound n r) : Sound n (onMachine .left r) := by
  cases r with
  | ok v m =>
    have hv : v.Within m.heap.frames.size := h.value rfl
    exact ok h.wellFormed h.size_le hv
  | error e m => exact error h.wellFormed h.size_le

end Outcome.Sound

/-- Every evaluation beside itself: a world is the number of scopes beside the global one. -/
def soundness (settings : Settings) : Simulation settings settings where
  World := Nat
  le := (· ≤ ·)
  value w v v' := v.Within (w + 1) ∧ v = v'
  scope w s s' := s < w + 1 ∧ s = s'
  rel w _ _ x _ := ∀ m : Machine, m.heap.WellFormed → m.heap.frames.size = w + 1 → Outcome.Sound (w + 1) (x m)
  le_refl := Nat.le_refl
  le_trans := Nat.le_trans
  value_mono hw h := ⟨h.1.mono (Nat.succ_le_succ hw), h.2⟩
  scope_mono hw h := ⟨Nat.lt_of_lt_of_le h.1 (Nat.succ_le_succ hw), h.2⟩
  alike {w v v'} h := by
    obtain ⟨h, rfl⟩ := h
    cases h with
    | number x => exact .number x
    | symbol name => exact .symbol name
    | list hvs => exact .list (List.forall₂_same.mpr fun v hv => ⟨hvs v hv, rfl⟩)
    | primitive p => exact .primitive p
    | closure hb hs => exact .closure _ _ _ _ _ _ _ ⟨hb, rfl⟩
    | nil => exact .nil
  nil _ := ⟨.nil, rfl⟩
  result _ h := by
    obtain ⟨n, rfl⟩ := Primitive.result?_ok h
    exact ⟨.number n, rfl⟩
  global w _ := ⟨Nat.succ_pos w, rfl⟩
  sameReads := .refl settings
  pure hv m hm hsize := .ok hm (Nat.le_of_eq hsize.symm) (hsize ▸ hv.1)
  fail e m hm hsize := .error hm (Nat.le_of_eq hsize.symm)
  bind {w s s' x x' f f'} hx hf m hm hsize := by
    have h := hx m hm hsize
    rw [Run.bind_apply]
    cases hxm : x m with
    | error e m' =>
      rw [hxm] at h
      exact h
    | ok v m' =>
      rw [hxm] at h
      obtain ⟨w', hw'⟩ : ∃ w', m'.heap.frames.size = w' + 1 :=
        Nat.exists_eq_succ_of_ne_zero (Nat.ne_of_gt h.wellFormed.nonempty)
      have hle : w + 1 ≤ w' + 1 := hw' ▸ h.size_le
      exact (hf w' v v (Nat.le_of_succ_le_succ hle) ⟨hw' ▸ h.value rfl, rfl⟩ m' h.wellFormed hw').mono hle
  inGlobal _ h := h
  lookup {w s s' f f'} name _ hf m hm hsize := by
    refine hf (m.heap.get? s name) (m.heap.get? s name) ?_ m hm hsize
    cases h : m.heap.get? s name with
    | none => exact .none
    | some v => exact .some ⟨hsize ▸ hm.get?_within h, rfl⟩
  isBound {w s s' f f'} name _ hf m hm hsize := hf (m.heap.contains s name) m hm hsize
  note {w s s' f f' event} _ hf m hm hsize := hf _ (Nat.le_refl _) { m with log := m.log.push event } hm hsize
  emit {w s s' f f'} line hf m hm hsize := by
    cases hfull : m.sink.isFull with
    | true =>
      rw [Run.bind_of_error (Eval.emit_of_full hfull line)]
      exact .error hm (Nat.le_of_eq hsize.symm)
    | false =>
      rw [Run.bind_of_ok (Eval.emit_of_room hfull line)]
      exact hf _ (Nat.le_refl _) { m with sink := m.sink.write line } hm hsize
  define {w s s' v v' f f'} name _ hv hf m hm hsize :=
    hf _ (Nat.le_refl _) { m with heap := m.heap.define s name v } (hm.define s name (hsize ▸ hv.1))
      ((m.heap.size_define s name v).trans hsize)
  newClosure {w s s' body body'} params hs hb m hm hsize := by
    obtain ⟨hs, -⟩ := hs
    obtain ⟨hb, -⟩ := hb
    exact .ok (hm.of_frames_eq rfl) (Nat.le_of_eq hsize.symm) (.closure (hsize ▸ hb) (hsize ▸ hs))

/-- The body of a closure runs in a scope that is new, inside one that exists. -/
theorem sound_calls (settings : Settings) : (soundness settings).Calls where
  unfinished _ m hm hsize := .error hm (Nat.le_of_eq hsize.symm)
  call {body body'} hbody w s s' i i' params t t' outer outer' name args args' hs hc hargs _ m hm hsize := by
    by_cases henter : Procedure.MayEnter settings m
    · obtain ⟨hclosure, heq⟩ := hc
      cases heq
      cases hclosure with
      | closure hb houter =>
        have hbound : ∀ b ∈ params.zip args, b.2.Within m.heap.frames.size := by
          intro b hb
          rw [hsize]
          exact ((List.forall₂_and_left _ _).mp hargs).1 b.2 (List.of_mem_zip hb).2
        have hin : (Procedure.entered m name params args outer).heap.WellFormed :=
          hm.push (fun o ho => by cases ho; exact hsize ▸ houter) hbound
        have hsize' : (Procedure.entered m name params args outer).heap.frames.size = Nat.succ w + 1 :=
          (m.heap.size_push _).trans (congrArg Nat.succ hsize)
        rw [Procedure.call_of_mayEnter henter, hsize]
        have h := hbody (Nat.succ w) _ _ t t ⟨Nat.lt_succ_self _, rfl⟩ ⟨hb.mono (Nat.le_succ _), rfl⟩ _ hin hsize'
        exact (h.mono (Nat.le_succ _)).left
    · rw [Procedure.call_of_not_mayEnter henter]
      exact .error hm (Nat.le_of_eq hsize.symm)

variable {settings : Settings} {m : Machine}

theorem evaluateWithin_sound (hm : m.heap.WellFormed) (n : Nat) {tree : Value} {scope : ScopeId}
    (ht : tree.Within m.heap.frames.size) (hs : scope < m.heap.frames.size) :
    Outcome.Sound m.heap.frames.size (evaluateWithin settings n tree scope m) := by
  obtain ⟨w, hw⟩ := Nat.exists_eq_succ_of_ne_zero (Nat.ne_of_gt hm.nonempty)
  rw [hw] at ht hs ⊢
  exact (sound_calls settings).evaluateWithin (Nat.le_refl n) ⟨ht, rfl⟩ ⟨hs, rfl⟩ m hm hw

theorem applyWithin_sound (hm : m.heap.WellFormed) (n : Nat) {p : Procedure} {args : List Value} (name : String)
    (hp : p.Within m.heap.frames.size) (hargs : ∀ a ∈ args, a.Within m.heap.frames.size) :
    Outcome.Sound m.heap.frames.size (Procedure.applyWithin settings n p name args m) := by
  obtain ⟨w, hw⟩ := Nat.exists_eq_succ_of_ne_zero (Nat.ne_of_gt hm.nonempty)
  obtain ⟨v, hv, hin⟩ := hp
  rw [hw] at hin hargs ⊢
  have hrel := (sound_calls settings).applyWithin (Nat.le_refl n) w Heap.globalScope Heap.globalScope v v p p name
  exact hrel args args ⟨Nat.succ_pos w, rfl⟩ ⟨hin, rfl⟩ hv hv
    (List.forall₂_same.mpr fun a ha => ⟨hargs a ha, rfl⟩) m hm hw

end LineLisp
