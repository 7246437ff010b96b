/-
  LineLisp.Proofs.Termination — under a limit on active calls nothing runs for ever. The body
  of a closure comes out of the heap, where programs may bind names to closures that call
  themselves and each other; but each call leaves the limit room for one less, and an operand
  is smaller than its form.
  - `evaluation_terminates`: in every state that is reached, every evaluation and application
    ends; evaluations begin no endless nest of others; and wherever one of those begins, every
    look-up follows the scopes to their end.
-/

import LineLisp.Proofs.Nesting
import LineLisp.Proofs.Reachable

namespace LineLisp

/-! ## Tasks in well-formed heaps -/

/-- The heap is well-formed and the tree and the scope are at home in it. -/
structure Task.Valid (t : Task) : Prop where
  wellFormed : t.machine.heap.WellFormed
  tree : t.tree.Within t.machine.heap.frames.size
  scope : t.scope < t.machine.heap.frames.size

/-- The later heap is well-formed and has no fewer scopes. -/
structure Heap.Follows (h h' : Heap) : Prop where
  wellFormed : h'.WellFormed
  size_le : h.frames.size ≤ h'.frames.size

theorem Heap.Follows.refl {h : Heap} (hw : h.WellFormed) : h.Follows h := ⟨hw, Nat.le_refl _⟩

theorem Heap.Follows.trans {h₁ h₂ h₃ : Heap} (h : h₁.Follows h₂) (h' : h₂.Follows h₃) : h₁.Follows h₃ :=
  ⟨h'.wellFormed, Nat.le_trans h.size_le h'.size_le⟩

theorem Value.Within.of_mem {n : Nat} {vs : List Value} (h : Within n (.list vs)) {v : Value} (hv : v ∈ vs) :
    v.Within n := by
  cases h with
  | list h => exact h v hv

theorem Value.Within.of_form {n : Nat} {keyword : Keyword} {operands : List Value}
    (h : Within n (form keyword operands)) {i : Nat} {e : Value} (he : operands[i]? = some e) : e.Within n :=
  h.of_mem (List.mem_cons_of_mem _ (List.mem_of_getElem? he))

variable {settings : Settings}

theorem Evaluates.follows {tree v : Value} {scope : ScopeId} {m m' : Machine} (hm : m.heap.WellFormed)
    (ht : tree.Within m.heap.frames.size) (hs : scope < m.heap.frames.size)
    (h : Evaluates settings tree scope m (.ok v m')) :
    m.heap.Follows m'.heap ∧ v.Within m'.heap.frames.size := by
  obtain ⟨⟨n, hn⟩, -⟩ := h
  have hsound : Outcome.Sound m.heap.frames.size (evaluateWithin settings n tree scope m) :=
    evaluateWithin_sound hm n ht hs
  have hn : evaluateWithin settings n tree scope m = .ok v m' := hn
  rw [hn] at hsound
  exact ⟨⟨hsound.wellFormed, hsound.size_le⟩, hsound.value rfl⟩

theorem EvaluatesAll.follows {scope : ScopeId} {trees vs : List Value} {m m' : Machine}
    (hm : m.heap.WellFormed) (ht : ∀ t ∈ trees, t.Within m.heap.frames.size) (hs : scope < m.heap.frames.size)
    (h : EvaluatesAll settings scope trees m vs m') :
    m.heap.Follows m'.heap ∧ ∀ v ∈ vs, v.Within m'.heap.frames.size := by
  induction h with
  | nil m => exact ⟨.refl hm, fun v hv => absurd hv List.not_mem_nil⟩
  | @cons _ v _ vs m m₁ m' he _ ih =>
    rw [List.forall_mem_cons] at ht
    obtain ⟨h₁, hv⟩ := he.follows hm ht.1 hs
    obtain ⟨h₂, hvs⟩ := ih h₁.wellFormed (fun t h => (ht.2 t h).mono h₁.size_le) (Nat.lt_of_lt_of_le hs h₁.size_le)
    exact ⟨h₁.trans h₂, List.forall_mem_cons.mpr ⟨hv.mono h₂.size_le, hvs⟩⟩

theorem Eval.emit_heap {line : String} {m m' : Machine} (h : emit line m = .ok () m') : m'.heap = m.heap := by
  cases hm : m.sink.isFull with
  | true => rw [emit_of_full hm] at h; cases h
  | false => rw [emit_of_room hm] at h; cases h; rfl

theorem Rounds.follows {body : Value} {scope : ScopeId} {n : Nat} {m m' : Machine} (hm : m.heap.WellFormed)
    (hb : body.Within m.heap.frames.size) (hs : scope < m.heap.frames.size)
    (h : Rounds settings body scope n m m') : m.heap.Follows m'.heap := by
  induction h with
  | zero m => exact .refl hm
  | succ he hw _ ih =>
    have h₁ := (he.follows hm hb hs).1
    rw [← Eval.emit_heap hw] at h₁
    exact h₁.trans (ih h₁.wellFormed (hb.mono h₁.size_le) (Nat.lt_of_lt_of_le hs h₁.size_le))

theorem Form.warn_heap {scope : ScopeId} {name : String} {m m' : Machine} (h : warn scope name m = .ok () m') :
    m'.heap = m.heap := by
  rw [warn_apply] at h
  split at h
  · cases h
    rfl
  · exact (Eval.emit_heap h).trans rfl

theorem Task.Valid.mono {tree e : Value} {scope : ScopeId} {m m' : Machine} (h : Valid ⟨tree, scope, m⟩)
    (he : e.Within m.heap.frames.size) (hm : m.heap.Follows m'.heap) : Valid ⟨e, scope, m'⟩ :=
  ⟨hm.wellFormed, he.mono hm.size_le, Nat.lt_of_lt_of_le h.scope hm.size_le⟩

/-- The body of a closure begins in a scope that is new, inside one that exists. -/
theorem Task.Valid.entered {m : Machine} {id : ClosureId} {params : List String} {body : Value} {outer : ScopeId}
    {name : String} {args : List Value} (hm : m.heap.WellFormed)
    (hclosure : (Value.closure id params body outer).Within m.heap.frames.size)
    (hargs : ∀ a ∈ args, a.Within m.heap.frames.size) :
    Valid ⟨body, m.heap.frames.size, Procedure.entered m name params args outer⟩ := by
  cases hclosure with
  | closure hb houter =>
    have hsize : (Procedure.entered m name params args outer).heap.frames.size = m.heap.frames.size + 1 :=
      m.heap.size_push _
    refine ⟨hm.push ?_ fun b hb => hargs b.2 (List.of_mem_zip hb).2, ?_, ?_⟩
    · intro o ho
      cases ho
      exact houter
    · show body.Within (Procedure.entered m name params args outer).heap.frames.size
      rw [hsize]
      exact hb.mono (Nat.le_succ _)
    · show m.heap.frames.size < (Procedure.entered m name params args outer).heap.frames.size
      rw [hsize]
      exact Nat.lt_succ_self _

/-- What an evaluation in a well-formed heap begins has a well-formed heap as well. -/
theorem Begins.valid {t t' : Task} (h : Begins settings t t') (hv : t.Valid) : t'.Valid := by
  have hm := hv.wellFormed
  have hs := hv.scope
  have htree := hv.tree
  cases h with
  | condition hc => exact hv.mono (htree.of_form hc) (.refl hm)
  | branch hc he hb => exact hv.mono (htree.of_form hb) (he.follows hm (htree.of_form hc) hs).1
  | definition _ he => exact hv.mono (htree.of_form he) (.refl hm)
  | @assignment _ scope m m' _ _ _ he hw =>
    have hwarned : m.heap.Follows m'.heap := by
      rw [Form.warn_heap hw]
      exact .refl hm
    have h' := hv.mono (htree.of_form he) hwarned
    refine ⟨h'.wellFormed, h'.tree, ?_⟩
    show (if settings.setReadsGlobal then Heap.globalScope else scope) < m'.heap.frames.size
    split
    · exact h'.wellFormed.nonempty
    · exact h'.scope
  | count hc => exact hv.mono (htree.of_form hc) (.refl hm)
  | round hc he _ hb _ hr =>
    have h₁ := (he.follows hm (htree.of_form hc) hs).1
    have hbody := htree.of_form hb
    refine hv.mono hbody (h₁.trans (hr.follows h₁.wellFormed (hbody.mono h₁.size_le) ?_))
    exact Nat.lt_of_lt_of_le hs h₁.size_le
  | @operand name before after vs scope m m' e _ hall =>
    have hmem {t : Value} (ht : t ∈ before ++ e :: after) : t.Within m.heap.frames.size :=
      htree.of_mem (List.mem_cons_of_mem _ ht)
    refine hv.mono (hmem (by simp)) (hall.follows hm (fun t ht => hmem (by simp [ht])) hs).1
  | @call name operands args scope m m' id params body outer _ hf hall _ _ =>
    obtain ⟨h₁, hargs⟩ := hall.follows hm (fun t ht => htree.of_mem (List.mem_cons_of_mem _ ht)) hs
    exact .entered h₁.wellFormed ((hm.get?_within hf).mono h₁.size_le) hargs

/-! ## Termination -/

/-- Under a limit on active calls every evaluation and every application ends, no nest of
    evaluations goes on for ever, and in all of them look-ups come to the end of the scopes. -/
theorem evaluation_terminates (setReadsGlobal : Bool) (limit : Nat) {m : Machine} (hm : m.Reachable) :
    let settings : Settings := ⟨setReadsGlobal, some limit⟩
    (∀ tree scope, ∃ r, Evaluates settings tree scope m r ∧ evaluate settings tree scope m = r) ∧
    (∀ p name args, ∃ r, Applies settings p name args m r ∧ Procedure.apply settings p name args m = r) ∧
    (WellFounded fun t' t => Begins settings t t') ∧
    ∀ tree scope, tree.Within m.heap.frames.size → scope < m.heap.frames.size →
      ∀ t, Relation.ReflTransGen (Begins settings) ⟨tree, scope, m⟩ t →
        ∀ id, t.machine.heap.chain id =
          t.machine.heap.frames[id]?.elim [] fun f => f :: f.outer.elim [] t.machine.heap.chain := by
  intro settings
  have hs : settings.maxDepth = some limit := rfl
  have hbound : settings.callBound = limit := rfl
  refine ⟨fun tree scope => ?_, fun p name args => ?_, begins_wellFounded hs, ?_⟩
  · have hfin := evaluateWithin_finished hs (Nat.le_add_left limit m.depth) tree scope
    exact ⟨_, ⟨⟨limit, rfl⟩, hfin⟩, rfl⟩
  · have hfin : Outcome.Finished (Procedure.applyWithin settings (limit + 1) p name args m) :=
      applyWithin_finished hs (by omega) p name args
    exact ⟨_, ⟨⟨limit + 1, rfl⟩, hfin⟩, rfl⟩
  · intro tree scope ht hscope t hrun id
    have hvalid : t.Valid := by
      induction hrun with
      | refl => exact ⟨hm.wellFormed, ht, hscope⟩
      | tail _ hstep ih => exact hstep.valid ih
    exact hvalid.wellFormed.chain_eq id

/-- The global scope with `f` bound to a closure that calls itself. -/
def spinning : Machine :=
  { Machine.initial none with
    heap := Heap.initial.define Heap.globalScope "f" (.closure 0 [] (.list [.symbol "f"]) Heap.globalScope) }

theorem spinning_reachable : spinning.Reachable := by
  refine .define Heap.globalScope "f" (.initial none) (.closure (.list ?_) Nat.zero_lt_one)
  simpa using .symbol "f"

theorem evaluation_terminates_spinning :
    spinning.Reachable ∧
      (∃ r, Evaluates ⟨true, some 3⟩ (.list [.symbol "f"]) Heap.globalScope spinning r) ∧
      ∃ r, Applies ⟨true, some 3⟩ (.closure [] (.list [.symbol "f"]) Heap.globalScope) "f" [] spinning r := by
  obtain ⟨heval, happly, -, -⟩ := evaluation_terminates true 3 spinning_reachable
  obtain ⟨r, hr, -⟩ := heval (.list [.symbol "f"]) Heap.globalScope
  obtain ⟨r', hr', -⟩ := happly (.closure [] (.list [.symbol "f"]) Heap.globalScope) "f" []
  exact ⟨spinning_reachable, ⟨r, hr⟩, ⟨r', hr'⟩⟩

end LineLisp
