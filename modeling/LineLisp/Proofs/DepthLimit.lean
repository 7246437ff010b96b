/-
  LineLisp.Proofs.DepthLimit — two runs that differ in the limit on active calls. They are one
  run until the lower limit refuses a call; from there on the run under it does nothing more,
  while the other one goes into the call and may write on.
  - `limit_transparent`: a run under the lower limit that ends otherwise is the run under the
    higher one, and a run under the higher one is that under the lower one exactly if no call
    begins in it for which the lower limit leaves no room.
-/

import LineLisp.Proofs.Propagation
import LineLisp.Proofs.Reachable

namespace LineLisp

/-! ## Events of a run -/

/-- The events that the later machine has noted since the earlier one. -/
def Machine.since (m m' : Machine) : List LogEvent := m'.log.toList.drop m.log.size

theorem Machine.log_eq {m m' : Machine} (h : m.log.toList <+: m'.log.toList) :
    m'.log.toList = m.log.toList ++ m.since m' := by
  obtain ⟨es, hes⟩ := h
  rw [since, ← hes, ← Array.length_toList, List.drop_left]

theorem Machine.since_trans {m₁ m₂ m₃ : Machine} (h : m₁.log.toList <+: m₂.log.toList)
    (h' : m₂.log.toList <+: m₃.log.toList) : m₁.since m₃ = m₁.since m₂ ++ m₂.since m₃ := by
  have h₃ := log_eq (h.trans h')
  rw [log_eq h', log_eq h, List.append_assoc] at h₃
  exact (List.append_cancel_left h₃).symm

theorem Machine.since_of_push {m m' : Machine} {event : LogEvent} (h : m'.log = m.log.push event) :
    m.since m' = [event] := by
  simp [since, h, ← Array.length_toList]

/-- In going from the one machine to the other no call began while `n` were active. -/
def Shallow (n : Nat) (m m' : Machine) : Prop := ∀ name d, .calling name d ∈ m.since m' → d < n

namespace Shallow

variable {n : Nat} {m₁ m₂ m₃ : Machine}

theorem of_log_eq (h : m₂.log = m₁.log) : Shallow n m₁ m₂ := by
  intro name d hmem
  rw [Machine.since, h, ← Array.length_toList, List.drop_length] at hmem
  cases hmem

theorem trans_iff (h : m₁.log.toList <+: m₂.log.toList) (h' : m₂.log.toList <+: m₃.log.toList) :
    Shallow n m₁ m₃ ↔ Shallow n m₁ m₂ ∧ Shallow n m₂ m₃ := by
  unfold Shallow
  rw [Machine.since_trans h h']
  simp only [List.mem_append]
  constructor
  · exact fun hs => ⟨fun name d hd => hs name d (.inl hd), fun name d hd => hs name d (.inr hd)⟩
  · rintro ⟨h₁, h₂⟩ name d (hd | hd)
    · exact h₁ name d hd
    · exact h₂ name d hd

theorem note {m : Machine} {event : LogEvent} (h : event.level = .debug) :
    Shallow n m { m with log := m.log.push event } := by
  intro name d hmem
  rw [Machine.since_of_push rfl] at hmem
  obtain rfl := List.mem_singleton.mp hmem
  cases h

theorem entered_iff {m : Machine} {name : String} {params : List String} {args : List Value} {outer : ScopeId} :
    Shallow n m (Procedure.entered m name params args outer) ↔ m.depth < n := by
  unfold Shallow
  rw [Machine.since_of_push rfl]
  simp only [List.mem_singleton, LogEvent.calling.injEq]
  exact ⟨fun h => h name m.depth ⟨rfl, rfl⟩, fun h _ _ hd => hd.2 ▸ h⟩

end Shallow

/-! ## Cut runs -/

/-- What a run under the limit `n` may come to from a machine, beside a run under a higher one:
    to nothing, to the same as the other in a shallow run, or to the error of the limit, the
    other run being deeper and having written no less. -/
inductive Cut {α : Type} (n : Nat) (m : Machine) : Outcome EvalError α → Outcome EvalError α → Prop
  | unfinished {m₁ : Machine} {r' : Outcome EvalError α} : Cut n m (.error .unfinished m₁) r'
  | same {r : Outcome EvalError α} : Shallow n m r.machine → Cut n m r r
  | refused {r' : Outcome EvalError α} {m₁ : Machine} : m₁.sink.lines.toList <+: r'.machine.sink.lines.toList →
      ¬ Shallow n m r'.machine → Cut n m (.error (.failed (.stackLimitExceeded n)) m₁) r'

namespace Cut

variable {α β : Type} {n : Nat} {m : Machine}

/-- What the other run does after the cut one was refused changes nothing about that. -/
theorem later {m₁ : Machine} {r : Outcome EvalError α} {r' : Outcome EvalError β} (hm : Grows m r.machine)
    (hr : Grows r.machine r'.machine) (hlines : m₁.sink.lines.toList <+: r.machine.sink.lines.toList)
    (hdeep : ¬ Shallow n m r.machine) :
    Cut n m (.error (.failed (.stackLimitExceeded n)) m₁ : Outcome EvalError β) r' :=
  .refused (hlines.trans hr.lines) fun h => hdeep ((Shallow.trans_iff hm.log hr.log).mp h).1

/-- What is cut after a shallow part of a run is cut. -/
theorem after {m' : Machine} {r r' : Outcome EvalError α} (h : Cut n m' r r') (hlog : m.log.toList <+: m'.log.toList)
    (hr : m'.log.toList <+: r'.machine.log.toList) (hshallow : Shallow n m m') : Cut n m r r' := by
  cases h with
  | unfinished => exact .unfinished
  | same h => exact .same ((Shallow.trans_iff hlog hr).mpr ⟨hshallow, h⟩)
  | refused hlines hdeep => exact .refused hlines fun h => hdeep ((Shallow.trans_iff hlog hr).mp h).2

theorem left {r r' : Outcome EvalError α} (h : Cut n m r r') :
    Cut n m (r.onMachine .left) (r'.onMachine .left) := by
  cases h with
  | unfinished => exact .unfinished
  | @same r h => exact .same (by rw [Outcome.machine_onMachine]; exact h)
  | @refused r' _ hlines hdeep =>
    exact .refused (by rw [Outcome.machine_onMachine]; exact hlines) (by rw [Outcome.machine_onMachine]; exact hdeep)

end Cut

variable {low high : Settings} {n : Nat}

/-- Computations that grow on one side and, while no more than `n` calls are active, are cut at
    the limit `n` on the other. -/
def cutAt (n : Nat) (hg : low.SameReads high) : Congruence low high where
  rel _ _ x y := ∀ m : Machine, Grows m (Outcome.machine (y m)) ∧ (m.depth ≤ n → Cut n m (x m) (y m))
  sameReads := hg
  pure _ _ _ m := ⟨.refl m, fun _ => .same (.of_log_eq rfl)⟩
  fail _ _ _ m := ⟨.refl m, fun _ => .same (.of_log_eq rfl)⟩
  bind {s α β x y f g} hx hf m := by
    obtain ⟨hgrows, hcut⟩ := hx m
    -- However the other side goes on, it grows.
    have hrest : Grows (Outcome.machine (y m)) (Outcome.machine ((y >>= g) m)) := by
      rw [Run.bind_apply]
      cases y m with
      | ok a m' => exact (hf a m').1
      | error e m' => exact .refl m'
    refine ⟨hgrows.trans hrest, fun hm => ?_⟩
    have hcut := hcut hm
    rw [Run.bind_apply]
    generalize hxm : x m = r at hcut
    generalize hym : y m = r' at hcut hgrows hrest
    cases hcut with
    | unfinished => exact .unfinished
    | refused hlines hdeep => exact .later hgrows hrest hlines hdeep
    | same hshallow =>
      rw [Run.bind_apply, hym]
      cases r with
      | error e m' => exact .same hshallow
      | ok a m' =>
        obtain ⟨hrest, hcut⟩ := hf a m'
        exact (hcut (Nat.le_trans (Nat.le_of_eq hgrows.depth) hm)).after hgrows.log hrest.log hshallow
  inGlobal _ h := h
  lookup _ _ m := ⟨.refl m, fun _ => .same (.of_log_eq rfl)⟩
  isBound _ _ m := ⟨.refl m, fun _ => .same (.of_log_eq rfl)⟩
  note _ event h m := ⟨(growth low).note Heap.globalScope m event, fun _ => .same (.note h)⟩
  emit _ line m := by
    cases hm : m.sink.isFull with
    | true => rw [Eval.emit_of_full hm]; exact ⟨.refl m, fun _ => .same (.of_log_eq rfl)⟩
    | false =>
      rw [Eval.emit_of_room hm]
      exact ⟨(growth low).write Heap.globalScope m line, fun _ => .same (.of_log_eq rfl)⟩
  define s name v m := ⟨(growth low).define s m name v, fun _ => .same (.of_log_eq rfl)⟩
  newClosure s _ _ m := ⟨(growth low).makeClosure s m, fun _ => .same (.of_log_eq rfl)⟩

/-! ## Calls -/

section Calls

variable (hlow : low.maxDepth = some n) (hhigh : ∀ l, high.maxDepth = some l → n < l)
variable (hg : low.SameReads high)

include hlow hhigh

/-- The call that the lower limit refuses begins under the higher one. -/
theorem call_cutAt {body body' : Meaning} (hbody : ∀ s, (cutAt n hg).rel s (body s) (body' s)) (s : ScopeId)
    (name : String) (params : List String) (args : List Value) (outer : ScopeId) :
    (cutAt n hg).rel s (Procedure.call low name params args outer body)
      (Procedure.call high name params args outer body') := by
  intro m
  by_cases hm : Procedure.MayEnter high m
  · obtain ⟨hgrows, hcut⟩ := hbody m.heap.frames.size (Procedure.entered m name params args outer)
    have hleft := (growth high).call s hgrows
    rw [Procedure.call_of_mayEnter hm]
    refine ⟨by rwa [Outcome.machine_onMachine], fun hdepth => ?_⟩
    have hlog : m.log.toList <+: (Procedure.entered m name params args outer).log.toList := by
      simp [Procedure.entered]
    by_cases hn : m.depth < n
    · have henter : Procedure.MayEnter low m := fun l hl => by rwa [Option.some.inj (hl.symm.trans hlow)]
      rw [Procedure.call_of_mayEnter henter]
      exact ((hcut hn).after hlog hgrows.log (Shallow.entered_iff.mpr hn)).left
    · have henter : ¬ Procedure.MayEnter low m := fun h => hn (h n hlow)
      rw [Procedure.call_of_not_mayEnter henter, Procedure.tooDeep, hlow]
      refine .refused ?_ fun h => hn ?_
      · rw [Outcome.machine_onMachine]
        exact hleft.lines
      · rw [Outcome.machine_onMachine] at h
        exact Shallow.entered_iff.mp ((Shallow.trans_iff hlog hgrows.log).mp h).1
  · rw [Procedure.call_of_not_mayEnter hm]
    refine ⟨.refl m, fun hdepth => absurd (fun l hl => ?_) hm⟩
    exact Nat.lt_of_le_of_lt hdepth (hhigh l hl)

theorem cutAt_graded : Congruence.Graded fun _ => cutAt n hg where
  zero := call_cutAt hlow hhigh hg fun _ m => ⟨.refl m, fun _ => .unfinished⟩
  succ := call_cutAt hlow hhigh hg

end Calls

/-! ## Transparency -/

/-- The outcomes under two limits, the lower one `n`, of runs from one machine. The second run
    is compared where it ends; it need not. -/
structure Transparent (n : Nat) (m : Machine) (low high : Outcome EvalError Value → Prop) : Prop where
  upward {r : Outcome EvalError Value} : low r →
    (∀ m', r ≠ .error (.failed (.stackLimitExceeded n)) m') → high r
  shallow {r : Outcome EvalError Value} : high r → Shallow n m r.machine → low r
  deep {r : Outcome EvalError Value} : high r → ¬ Shallow n m r.machine →
    ∃ m', low (.error (.failed (.stackLimitExceeded n)) m') ∧ m'.sink.lines.toList <+: r.machine.sink.lines.toList

/-- Runs that are cut within any number of calls, and end within enough of them under the lower
    limit. -/
theorem Transparent.of_cut {m : Machine} {low high : Nat → Eval Value}
    (hcut : ∀ k, Cut n m (low k m) (high k m)) (hlow : ∃ K, ∀ k, K ≤ k → Outcome.Finished (low k m))
    (hmono : ∀ k k', k ≤ k' → Outcome.Finished (high k m) → high k' m = high k m) :
    Transparent n m (Ends low m) (Ends high m) := by
  obtain ⟨K, hK⟩ := hlow
  -- Both runs within enough calls.
  have together {r : Outcome EvalError Value} (hr : Ends high m r) : ∃ k, Outcome.Finished (low k m) ∧ Cut n m (low k m) r := by
    obtain ⟨⟨k, rfl⟩, hfin⟩ := hr
    refine ⟨max k K, hK _ (by omega), ?_⟩
    have h := hcut (max k K)
    rwa [hmono k (max k K) (by omega) hfin] at h
  refine ⟨?_, ?_, ?_⟩
  · rintro r ⟨⟨k, rfl⟩, hfin⟩ hr
    have h := hcut k
    generalize hlow : low k m = r at h hfin hr
    generalize hhigh : high k m = r' at h
    cases h with
    | unfinished => exact hfin.elim
    | same _ => exact ⟨⟨k, hhigh⟩, hfin⟩
    | @refused _ m₁ _ _ => exact absurd rfl (hr m₁)
  · intro r hr hshallow
    obtain ⟨k, hfin, h⟩ := together hr
    generalize hlow : low k m = r' at h hfin
    cases h with
    | unfinished => exact hfin.elim
    | same _ => exact ⟨⟨k, hlow⟩, hfin⟩
    | refused _ hdeep => exact absurd hshallow hdeep
  · intro r hr hdeep
    obtain ⟨k, hfin, h⟩ := together hr
    generalize hlow : low k m = r' at h hfin
    cases h with
    | unfinished => exact hfin.elim
    | same hshallow => exact absurd hshallow hdeep
    | @refused _ m₁ hlines _ => exact ⟨m₁, ⟨⟨k, hlow⟩, trivial⟩, hlines⟩

/-- A limit `n` on active calls is transparent to runs that keep to it and refuses exactly the
    others, whatever the higher limit that they are compared with; and no operation turns the
    error of a limit into a value. -/
theorem limit_transparent (setReadsGlobal : Bool) {n : Nat} {limit : Option Nat}
    (hlimit : ∀ l, limit = some l → n < l) {m : Machine} (hm : m.Reachable) :
    let low : Settings := ⟨setReadsGlobal, some n⟩
    let high : Settings := ⟨setReadsGlobal, limit⟩
    (∀ tree scope, Transparent n m (Evaluates low tree scope m) (Evaluates high tree scope m)) ∧
    (∀ p name args, Transparent n m (Applies low p name args m) (Applies high p name args m)) ∧
    ∀ settings l, Propagates settings (.stackLimitExceeded l) := by
  intro low high
  have hdepth : m.depth ≤ n := hm.depth_eq ▸ Nat.zero_le n
  have hlow : low.maxDepth = some n := rfl
  have hg : low.SameReads high := rfl
  refine ⟨fun tree scope => .of_cut (fun k => ?_) ⟨n, fun k hk => ?_⟩ fun _ _ hk => evaluateWithin_mono hk,
    fun p name args => .of_cut (fun k => ?_) ⟨n, fun k hk => ?_⟩ fun _ _ hk => applyWithin_mono hk,
    fun settings l => propagates settings _⟩
  · exact ((cutAt_graded hlow hlimit hg).evaluateWithin k tree scope m).2 hdepth
  · exact evaluateWithin_finished hlow (by omega) tree scope
  · exact ((cutAt_graded hlow hlimit hg).applyWithin k Heap.globalScope p name args m).2 hdepth
  · exact applyWithin_finished hlow (by omega) p name args

/-- A scope inside none with `f` bound to a closure that calls itself, beside some global
    scope. -/
def calling (global : Frame) : Machine where
  heap := ⟨#[global, ⟨none, [("f", .closure 0 [] (.list [.symbol "f"]) 1)]⟩], 0⟩
  depth := 0
  sink := .empty none
  log := #[]

theorem calling_reachable : (calling .global).Reachable := by
  have hscope : Machine.Reachable
      { Machine.initial none with heap := (Heap.initial.push (.ofBindings none [])).2 } :=
    .newScope (.initial none) (fun o ho => by cases ho) (fun b hb => absurd hb List.not_mem_nil)
  refine .define 1 "f" hscope (.closure (.list ?_) (Nat.lt_succ_self 1))
  simpa using .symbol "f"

/-- The second call of `f` is one too many under the limit 1; under the limit 2 it begins. -/
theorem limit_transparent_calling :
    (calling .global).Reachable ∧ ∃ r, Evaluates ⟨true, some 2⟩ (.list [.symbol "f"]) 1 (calling .global) r ∧
      ∃ m', Evaluates ⟨true, some 1⟩ (.list [.symbol "f"]) 1 (calling .global)
        (.error (.failed (.stackLimitExceeded 1)) m') ∧ m'.sink.lines.toList <+: r.machine.sink.lines.toList := by
  have hlimit : ∀ l, some 2 = some l → 1 < l := by
    intro l h
    cases h
    decide
  obtain ⟨heval, -, -⟩ := limit_transparent true hlimit calling_reachable
  have hlog (global : Frame) : (Outcome.machine (evaluateWithin ⟨true, some 2⟩ 2 (.list [.symbol "f"]) 1
      (calling global))).log = #[.calling "f" 0, .calling "f" 1] := by cbv
  have hfin (global : Frame) : Outcome.Finished (evaluateWithin ⟨true, some 2⟩ 2 (.list [.symbol "f"]) 1
      (calling global)) := by cbv
  have hr : Evaluates ⟨true, some 2⟩ (.list [.symbol "f"]) 1 (calling .global) _ := ⟨⟨2, rfl⟩, hfin .global⟩
  refine ⟨calling_reachable, _, hr, (heval _ _).deep hr fun hshallow => ?_⟩
  have hmem : .calling "f" 1 ∈ (calling .global).since (Outcome.machine (evaluateWithin ⟨true, some 2⟩ 2
      (.list [.symbol "f"]) 1 (calling .global))) := by
    rw [Machine.since, hlog]
    decide
  exact absurd (hshallow "f" 1 hmem) (Nat.lt_irrefl 1)

end LineLisp
