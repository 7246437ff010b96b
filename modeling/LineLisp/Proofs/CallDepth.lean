/-
  LineLisp.Proofs.CallDepth — the depth as an account of calls. It is raised when a call is
  entered and lowered when that is left, and nothing else changes it; so at each moment it is
  what it was in the beginning and one more for each call that is active.
  - `Moment.Accounted.step`: a single step keeps the account.
  - `Moment.Leads.traced`: the calls that the log tells of are calls that were entered.
  - `depth_counts_calls`: the account of every evaluation, every application and every line.
-/

import LineLisp.Proofs.DepthLimit
import LineLisp.Proofs.Moments

namespace LineLisp

/-! ## The account -/

namespace Moment

variable {settings : Settings} {E : List Call → Call → Prop} {x y : Moment}

/-- The depth counts the calls that are active beside `base` others. They are numbered in turn,
    and the limit left room for each. -/
structure Accounted (settings : Settings) (base : Nat) (x : Moment) : Prop where
  depth : x.machine.depth = base + x.calls.length
  number {c : Call} {cs : List Call} : c :: cs <:+ x.calls → c.number = base + cs.length
  allowed {c : Call} : c ∈ x.calls → ∀ limit, settings.maxDepth = some limit → c.number < limit

theorem Accounted.step {base : Nat} (h : x.Accounted settings base) (hstep : Step settings E x y) :
    y.Accounted settings base := by
  cases hstep with
  | note => exact ⟨h.depth, h.number, h.allowed⟩
  | write => exact ⟨h.depth, h.number, h.allowed⟩
  | define => exact ⟨h.depth, h.number, h.allowed⟩
  | makeClosure => exact ⟨h.depth, h.number, h.allowed⟩
  | enter _ hnumber _ _ henter =>
    refine ⟨congrArg (· + 1) h.depth, fun hsuffix => ?_, fun hmem limit hlimit => ?_⟩
    · rcases List.suffix_cons_iff.mp hsuffix with heq | hsuffix
      · obtain ⟨rfl, rfl⟩ := List.cons.inj heq
        exact hnumber.trans h.depth
      · exact h.number hsuffix
    · rcases List.mem_cons.mp hmem with rfl | hmem
      · exact hnumber ▸ henter limit hlimit
      · exact h.allowed hmem limit hlimit
  | leave =>
    refine ⟨congrArg (· - 1) h.depth, fun hsuffix => ?_, fun hmem => h.allowed (List.mem_cons_of_mem _ hmem)⟩
    exact h.number (hsuffix.trans (List.suffix_cons _ _))

theorem Accounted.leads {base : Nat} (h : x.Accounted settings base) (hleads : Leads settings E x y) :
    y.Accounted settings base := by
  induction hleads with
  | refl => exact h
  | tail _ hstep ih => exact ih.step hstep

theorem accounted_start (settings : Settings) (m : Machine) : Accounted settings m.depth ⟨[], m⟩ :=
  ⟨rfl, fun hsuffix => absurd (List.suffix_nil.mp hsuffix) (List.cons_ne_nil _ _),
    fun hmem => absurd hmem List.not_mem_nil⟩

/-- A call is one deeper than the one around it. -/
theorem Accounted.number_succ {base : Nat} (h : x.Accounted settings base) {c c' : Call} {cs : List Call}
    (hcalls : c :: c' :: cs <:+ x.calls) : c.number = c'.number + 1 := by
  rw [h.number hcalls, h.number ((List.suffix_cons c _).trans hcalls)]
  rfl

/-! ## The log -/

theorem Step.log (h : Step settings E x y) : x.machine.log.toList <+: y.machine.log.toList := by
  cases h with
  | note => simp
  | enter => simp [Procedure.entered]
  | write => exact List.prefix_rfl
  | define => exact List.prefix_rfl
  | makeClosure => exact List.prefix_rfl
  | leave => exact List.prefix_rfl

theorem Leads.log (h : Leads settings E x y) : x.machine.log.toList <+: y.machine.log.toList := by
  induction h with
  | refl => exact List.prefix_rfl
  | tail _ hstep ih => exact ih.trans hstep.log

/-- Only the entering of a call notes one. -/
theorem Step.traced (h : Step settings E x y) {name : String} {d : Nat}
    (hmem : .calling name d ∈ x.machine.since y.machine) : ∃ cs c, E cs c ∧ c.name = name ∧ c.number = d := by
  have silent {m m' : Machine} (hlog : m'.log = m.log) : .calling name d ∉ m.since m' := by
    rw [Machine.since, hlog, ← Array.length_toList, List.drop_length]
    exact List.not_mem_nil
  cases h with
  | note hevent =>
    rw [Machine.since_of_push rfl] at hmem
    rw [← List.mem_singleton.mp hmem] at hevent
    cases hevent
  | @enter cs c _ _ hc hnumber =>
    rw [Machine.since_of_push rfl] at hmem
    obtain ⟨rfl, rfl⟩ := LogEvent.calling.inj (List.mem_singleton.mp hmem)
    exact ⟨cs, c, hc, rfl, hnumber⟩
  | write => exact absurd hmem (silent rfl)
  | define => exact absurd hmem (silent rfl)
  | makeClosure => exact absurd hmem (silent rfl)
  | leave => exact absurd hmem (silent rfl)

/-- The calls that the log tells of are calls that were entered. -/
theorem Leads.traced (h : Leads settings E x y) {name : String} {d : Nat}
    (hmem : .calling name d ∈ x.machine.since y.machine) : ∃ cs c, E cs c ∧ c.name = name ∧ c.number = d := by
  induction h with
  | refl =>
    rw [Machine.since, ← Array.length_toList, List.drop_length] at hmem
    cases hmem
  | tail hleads hstep ih =>
    rw [Machine.since_trans (Leads.log hleads) hstep.log] at hmem
    rcases List.mem_append.mp hmem with hmem | hmem
    · exact ih hmem
    · exact hstep.traced hmem

end Moment

/-! ## Operations -/

/-- In an operation that begins in a machine the depth counts the calls that are active. -/
structure Operation.Counted (settings : Settings) (m : Machine) (op : Operation) : Prop where
  /-- However the operation ends, the depth is as before. -/
  restored {m' : Machine} : Ends settings m op m' → m'.depth = m.depth
  /-- It is a sequence of steps that leaves every call that it enters. -/
  stepwise {m' : Machine} : Ends settings m op m' → Moment.Leads settings (Enters settings m op) ⟨[], m⟩ ⟨[], m'⟩
  /-- The account is right at every moment, whether the operation ever ends or not. -/
  accounted {x : Moment} : Moment.Leads settings (Enters settings m op) ⟨[], m⟩ x → x.Accounted settings m.depth
  /-- So it is wherever an evaluation begins. -/
  evaluation {cs : List Call} {t : Task} : Runs settings m op cs t → t.machine.depth = m.depth + cs.length
  /-- A call is numbered by the calls that are active, for which the limit leaves room. -/
  number {cs : List Call} {c : Call} : Enters settings m op cs c → c.number = m.depth + cs.length
  allowed {cs : List Call} {c : Call} : Enters settings m op cs c →
    ∀ limit, settings.maxDepth = some limit → m.depth + cs.length < limit
  enclosing {c c' : Call} {cs : List Call} : Enters settings m op (c' :: cs) c → c.number = c'.number + 1
  /-- What the log tells of calls are the numbers of calls that the operation enters, where it
      ends and wherever an evaluation begins. -/
  traced {m' : Machine} {name : String} {d : Nat} : Ends settings m op m' → .calling name d ∈ m.since m' →
    ∃ cs c, Enters settings m op cs c ∧ c.name = name ∧ c.number = d
  tracedSoFar {cs₁ : List Call} {t : Task} {name : String} {d : Nat} : Runs settings m op cs₁ t →
    .calling name d ∈ m.since t.machine → ∃ cs c, Enters settings m op cs c ∧ c.name = name ∧ c.number = d

theorem Operation.Enters.accounted {settings : Settings} {m : Machine} {op : Operation} {cs : List Call} {c : Call}
    (h : Enters settings m op cs c) : ∃ m', Moment.Accounted settings m.depth ⟨c :: cs, m'⟩ := by
  obtain ⟨m₁, m₂, hleads, hstep⟩ := h.leads
  exact ⟨m₂, ((Moment.accounted_start settings m).leads hleads).step hstep⟩

/-- The depth after an operation is the depth before it, and at each moment in between it is that
    and the number of calls that were entered and not left. In the states that are reached by
    whole operations it is 0. -/
theorem depth_counts_calls (settings : Settings) (m : Machine) (op : Operation) :
    op.Counted settings m ∧ (m.Reachable → m.depth = 0) := by
  have hstart := Moment.accounted_start settings m
  refine ⟨?_, fun hm => hm.depth_eq⟩
  constructor
  case restored => exact fun h => (hstart.leads h.leads).depth
  case stepwise => exact fun h => h.leads
  case accounted => exact fun h => hstart.leads h
  case evaluation => exact fun h => (hstart.leads h.leads).depth
  case number =>
    intro cs c h
    obtain ⟨_, hx⟩ := h.accounted
    exact hx.number List.suffix_rfl
  case allowed =>
    intro cs c h limit hlimit
    obtain ⟨_, hx⟩ := h.accounted
    rw [← hx.number List.suffix_rfl]
    exact hx.allowed List.mem_cons_self limit hlimit
  case enclosing =>
    intro c c' cs h
    obtain ⟨_, hx⟩ := h.accounted
    exact hx.number_succ List.suffix_rfl
  case traced => exact fun h hmem => h.leads.traced hmem
  case tracedSoFar => exact fun h hmem => h.leads.traced hmem

/-- A closure that calls itself is stopped by the limit inside its own call; the depth is as
    before, and the log tells of a call numbered 1. -/
theorem depth_counts_calls_refused :
    (calling .global).Reachable ∧ ∃ m', Operation.Ends ⟨true, some 2⟩ (calling .global)
      (.evaluate (.list [.symbol "f"]) 1) m' ∧ m'.depth = 0 ∧
        ∃ cs c, Operation.Enters ⟨true, some 2⟩ (calling .global) (.evaluate (.list [.symbol "f"]) 1) cs c ∧
          c.name = "f" ∧ c.number = 1 ∧ cs.length = 1 := by
  obtain ⟨hcounted, hzero⟩ := depth_counts_calls ⟨true, some 2⟩ (calling .global) (.evaluate (.list [.symbol "f"]) 1)
  have hlog (global : Frame) : (Outcome.machine (evaluateWithin ⟨true, some 2⟩ 2 (.list [.symbol "f"]) 1
      (calling global))).log = #[.calling "f" 0, .calling "f" 1] := by cbv
  have hfin (global : Frame) : Outcome.Finished (evaluateWithin ⟨true, some 2⟩ 2 (.list [.symbol "f"]) 1
      (calling global)) := by cbv
  have hends : Operation.Ends ⟨true, some 2⟩ (calling .global) (.evaluate (.list [.symbol "f"]) 1) _ :=
    .evaluate ⟨⟨2, rfl⟩, hfin .global⟩
  have hmem : .calling "f" 1 ∈ (calling .global).since (Outcome.machine (evaluateWithin ⟨true, some 2⟩ 2
      (.list [.symbol "f"]) 1 (calling .global))) := by
    rw [Machine.since, hlog]
    decide
  obtain ⟨cs, c, hc, hname, hnumber⟩ := hcounted.traced hends hmem
  have hcount := hcounted.number hc
  rw [hzero calling_reachable, hnumber] at hcount
  exact ⟨calling_reachable, _, hends, (hcounted.restored hends).trans (hzero calling_reachable), cs, c, hc, hname,
    hnumber, by omega⟩

end LineLisp
