/-
  LineLisp.Proofs.Iteration — `repeat` is iteration. Its count is evaluated once, and what it comes to
  settles how many rounds there are: in each the body is evaluated, in the machine that the round
  before has left, and its value written. The first round that fails is the last one.
  - `RoundFails`: a round fails in the evaluation of the body or in writing its value.
  - `Iterates`: a form evaluates so many rounds and nothing else, and ends as they do.
  - `InTurn`: a tree is evaluated as two others are, one after the other.
  - `repeat_is_iteration`: counts add up, and every count that is a whole number is met.
-/

import LineLisp.Proofs.Adequacy
import LineLisp.Proofs.Succession

namespace LineLisp

variable {settings : Settings} {body : Value} {scope : ScopeId}

/-! ## Rounds -/

/-- A round that begins in the first machine fails with the error, in the second one. -/
inductive RoundFails (settings : Settings) (body : Value) (scope : ScopeId) : Machine → EvalError → Machine → Prop
  | evaluation {m m' : Machine} {e : EvalError} : Evaluates settings body scope m (.error (.failed e) m') →
      RoundFails settings body scope m e m'
  | output {m m₁ m' : Machine} {v : Value} {e : EvalError} : Evaluates settings body scope m (.ok v m₁) →
      Eval.emit v.text m₁ = .error (.failed e) m' → RoundFails settings body scope m e m'

namespace RoundFails

variable {m m' : Machine} {e : EvalError}

theorem of_round {k : Nat} (h : Form.round settings k body scope m = .error (.failed e) m') :
    RoundFails settings body scope m e m' := by
  rw [Form.round, Run.bind_apply] at h
  cases hv : evaluateWithin settings k body scope m with
  | ok v m₁ =>
    rw [hv] at h
    exact .output (.of_ok hv) h
  | error e' m₁ =>
    rw [hv] at h
    cases h
    exact .evaluation ⟨⟨k, hv⟩, trivial⟩

theorem enough (h : RoundFails settings body scope m e m') :
    Eventually (fun k => Form.round settings k body scope) m (.error (.failed e) m') := by
  cases h with
  | evaluation he => exact Eventually.bind_error he.enough
  | output hv hw => exact Eventually.bind hv.enough (.of_eq fun _ => hw)

end RoundFails

/-- Rounds that come to an end are rounds of evaluations that do. -/
theorem Rounds.of_iterate {k n : Nat} {m m' : Machine}
    (h : Eval.iterate n (Form.round settings k body scope) m = .ok () m') : Rounds settings body scope n m m' := by
  induction n generalizing m with
  | zero =>
    cases h
    exact .zero _
  | succ n ih =>
    obtain ⟨_, m₂, hround, hrest⟩ := Run.bind_eq_ok h
    obtain ⟨v, m₁, hv, hw⟩ := Run.bind_eq_ok hround
    exact .succ (.of_ok hv) hw (ih hrest)

/-- If rounds fail, then one of them does, and those before it have come to an end. -/
theorem RoundFails.of_iterate {k n : Nat} {m m' : Machine} {e : EvalError}
    (h : Eval.iterate n (Form.round settings k body scope) m = .error (.failed e) m') :
    ∃ i < n, ∃ m₁, Rounds settings body scope i m m₁ ∧ RoundFails settings body scope m₁ e m' := by
  induction n generalizing m with
  | zero => cases h
  | succ n ih =>
    rw [Eval.iterate, Run.bind_apply] at h
    cases hround : Form.round settings k body scope m with
    | ok u m₂ =>
      rw [hround] at h
      obtain ⟨i, hi, m₁, hr, hf⟩ := ih h
      obtain ⟨v, m₃, hv, hw⟩ := Run.bind_eq_ok hround
      exact ⟨i + 1, Nat.succ_lt_succ hi, m₁, .succ (.of_ok hv) hw hr, hf⟩
    | error e' m₂ =>
      rw [hround] at h
      cases h
      exact ⟨0, Nat.succ_pos n, m, .zero m, .of_round hround⟩

/-- The round that fails ends them all, however many were to come. -/
theorem RoundFails.iterate_enough {i n : Nat} {m m₁ m' : Machine} {e : EvalError}
    (hf : RoundFails settings body scope m₁ e m') (hr : Rounds settings body scope i m m₁) (hi : i < n) :
    Eventually (fun k => Eval.iterate n (Form.round settings k body scope)) m (.error (.failed e) m') := by
  obtain ⟨j, rfl⟩ := Nat.exists_eq_add_of_lt hi
  have hrest : Eventually (fun k => Eval.iterate (j + 1) (Form.round settings k body scope)) m₁
      (.error (.failed e) m') := Eventually.bind_error hf.enough
  have hall := Eventually.bind (f := fun k _ => Eval.iterate (j + 1) (Form.round settings k body scope)) hr.enough hrest
  refine hall.congr fun k => ?_
  rw [Nat.add_assoc, Eval.iterate_add]

/-! ## One `repeat` -/

/-- The task evaluates a count and then goes on with so many rounds of a body, from the machine that the count
    leaves, and evaluates nothing else. It has a value exactly if all of the rounds come to an end; the
    value is nil and the machine is theirs. It fails exactly if one of them does, with its error and in
    its machine, the rounds before it having come to an end. -/
structure Iterates (settings : Settings) (t count : Task) (body : Value) (n : Nat) (m : Machine) : Prop where
  begins {t' : Task} : Begins settings t t' ↔
    t' = count ∨ ∃ i < n, ∃ m₁, Rounds settings body t.scope i m m₁ ∧ t' = ⟨body, t.scope, m₁⟩
  value {v : Value} {m' : Machine} : t.Ends settings (.ok v m') ↔ v = .nil ∧ Rounds settings body t.scope n m m'
  error {e : EvalError} {m' : Machine} : t.Ends settings (.error (.failed e) m') ↔
    ∃ i < n, ∃ m₁, Rounds settings body t.scope i m m₁ ∧ RoundFails settings body t.scope m₁ e m'

/-- What is left to do when the count has been evaluated. -/
theorem evaluateWithin_iterate_of_count {k : Nat} {c v : Value} {n : Int} {m m₁ : Machine}
    (hc : evaluateWithin settings k c scope m = .ok v m₁) (hv : v.whole? = some n) (body : Value)
    (surplus : List Value) :
    evaluateWithin settings k (.form .iterate (c :: body :: surplus)) scope m =
      (Eval.iterate n.toNat (Form.round settings k body scope) >>= fun _ => pure .nil) m₁ := by
  rw [evaluateWithin_iterate, Run.bind_of_ok hc, Form.count_some hv, pure_bind, Form.operand_map (by rfl), pure_bind]
  rfl

/-- If from some number of calls on an evaluation is another computation, then it ends as that one does. -/
theorem evaluates_iff_eventually {tree : Value} {m m₁ : Machine} {within : Nat → Eval Value} {n₀ : Nat}
    (h : ∀ k, n₀ ≤ k → evaluateWithin settings k tree scope m = within k m₁) {r : Outcome EvalError Value}
    (hfin : r.Finished) : Evaluates settings tree scope m r ↔ Eventually within m₁ r := by
  constructor
  · intro hends
    obtain ⟨n, hn⟩ := hends.enough
    refine ⟨max n₀ n, fun k hk => ?_⟩
    rw [← h k (by omega), hn k (by omega)]
  · rintro ⟨n, hn⟩
    refine ⟨⟨max n₀ n, ?_⟩, hfin⟩
    exact (h _ (by omega)).trans (hn _ (by omega))

theorem iterates_of_count {c v : Value} {n : Int} {m m₁ : Machine} (hc : Evaluates settings c scope m (.ok v m₁))
    (hv : v.whole? = some n) (body : Value) (surplus : List Value) :
    Iterates settings ⟨.form .iterate (c :: body :: surplus), scope, m⟩ ⟨c, scope, m⟩ body n.toNat m₁ := by
  obtain ⟨n₀, h₀⟩ := hc.enough
  have hform : ∀ k, n₀ ≤ k → evaluateWithin settings k (.form .iterate (c :: body :: surplus)) scope m =
      (Eval.iterate n.toNat (Form.round settings k body scope) >>= fun _ => pure .nil) m₁ :=
    fun k hk => evaluateWithin_iterate_of_count (h₀ k hk) hv body surplus
  constructor
  case begins =>
    intro t'
    constructor
    · intro hbegins
      obtain ⟨c', hfirst, rfl | ⟨v', m₁', n', body', i, m₂, hc', hn', hsecond, hi, hr, rfl⟩⟩ := hbegins.of_form
      · cases hfirst
        exact .inl rfl
      · cases hfirst
        cases hsecond
        cases hc'.unique hc
        rw [Form.count_some hv] at hn'
        cases hn'
        exact .inr ⟨i, hi, m₂, hr, rfl⟩
    · rintro (rfl | ⟨i, hi, m₂, hr, rfl⟩)
      · exact .count rfl
      · exact .round rfl hc (by rw [Form.count_some hv]; rfl) rfl hi hr
  case value =>
    intro v' m'
    rw [Task.Ends, evaluates_iff_eventually hform (Outcome.finished_ok _ _)]
    constructor
    · rintro ⟨k, hk⟩
      obtain ⟨_, m₂, hrounds, hnil⟩ := Run.bind_eq_ok (hk k (Nat.le_refl k))
      cases hnil
      exact ⟨rfl, .of_iterate hrounds⟩
    · rintro ⟨rfl, hr⟩
      exact Eventually.bind hr.enough (.of_eq fun _ => rfl)
  case error =>
    intro e m'
    rw [Task.Ends, evaluates_iff_eventually hform (Outcome.finished_failed _ _)]
    constructor
    · rintro ⟨k, hk⟩
      have hrest : (Eval.iterate n.toNat (Form.round settings k body scope) >>= fun _ => pure Value.nil) m₁ =
          .error (.failed e) m' := hk k (Nat.le_refl k)
      rw [Run.bind_apply] at hrest
      cases hrounds : Eval.iterate n.toNat (Form.round settings k body scope) m₁ with
      | ok u m₂ =>
        rw [hrounds] at hrest
        cases hrest
      | error e' m₂ =>
        rw [hrounds] at hrest
        cases hrest
        exact RoundFails.of_iterate hrounds
    · rintro ⟨i, hi, m₂, hr, hf⟩
      exact Eventually.bind_error (hf.iterate_enough hr hi)

/-! ## One `repeat` after another -/

/-- The evaluation of the tree is that of the first of the two others and then, if that has come to a value,
    of the second one. -/
structure InTurn (settings : Settings) (scope : ScopeId) (tree first second : Value) : Prop where
  within (k : Nat) : evaluateWithin settings k tree scope =
    evaluateWithin settings k first scope >>= fun _ => evaluateWithin settings k second scope
  ends_iff {m : Machine} {r : Outcome EvalError Value} : Evaluates settings tree scope m r ↔
    (∃ v m₁, Evaluates settings first scope m (.ok v m₁) ∧ Evaluates settings second scope m₁ r) ∨
      ∃ e m', r = .error (.failed e) m' ∧ Evaluates settings first scope m r

/-- What is so within any number of calls is so of what evaluations end with. -/
theorem InTurn.of_within {tree first second : Value}
    (h : ∀ k, evaluateWithin settings k tree scope =
      evaluateWithin settings k first scope >>= fun _ => evaluateWithin settings k second scope) :
    InTurn settings scope tree first second := by
  refine ⟨h, fun {m r} => ⟨?_, ?_⟩⟩
  · rintro ⟨⟨k, hk⟩, hfin⟩
    have hk : evaluateWithin settings k tree scope m = r := hk
    rw [h, Run.bind_apply] at hk
    cases hfirst : evaluateWithin settings k first scope m with
    | ok v m₁ =>
      rw [hfirst] at hk
      exact .inl ⟨v, m₁, .of_ok hfirst, ⟨k, hk⟩, hfin⟩
    | error e m' =>
      rw [hfirst] at hk
      subst hk
      cases e with
      | failed e => exact .inr ⟨e, m', rfl, ⟨k, hfirst⟩, trivial⟩
      | unfinished => exact hfin.elim
  · rintro (⟨v, m₁, hfirst, hsecond⟩ | ⟨e, m', rfl, hfirst⟩)
    · obtain ⟨n₁, h₁⟩ := hfirst.enough
      obtain ⟨n₂, h₂⟩ := hsecond.enough
      refine ⟨⟨max n₁ n₂, ?_⟩, hsecond.2⟩
      show evaluateWithin settings (max n₁ n₂) tree scope m = r
      rw [h, Run.bind_of_ok (h₁ _ (by omega)), h₂ _ (by omega)]
    · obtain ⟨⟨k, hk⟩, -⟩ := hfirst
      refine ⟨⟨k, ?_⟩, trivial⟩
      show evaluateWithin settings k tree scope m = _
      rw [h]
      exact Run.bind_of_error hk _

/-- `repeat` with a number for its count. -/
def Value.repeating (n : Whole) (body : Value) (surplus : List Value) : Value :=
  .form .iterate (.number (.whole n) :: body :: surplus)

theorem evaluateWithin_repeating (k : Nat) (n : Whole) (body : Value) (surplus : List Value) (scope : ScopeId) :
    evaluateWithin settings k (.repeating n body surplus) scope =
      Eval.iterate n.toInt.toNat (Form.round settings k body scope) >>= fun _ => pure .nil := by
  funext m
  have hnumber : evaluateWithin settings k (.number (.whole n)) scope m = .ok (.number (.whole n)) m := by
    rw [evaluateWithin_eq]
    rfl
  exact evaluateWithin_iterate_of_count hnumber rfl body surplus

theorem repeating_inTurn {m n sum : Whole} (hm : 0 ≤ m.toInt) (hn : 0 ≤ n.toInt)
    (hsum : sum.toInt = m.toInt + n.toInt) (body : Value) (surplus : List Value) (scope : ScopeId) :
    InTurn settings scope (.repeating sum body surplus) (.repeating m body surplus) (.repeating n body surplus) := by
  have htimes : sum.toInt.toNat = m.toInt.toNat + n.toInt.toNat := by
    rw [hsum, Int.toNat_add hm hn]
  refine .of_within fun k => ?_
  rw [evaluateWithin_repeating, evaluateWithin_repeating, evaluateWithin_repeating, htimes, Eval.iterate_add]
  simp only [bind_assoc, pure_bind]

/-! ## Iteration -/

/-- In every machine and every scope: to repeat something as often as the sum of two numbers says that are
    not negative is to repeat it as often as the first one says and then, if that has not failed, as often
    as the second one says. And where the count has come to a whole number, of whatever width, there are
    that many rounds, or none if it is negative, whatever the body makes of the names in the count. -/
theorem repeat_is_iteration (settings : Settings) (scope : ScopeId) (body : Value) (surplus : List Value) :
    (∀ m n sum : Whole, 0 ≤ m.toInt → 0 ≤ n.toInt → sum.toInt = m.toInt + n.toInt →
      InTurn settings scope (.repeating sum body surplus) (.repeating m body surplus) (.repeating n body surplus)) ∧
    ∀ count v m m₁ n, Evaluates settings count scope m (.ok v m₁) → v.whole? = some n →
      Iterates settings ⟨.form .iterate (count :: body :: surplus), scope, m⟩ ⟨count, scope, m⟩ body n.toNat m₁ :=
  ⟨fun _ _ _ hm hn hsum => repeating_inTurn hm hn hsum body surplus scope,
    fun _ _ _ _ _ hc hv => iterates_of_count hc hv body surplus⟩

/-- A global scope that binds `i` to 2. -/
def countdown (room : Option Nat) : Machine := ⟨⟨#[⟨none, [("i", .int 2)]⟩], 0⟩, 0, .empty room, #[]⟩

/-- `(repeat i (define i 0))` has two rounds where `i` is 2 at first, and with room for one line it fails in the
    second one, whose definition stays. Three rounds are one round and then two more. -/
theorem repeat_is_iteration_countdown :
    let body := Value.form .define [.symbol "i", .int 0]
    (∃ m, Evaluates .standard (.form .iterate [.symbol "i", body]) 0 (countdown none) (.ok .nil m) ∧
      m.sink.lines = #["0", "0"]) ∧
    (∃ m, Evaluates .standard (.form .iterate [.symbol "i", body]) 0 (countdown (some 1))
      (.error (.failed .sinkFull) m) ∧ m.sink.lines = #["0"]) ∧
    InTurn .standard 0 (.repeating (.int 3) body []) (.repeating (.byte 1) body []) (.repeating (.long 2) body []) := by
  intro body
  have hcount (room : Option Nat) :
      Evaluates .standard (.symbol "i") 0 (countdown room) (.ok (.int 2) (countdown room)) :=
    ⟨⟨0, by cbv⟩, trivial⟩
  obtain ⟨hsum, hiterates⟩ := repeat_is_iteration .standard 0 body []
  refine ⟨?_, ?_, hsum (.byte 1) (.long 2) (.int 3) (by decide) (by decide) (by decide)⟩
  · have htwice : Rounds .standard body 0 2 (countdown none) _ :=
      .succ (.of_ok (k := 0) rfl) rfl (.succ (.of_ok (k := 0) rfl) rfl (.zero _))
    exact ⟨_, (hiterates _ _ _ _ 2 (hcount none) rfl).value.mpr ⟨rfl, htwice⟩, rfl⟩
  · have honce : Rounds .standard body 0 1 (countdown (some 1)) _ := .succ (.of_ok (k := 0) rfl) rfl (.zero _)
    have hfails := (hiterates _ _ _ _ 2 (hcount (some 1)) rfl).error.mpr
      ⟨1, by decide, _, honce, .output (.of_ok (k := 0) rfl) rfl⟩
    exact ⟨_, hfails, rfl⟩

end LineLisp
