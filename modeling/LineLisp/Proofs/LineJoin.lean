/-
  LineLisp.Proofs.LineJoin — lines joined by a space. Nothing that a line does depends on what was
  written and noted before it, and between one line and the next the machine is all that is kept.
  So the end of a line between two complete expressions shows only in the tokens written.
  - `evaluateWithin_oblivious`: an evaluation after other output does the same.
  - `Line.work_separated`: two lines joined do the first one's work and then the second one's.
  - `joined_line_runs_in_turn`: the run of the joined line beside the two runs in turn.
-/

import LineLisp.Proofs.Concatenation
import LineLisp.Proofs.SinkCut

namespace LineLisp

/-- The error as it is found a number of bytes further on. -/
def LineError.shift : LineError → Nat → LineError
  | parse e, n => .parse (e.shift n)
  | evaluation e, _ => .evaluation e

/-! ## Earlier output -/

namespace Machine

/-- The machine with lines and events before its own. -/
def after (m : Machine) (lines : Array String) (events : Array LogEvent) : Machine :=
  { m with sink := ⟨lines ++ m.sink.lines, m.sink.room⟩, log := events ++ m.log }

theorem drained_after (m : Machine) : m.drained.after m.sink.lines m.log = m := by
  simp [after, drained, Sink.empty]

theorem note_after (m : Machine) (lines : Array String) (events : Array LogEvent) (event : LogEvent) :
    { m.after lines events with log := (m.after lines events).log.push event } =
      { m with log := m.log.push event }.after lines events := by
  simp [after]

theorem write_after (m : Machine) (lines : Array String) (events : Array LogEvent) (line : String) :
    { m.after lines events with sink := (m.after lines events).sink.write line } =
      { m with sink := m.sink.write line }.after lines events := by
  simp [after, Sink.write]

end Machine

namespace Run

variable {ε ε' α β : Type}

/-- The computation after other output, compared with one without. -/
def Follows (x x' : Run ε α) : Prop :=
  ∀ (m : Machine) (lines : Array String) (events : Array LogEvent),
    x' (m.after lines events) = Outcome.onMachine (·.after lines events) (x m)

/-- Whatever was written and noted before, the computation does the same. -/
def Oblivious (x : Run ε α) : Prop := x.Follows x

theorem Follows.bind {x x' : Run ε α} {f f' : α → Run ε β} (hx : x.Follows x') (hf : ∀ a, (f a).Follows (f' a)) :
    (x >>= f).Follows (x' >>= f') := by
  intro m lines events
  rw [bind_apply, bind_apply, hx]
  cases x m with
  | ok a m' => exact hf a m' lines events
  | error e m' => rfl

theorem oblivious_pure (a : α) : (pure a : Run ε α).Oblivious := fun _ _ _ => rfl

theorem oblivious_fail (e : ε) : (fail e : Run ε α).Oblivious := fun _ _ _ => rfl

theorem oblivious_note (event : LogEvent) : (note event : Run ε Unit).Oblivious := fun m lines events =>
  congrArg (EStateM.Result.ok ()) (m.note_after lines events event)

theorem mapError_of_eq_onMachine (f : ε → ε') {x y : Run ε α} {m m' : Machine} {g : Machine → Machine}
    (h : x m = Outcome.onMachine g (y m')) : mapError f x m = Outcome.onMachine g (mapError f y m') := by
  rw [mapError, mapError, h]
  cases y m' with
  | ok a m' => rfl
  | error e m' => cases e <;> rfl

theorem Oblivious.mapError {x : Run ε α} (h : x.Oblivious) (f : ε → ε') : (mapError f x).Oblivious :=
  fun m lines events => mapError_of_eq_onMachine f (h m lines events)

end Run

theorem Eval.oblivious_emit (line : String) : (emit line).Oblivious := by
  intro m lines events
  have hfull : (m.after lines events).sink.isFull = m.sink.isFull := rfl
  cases h : m.sink.isFull with
  | true =>
    rw [emit_of_full h, emit_of_full (hfull.trans h)]
    rfl
  | false =>
    rw [emit_of_room h, emit_of_room (hfull.trans h)]
    exact congrArg (EStateM.Result.ok ()) (m.write_after lines events line)

/-! ## Evaluation -/

/-- Evaluations that follow other output, beside the same ones that do not. -/
def following (settings : Settings) : Congruence settings settings where
  rel _ _ x x' := x.Follows x'
  sameReads := .refl settings
  pure _ _ a := Run.oblivious_pure a
  fail _ _ e := Run.oblivious_fail e
  bind := Run.Follows.bind
  inGlobal _ h := h
  lookup _ _ _ _ _ := rfl
  isBound _ _ _ _ _ := rfl
  note _ _ _ := Run.oblivious_note _
  emit _ line := Eval.oblivious_emit line
  define _ _ _ _ _ _ := rfl
  newClosure _ _ _ _ _ _ := rfl

theorem following_call {settings : Settings} {body body' : Meaning} (hbody : ∀ s, (body s).Follows (body' s))
    (name : String) (params : List String) (args : List Value) (outer : ScopeId) :
    (Procedure.call settings name params args outer body).Follows
      (Procedure.call settings name params args outer body') := by
  intro m lines events
  by_cases henter : Procedure.MayEnter settings m
  · have hentered : Procedure.entered (m.after lines events) name params args outer =
        (Procedure.entered m name params args outer).after lines events := by
      simp [Procedure.entered, Machine.after]
    rw [Procedure.call_of_mayEnter henter, Procedure.call_of_mayEnter (m := m.after lines events) henter, hentered]
    rw [show (m.after lines events).heap = m.heap from rfl, hbody]
    cases body m.heap.frames.size (Procedure.entered m name params args outer) <;> rfl
  · rw [Procedure.call_of_not_mayEnter henter, Procedure.call_of_not_mayEnter (m := m.after lines events) henter]
    rfl

theorem following_graded (settings : Settings) : Congruence.Graded fun _ => following settings where
  zero _ name params args outer := following_call (fun _ _ _ _ => rfl) name params args outer
  succ hbody _ name params args outer := following_call hbody name params args outer

theorem evaluateWithin_oblivious (settings : Settings) (n : Nat) (tree : Value) (scope : ScopeId) :
    (evaluateWithin settings n tree scope).Oblivious :=
  (following_graded settings).evaluateWithin n tree scope

/-! ## Lines -/

namespace Line

theorem runAll_oblivious (settings : Settings) (trees : List Value) : (runAll settings trees).Oblivious := by
  induction trees with
  | nil => exact Run.oblivious_pure ()
  | cons tree trees ih =>
    rw [runAll_cons]
    refine Run.Follows.bind ?_ fun _ => ih
    refine (Eval.oblivious_emit tree.text).bind fun _ => ?_
    exact (evaluateWithin_oblivious settings _ tree _).bind fun v => Eval.oblivious_emit v.text

theorem runAll_append (settings : Settings) (trees trees' : List Value) :
    runAll settings (trees ++ trees') = runAll settings trees >>= fun _ => runAll settings trees' := by
  unfold runAll
  simp only [List.forM_eq_forM, List.forM_append]

theorem conclusion_oblivious (tokens : List Token) : (conclusion tokens).Oblivious := by
  unfold conclusion
  split
  · exact Run.oblivious_fail _
  · exact Run.oblivious_pure ()
  · exact Run.oblivious_fail _

/-- What a line does after its tokens were written. -/
def work (settings : Settings) (line : String) : Run LineError Unit :=
  Run.mapError .evaluation (runAll settings (Reader.ofText line).trees) >>= fun _ => conclusion (Token.scan line)

theorem work_oblivious (settings : Settings) (line : String) : (work settings line).Oblivious := by
  have hall := (runAll_oblivious settings (Reader.ofText line).trees).mapError LineError.evaluation
  exact Run.Follows.bind hall fun _ => conclusion_oblivious _

/-- The line that a run begins with. -/
def echo (line : String) : String := Token.render (Token.scan line)

/-- The second machine, with what there was in the first one and the tokens of the line before its own
    output. -/
def atop (line : String) (m m' : Machine) : Machine :=
  m'.after (m.sink.lines.push (echo line)) (m.log.push (.tokensRead (Token.scan line).length))

@[simp] theorem atop_drained (line : String) (m m' : Machine) : (atop line m m').drained = m'.drained := rfl

theorem atop_sink {m m' : Machine} (h : m'.sink.room = m.sink.room) (line : String) :
    (atop line m m').sink = m.sink.plus (echo line :: m'.sink.lines.toList) := by
  have hlines : m.sink.lines.push (echo line) ++ m'.sink.lines = m.sink.lines ++ (echo line :: m'.sink.lines.toList) :=
    Array.ext' (by simp)
  rw [Sink.plus, ← h, ← hlines]
  rfl

/-- A run whose sink has room writes the tokens and then works as from a machine without output. -/
theorem run_eq_work (settings : Settings) (line : String) {m : Machine} (hm : m.sink.room = none) :
    run settings line m = Outcome.onMachine (atop line m) (work settings line m.drained) := by
  have hroom : (scanned line m).sink.isFull = false := by simp [Sink.isFull, scanned, hm]
  have hwritten : { scanned line m with sink := (scanned line m).sink.write (echo line) } =
      atop line m m.drained := by
    simp [atop, Machine.after, Machine.drained, Sink.empty, Sink.write, scanned, hm]
  have hecho : Run.mapError LineError.evaluation (Eval.emit (Token.render (Token.scan line))) (scanned line m) = _ :=
    Run.mapError_of_ok _ (Eval.emit_of_room hroom (echo line))
  rw [run_eq_trees, Run.mapError_bind, bind_assoc, Run.bind_of_ok hecho, hwritten]
  exact work_oblivious settings line _ _ _

theorem room_of_work (settings : Settings) (line : String) {m : Machine} (hm : m.sink.room = none) :
    (Outcome.machine (work settings line m.drained)).sink.room = none := by
  have hruns : Truncates _ _ m (run settings line) := run_truncates line hm
  obtain ⟨lines, hsink, -⟩ := hruns
  have hroom := Truncates.sink_eq hm hsink
  rwa [run_eq_work settings line hm, Outcome.machine_onMachine] at hroom

/-! ## Joined lines -/

variable {settings : Settings} {a b : String} {trees : List Value}

theorem trees_separated (ha : (Reader.ofText a).readAll = .ok trees) (hb : Token.scan b ≠ []) :
    (Reader.ofText (a ++ " " ++ b)).trees = trees ++ (Reader.ofText b).trees := by
  have hreads := Reader.reads_before ha ((Reader.ofText b).shift (Text.byteLength a.toList + 1))
  rw [Reader.ofText_separated a hb, hreads.trees_eq, Reader.trees_shift]

theorem conclusion_separated (ha : (Reader.ofText a).readAll = .ok trees) (hb : Token.scan b ≠ []) :
    conclusion (Token.scan (a ++ " " ++ b)) =
      Run.mapError (·.shift (Text.byteLength a.toList + 1)) (conclusion (Token.scan b)) := by
  have hreads := Reader.reads_before ha ((Reader.ofText b).shift (Text.byteLength a.toList + 1))
  have hall := hreads.readAll_eq
  rw [← Reader.ofText_separated a hb, Reader.readAll_shift] at hall
  have hmore : (Reader.ofText b).readAll ≠ .ok [] := by
    rw [Ne, Reader.readAll_eq_nil_iff, Reader.isExhausted, List.isEmpty_iff]
    exact hb
  unfold conclusion
  rw [← Reader.ofText, ← Reader.ofText, hall]
  cases hrest : (Reader.ofText b).readAll with
  | error e => rfl
  | ok rest =>
    cases rest with
    | nil => exact absurd hrest hmore
    | cons tree rest => cases trees <;> rfl

theorem work_of_readAll (ha : (Reader.ofText a).readAll = .ok trees) (hne : trees ≠ []) :
    work settings a = Run.mapError .evaluation (runAll settings trees) := by
  have htrees := Reader.trees_of_readAll ha
  have hend : conclusion (Token.scan a) = pure () := by
    unfold conclusion
    rw [← Reader.ofText, ha]
    cases trees with
    | nil => exact absurd rfl hne
    | cons tree trees => rfl
  unfold work
  rw [htrees, hend]
  exact bind_pure _

/-- Two lines joined do the first one's work and then the second one's. -/
theorem work_separated (ha : (Reader.ofText a).readAll = .ok trees) (hne : trees ≠ []) (hb : Token.scan b ≠ []) :
    work settings (a ++ " " ++ b) = work settings a >>= fun _ =>
      Run.mapError (·.shift (Text.byteLength a.toList + 1)) (work settings b) := by
  have hsame (x : Eval Unit) : Run.mapError (·.shift (Text.byteLength a.toList + 1))
      (Run.mapError LineError.evaluation x) = Run.mapError .evaluation x := by
    rw [Run.mapError_mapError]
    rfl
  rw [work_of_readAll ha hne, work, work, trees_separated ha hb, conclusion_separated ha hb, runAll_append,
    Run.mapError_bind, Run.mapError_bind, bind_assoc, hsame]

/-- The second of two joined lines goes on from what the work of the first one leaves. -/
theorem joined_of_ok (ha : (Reader.ofText a).readAll = .ok trees) (hne : trees ≠ []) (hb : Token.scan b ≠ [])
    {m m₁ : Machine} (hm : m.sink.room = none) (hwork : work settings a m.drained = .ok () m₁) :
    run settings (a ++ " " ++ b) m =
      Outcome.onMachine (fun m' => atop (a ++ " " ++ b) m (m'.after m₁.sink.lines m₁.log))
        (Run.mapError (LineError.shift · (Text.byteLength a.toList + 1)) (work settings b) m₁.drained) := by
  have hsecond := (work_oblivious settings b).mapError (LineError.shift · (Text.byteLength a.toList + 1))
  have hgoes := hsecond m₁.drained m₁.sink.lines m₁.log
  rw [Machine.drained_after] at hgoes
  rw [run_eq_work settings _ hm, work_separated ha hne hb, Run.bind_of_ok hwork, hgoes]
  cases Run.mapError (LineError.shift · (Text.byteLength a.toList + 1)) (work settings b) m₁.drained <;> rfl

/-- So does a line that is run by itself after the first one. -/
theorem second_of_ok (a b : String) {m m₁ : Machine} (hm₁ : m₁.sink.room = none) (n : Nat) :
    Run.mapError (LineError.shift · n) (run settings b) (atop a m m₁) =
      Outcome.onMachine (atop b (atop a m m₁)) (Run.mapError (LineError.shift · n) (work settings b) m₁.drained) := by
  have hroom : (atop a m m₁).sink.room = none := hm₁
  rw [Run.mapError_of_eq_onMachine _ (run_eq_work settings b hroom), atop_drained]

end Line

/-- The line `a b` of a text `a` that is read as some expressions and a text `b` with some tokens has
    the result of the line `a`, if that is an error, and otherwise the one of the line `b` after
    it, but for where an error of the parser is. It leaves the same bindings, and what it writes
    after its tokens is what the two lines write after theirs. -/
theorem joined_line_runs_in_turn (settings : Settings) {a b : String} {trees : List Value}
    (ha : (Reader.ofText a).readAll = .ok trees) (hne : trees ≠ []) (hb : Token.scan b ≠ [])
    {m : Machine} (hm : m.sink.room = none) :
    let first := Line.run settings a m
    let inTurn := (do
      Line.run settings a
      Run.mapError (LineError.shift · (Text.byteLength a.toList + 1)) (Line.run settings b)) m
    let joined := Line.run settings (a ++ " " ++ b) m
    Outcome.onMachine .drained joined = Outcome.onMachine .drained inTurn ∧
    ∃ la lb : List String,
      (Outcome.machine joined).sink = m.sink.plus (Line.echo (a ++ " " ++ b) :: (la ++ lb)) ∧
      (Outcome.machine first).sink = m.sink.plus (Line.echo a :: la) ∧
      (∀ m₁, first = .ok () m₁ → (Outcome.machine inTurn).sink = m₁.sink.plus (Line.echo b :: lb)) ∧
      ∀ e m₁, first = .error e m₁ → inTurn = .error e m₁ ∧ lb = [] := by
  intro first inTurn joined
  have hfirst : first = _ := Line.run_eq_work settings a hm
  have hroom := Line.room_of_work settings a hm
  cases hwork : Line.work settings a m.drained with
  | error e m₁ =>
    rw [hwork, Outcome.machine_error] at hroom
    rw [hwork, Outcome.onMachine_error] at hfirst
    have hinTurn : inTurn = _ := Run.bind_of_error hfirst _
    have hjoined : joined = .error e (Line.atop (a ++ " " ++ b) m m₁) := by
      rw [← Outcome.onMachine_error, ← Run.bind_of_error hwork, ← Line.work_separated ha hne hb]
      exact Line.run_eq_work settings _ hm
    refine ⟨by rw [hjoined, hinTurn]; rfl, m₁.sink.lines.toList, [], ?_, ?_, ?_, fun e₂ m₂ h => ?_⟩
    · rw [hjoined, List.append_nil]
      exact Line.atop_sink (hroom.trans hm.symm) _
    · rw [hfirst]
      exact Line.atop_sink (hroom.trans hm.symm) _
    · intro m₂ h
      cases hfirst.symm.trans h
    · exact ⟨Run.bind_of_error h _, rfl⟩
  | ok _ m₁ =>
    rw [hwork, Outcome.machine_ok] at hroom
    rw [hwork, Outcome.onMachine_ok] at hfirst
    have hjoined : joined = _ := Line.joined_of_ok ha hne hb hm hwork
    have hinTurn : inTurn = _ := (Run.bind_of_ok hfirst _).trans (Line.second_of_ok a b hroom _)
    have hroom₂ := Line.room_of_work settings b hroom
    rw [← Run.machine_mapError (LineError.shift · (Text.byteLength a.toList + 1))] at hroom₂
    generalize Run.mapError (LineError.shift · (Text.byteLength a.toList + 1)) (Line.work settings b) m₁.drained = r
      at hjoined hinTurn hroom₂
    refine ⟨?_, m₁.sink.lines.toList, (Outcome.machine r).sink.lines.toList, ?_, ?_, ?_, ?_⟩
    · rw [hjoined, hinTurn]
      cases r <;> rfl
    · have hlines : m₁.sink.lines.toList ++ (Outcome.machine r).sink.lines.toList =
          ((Outcome.machine r).after m₁.sink.lines m₁.log).sink.lines.toList := by simp [Machine.after]
      have hsame : ((Outcome.machine r).after m₁.sink.lines m₁.log).sink.room = m.sink.room := hroom₂.trans hm.symm
      rw [hjoined, Outcome.machine_onMachine, hlines]
      exact Line.atop_sink hsame _
    · rw [hfirst]
      exact Line.atop_sink (hroom.trans hm.symm) _
    · intro m₂ h
      cases hfirst.symm.trans h
      have hsame : (Outcome.machine r).sink.room = (Line.atop a m m₁).sink.room := hroom₂.trans hroom.symm
      rw [hinTurn, Outcome.machine_onMachine]
      exact Line.atop_sink hsame _
    · intro e₂ m₂ h
      cases hfirst.symm.trans h

/-- The line `)` after the line `1` fails at its first byte, and the line `1 )` at its third one, with the
    same lines written but for the tokens. -/
theorem joined_line_runs_in_turn_stray :
    let settings : Settings := ⟨true, some 1⟩
    ∃ m₁ m₂ m' : Machine, Line.run settings "1" (.initial none) = .ok () m₁ ∧
      Line.run settings ")" m₁ = .error (.failed (.parse (.unmatchedClose ⟨0, 1⟩))) m₂ ∧
      Line.run settings ("1" ++ " " ++ ")") (.initial none) = .error (.failed (.parse (.unmatchedClose ⟨2, 3⟩))) m' ∧
      m₂.sink.lines = #["[1]", "1", "1", "[)]"] ∧ m'.sink.lines = #["[1, )]", "1", "1"] := by
  intro settings
  have hone (heap : Heap) : Line.run settings "1" ⟨heap, 0, .empty none, #[]⟩ =
      .ok () ⟨heap, 0, ⟨#["[1]", "1", "1"], none⟩, #[.tokensRead 1]⟩ := by cbv
  have hstray (heap : Heap) : Line.run settings ")" ⟨heap, 0, ⟨#["[1]", "1", "1"], none⟩, #[.tokensRead 1]⟩ =
      .error (.failed (.parse (.unmatchedClose ⟨0, 1⟩)))
        ⟨heap, 0, ⟨#["[1]", "1", "1", "[)]"], none⟩, #[.tokensRead 1, .tokensRead 1]⟩ := by cbv
  have ha : (Reader.ofText "1").readAll = .ok [.int 1] := by cbv
  have hm : (Machine.initial none).sink.room = none := rfl
  obtain ⟨hsame, la, lb, hjoined, hfirst, hsecond, -⟩ :=
    joined_line_runs_in_turn settings ha (by simp) (b := ")") (by decide) hm
  have hinTurn : (Line.run settings "1" >>= fun _ => Run.mapError (LineError.shift · (Text.byteLength "1".toList + 1))
      (Line.run settings ")")) (.initial none) = _ :=
    (Run.bind_of_ok (hone .initial) _).trans (Run.mapError_of_failed _ (hstray .initial))
  have hwritten := hsecond _ (hone .initial)
  rw [show Line.run settings "1" (.initial none) = _ from hone .initial] at hfirst
  rw [hinTurn] at hsame hwritten
  have hla : ["[1]", "1", "1"] = Line.echo "1" :: la := Sink.plus_injective (s := .empty none) hfirst
  have hlb : ["[)]"] = Line.echo ")" :: lb := Sink.plus_injective (s := ⟨#["[1]", "1", "1"], none⟩) hwritten
  obtain rfl := (List.cons.inj hla).2
  obtain rfl := (List.cons.inj hlb).2
  cases hrun : Line.run settings ("1" ++ " " ++ ")") (.initial none) with
  | ok _ m' =>
    rw [hrun] at hsame
    cases hsame
  | error e m' =>
    rw [hrun] at hsame hjoined
    obtain ⟨rfl, -⟩ := EStateM.Result.error.inj hsame
    exact ⟨_, _, m', hone _, hstray _, rfl, rfl, congrArg Sink.lines hjoined⟩

end LineLisp
