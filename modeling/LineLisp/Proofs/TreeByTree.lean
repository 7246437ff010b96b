/-
  LineLisp.Proofs.TreeByTree — a line is run tree by tree, each as soon as it is read, and it comes
  to the same to read first and then to run the trees that were read.
  - `Reader.trees`: the trees before the first error; `Reader.reads_trees` says where reading them
    leads, and whether all of the tokens were read.
  - `Line.run_eq_trees`: a line writes its tokens, runs these trees in order, and ends as
    `Line.conclusion` says.
  - `line_agrees_with_readAll`: so all that reading the whole line first would change is when an
    error of it is found.
-/

import LineLisp.Proofs.LineRun

namespace LineLisp

/-! ## Trees before an error -/

namespace Reader

/-- Trees are read one after the other: these are read, and they lead from one reader to another. -/
inductive Reads : Reader → List Value → Reader → Prop
  | nil (r : Reader) : Reads r [] r
  | cons {r r' : Reader} {tree : Value} {trees : List Value} : r.read.1 = .ok tree → Reads r.read.2 trees r' →
      Reads r (tree :: trees) r'

/-- The trees up to the end of the tokens or up to the first error. -/
def trees (r : Reader) : List Value :=
  match _h : r.read.1 with
  | .error _ => []
  | .ok tree => tree :: trees r.read.2
termination_by r.remaining.length
decreasing_by exact read_remaining_lt (isExhausted_of_read_ok _h)

theorem trees_of_error {r : Reader} {e : ParseError} (h : r.read.1 = .error e) : r.trees = [] := by
  rw [trees]
  split
  · rfl
  · next hr => rw [h] at hr; cases hr

theorem trees_of_ok {r : Reader} {tree : Value} (h : r.read.1 = .ok tree) : r.trees = tree :: r.read.2.trees := by
  rw [trees]
  split
  · next hr => rw [h] at hr; cases hr
  · next hr => rw [h] at hr; cases hr; rfl

theorem trees_of_exhausted {r : Reader} (h : r.isExhausted = true) : r.trees = [] := by
  rw [isExhausted, List.isEmpty_iff] at h
  refine trees_of_error (e := .unexpectedEnd (.point r.stop)) ?_
  rw [read, h]
  rfl

theorem readAll_of_exhausted {r : Reader} (h : r.isExhausted = true) : r.readAll = .ok [] := by
  rw [readAll, dif_pos h]

theorem readAll_of_error {r : Reader} (hmore : r.isExhausted = false) {e : ParseError} (h : r.read.1 = .error e) :
    r.readAll = .error e := by
  rw [readAll, dif_neg (by simp [hmore]), h]

theorem readAll_of_ok {r : Reader} {tree : Value} (h : r.read.1 = .ok tree) :
    r.readAll = r.read.2.readAll.map (tree :: ·) := by
  rw [readAll, dif_neg (by simp [isExhausted_of_read_ok h]), h]

theorem Reads.trees_eq {r s : Reader} {trees : List Value} (h : r.Reads trees s) : r.trees = trees ++ s.trees := by
  induction h with
  | nil r => rfl
  | cons hread _ ih => rw [trees_of_ok hread, ih, List.cons_append]

theorem Reads.readAll_eq {r s : Reader} {trees : List Value} (h : r.Reads trees s) :
    r.readAll = s.readAll.map (trees ++ ·) := by
  induction h with
  | nil r => cases r.readAll <;> rfl
  | @cons r s tree trees hread _ ih =>
    rw [readAll_of_ok hread, ih]
    cases s.readAll <;> rfl

/-- The trees lead to the end of the tokens, and then they are all that there is; or to the error. -/
theorem reads_trees (r : Reader) : ∃ r', r.Reads r.trees r' ∧
    (r'.isExhausted = true ∧ r.readAll = .ok r.trees ∨
      ∃ e, r'.isExhausted = false ∧ r'.read.1 = .error e ∧ r.readAll = .error e) := by
  induction r using Reader.readAll.induct with
  | case1 r hr =>
    rw [trees_of_exhausted hr]
    exact ⟨r, .nil r, .inl ⟨hr, readAll_of_exhausted hr⟩⟩
  | case2 r hr e he =>
    have hmore : r.isExhausted = false := by simpa using hr
    rw [trees_of_error he]
    exact ⟨r, .nil r, .inr ⟨e, hmore, he, readAll_of_error hmore he⟩⟩
  | case3 r _ tree htree ih =>
    obtain ⟨r', hreads, hend⟩ := ih
    rw [trees_of_ok htree, readAll_of_ok htree]
    refine ⟨r', .cons htree hreads, ?_⟩
    rcases hend with ⟨hexhausted, hall⟩ | ⟨e, hmore, he, hall⟩
    · exact .inl ⟨hexhausted, by rw [hall]; rfl⟩
    · exact .inr ⟨e, hmore, he, by rw [hall]; rfl⟩

theorem trees_of_readAll {r : Reader} {trees : List Value} (h : r.readAll = .ok trees) : r.trees = trees := by
  obtain ⟨_, _, ⟨-, hall⟩ | ⟨e, -, -, hall⟩⟩ := r.reads_trees
  · exact Except.ok.inj (hall.symm.trans h)
  · cases hall.symm.trans h

theorem readAll_eq_nil_iff {r : Reader} : r.readAll = .ok [] ↔ r.isExhausted = true := by
  refine ⟨fun h => ?_, readAll_of_exhausted⟩
  cases hr : r.isExhausted with
  | true => rfl
  | false =>
    cases hread : r.read.1 with
    | error e => simp [readAll_of_error hr hread] at h
    | ok tree =>
      rw [readAll_of_ok hread] at h
      cases hall : r.read.2.readAll <;> simp [hall, Except.map] at h

end Reader

/-! ## Renamed errors -/

namespace Run

variable {ε ε' α β : Type}

theorem mapError_mapError {ε'' : Type} (f : ε → ε') (g : ε' → ε'') (x : Run ε α) :
    mapError g (mapError f x) = mapError (fun e => g (f e)) x := by
  funext m
  rw [mapError, mapError, mapError]
  cases x m with
  | ok a m' => rfl
  | error e m' => cases e <;> rfl

theorem mapError_bind (f : ε → ε') (x : Run ε α) (g : α → Run ε β) :
    mapError f (x >>= g) = mapError f x >>= fun a => mapError f (g a) := by
  funext m
  rw [bind_apply, mapError, mapError, bind_apply]
  cases x m with
  | ok a m' => rfl
  | error e m' => cases e <;> rfl

theorem failed_of_mapError {f : ε → ε'} {x : Run ε α} {e : ε'} {m m' : Machine}
    (h : mapError f x m = .error (.failed e) m') : ∃ e₀, e = f e₀ ∧ x m = .error (.failed e₀) m' := by
  unfold mapError at h
  split at h
  · cases h
  · next e₀ m₀ hx =>
    cases h
    exact ⟨e₀, rfl, hx⟩
  · cases h

end Run

namespace Line

/-- Runs trees in order. -/
def runAll (settings : Settings) (trees : List Value) : Eval Unit := trees.forM (runTree settings)

theorem runAll_cons (settings : Settings) (tree : Value) (trees : List Value) :
    runAll settings (tree :: trees) = runTree settings tree >>= fun _ => runAll settings trees :=
  List.forM_cons

/-- How a line ends of whose tokens all trees were run: well, if there is one and there was no
    error. -/
def conclusion (tokens : List Token) : Run LineError Unit :=
  match (Reader.ofTokens tokens).readAll with
  | .ok [] => .fail (.parse (.unexpectedEnd ⟨0, 0⟩))
  | .ok _ => pure ()
  | .error e => .fail (.parse e)

/-- Trees that are run as they are read, from a reader that has tokens left. -/
theorem runTrees_eq_runAll (settings : Settings) {r : Reader} (h : r.isExhausted = false) :
    runTrees settings r = Run.mapError .evaluation (runAll settings r.trees) >>= fun _ =>
      match r.readAll with
      | .ok _ => pure ()
      | .error e => .fail (.parse e) := by
  induction r using Reader.readAll.induct with
  | case1 r hr => exact absurd hr (by simp [h])
  | case2 r _ e he =>
    rw [runTrees_eq, Reader.trees_of_error he, Reader.readAll_of_error h he, he]
    rfl
  | case3 r _ tree htree ih =>
    rw [runTrees_eq, Reader.trees_of_ok htree, Reader.readAll_of_ok htree, htree, runAll_cons, Run.mapError_bind,
      bind_assoc]
    refine bind_congr fun _ => ?_
    cases hmore : r.read.2.isExhausted with
    | true =>
      rw [if_pos rfl, Reader.trees_of_exhausted hmore, Reader.readAll_of_exhausted hmore]
      rfl
    | false =>
      rw [if_neg Bool.false_ne_true, ih hmore]
      cases r.read.2.readAll <;> rfl

/-- A line writes its tokens, runs its trees and ends. -/
theorem run_eq_trees (settings : Settings) (line : String) (m : Machine) :
    run settings line m = (Run.mapError .evaluation (do
        Eval.emit (Token.render (Token.scan line))
        runAll settings (Reader.ofText line).trees) >>= fun _ => conclusion (Token.scan line)) (scanned line m) := by
  rw [run_apply, Run.mapError_bind, bind_assoc]
  refine congrFun (bind_congr fun _ => ?_) _
  unfold conclusion Reader.ofText
  cases htokens : Token.scan line with
  | nil =>
    have hexhausted : (Reader.ofTokens []).isExhausted = true := rfl
    rw [runTrees_eq, Reader.trees_of_exhausted hexhausted, Reader.readAll_of_exhausted hexhausted]
    rfl
  | cons t ts =>
    have hmore : (Reader.ofTokens (t :: ts)).isExhausted = false := rfl
    rw [runTrees_eq_runAll settings hmore]
    refine bind_congr fun _ => ?_
    cases hall : (Reader.ofTokens (t :: ts)).readAll with
    | error e => rfl
    | ok trees =>
      cases trees with
      | nil => exact absurd (Reader.readAll_eq_nil_iff.mp hall) (by simp [hmore])
      | cons tree trees => rfl

/-- Only a failed read is an error of the parser. -/
theorem parseError_of_run {settings : Settings} {line : String} {m m' : Machine} {e : ParseError}
    (h : run settings line m = .error (.failed (.parse e)) m') :
    (Reader.ofText line).readAll = .error e ∨ (Reader.ofText line).readAll = .ok [] ∧ e = .unexpectedEnd ⟨0, 0⟩ := by
  rw [run_eq_trees, Run.bind_apply] at h
  split at h
  · unfold Reader.ofText
    unfold conclusion at h
    cases hall : (Reader.ofTokens (Token.scan line)).readAll with
    | error e' =>
      rw [hall] at h
      cases h
      exact .inl rfl
    | ok trees =>
      rw [hall] at h
      cases trees with
      | nil =>
        cases h
        exact .inr ⟨rfl, rfl⟩
      | cons tree trees => cases h
  · next hx =>
    cases h
    obtain ⟨e₀, he, -⟩ := Run.failed_of_mapError hx
    cases he

end Line

/-- The trees before the first error of a line are run in order, after its tokens were written, each by
    writing it, evaluating it and writing its value; the first failure ends this. After that
    the line ends as reading it whole does, but for one without tokens, which fails. -/
theorem line_agrees_with_readAll (settings : Settings) (line : String) (m : Machine) :
    let r := Reader.ofText line
    (∃ r', r.Reads r.trees r' ∧
      (r'.isExhausted = true ∧ r.readAll = .ok r.trees ∨
        ∃ e, r'.isExhausted = false ∧ r'.read.1 = .error e ∧ r.readAll = .error e)) ∧
    Line.run settings line m = (Run.mapError .evaluation (do
        Eval.emit (Token.render (Token.scan line))
        r.trees.forM fun tree => do
          Eval.emit tree.text
          let value ← evaluate settings tree Heap.globalScope
          Eval.emit value.text) >>= fun _ =>
      match r.readAll with
      | .ok [] => .fail (.parse (.unexpectedEnd ⟨0, 0⟩))
      | .ok _ => pure ()
      | .error e => .fail (.parse e)) (Line.scanned line m) ∧
    (r.readAll = .ok [] ↔ Token.scan line = []) ∧
    ∀ e m', Line.run settings line m = .error (.failed (.parse e)) m' →
      r.readAll = .error e ∨ r.readAll = .ok [] ∧ e = .unexpectedEnd ⟨0, 0⟩ := by
  intro r
  refine ⟨r.reads_trees, Line.run_eq_trees settings line m, ?_, fun e m' => Line.parseError_of_run⟩
  rw [Reader.readAll_eq_nil_iff, Reader.isExhausted, List.isEmpty_iff]
  rfl

/-- The line `1 ) 2` fails where reading it does, after its first tree was run. -/
theorem line_agrees_with_readAll_stray :
    (∃ m', Line.run ⟨true, some 1⟩ "1 ) 2" (.initial none) = .error (.failed (.parse (.unmatchedClose ⟨2, 3⟩))) m' ∧
      m'.sink.lines = #["[1, ), 2]", "1", "1"]) ∧
    (Reader.ofText "1 ) 2").readAll = .error (.unmatchedClose ⟨2, 3⟩) := by
  have hrun (heap : Heap) : Line.run ⟨true, some 1⟩ "1 ) 2" ⟨heap, 0, .empty none, #[]⟩ =
      .error (.failed (.parse (.unmatchedClose ⟨2, 3⟩)))
        ⟨heap, 0, ⟨#["[1, ), 2]", "1", "1"], none⟩, #[.tokensRead 3]⟩ := by cbv
  obtain ⟨-, -, -, hstray⟩ := line_agrees_with_readAll ⟨true, some 1⟩ "1 ) 2" (.initial none)
  exact ⟨⟨_, hrun _, rfl⟩, (hstray _ _ (hrun _)).resolve_right (by simp)⟩

end LineLisp
