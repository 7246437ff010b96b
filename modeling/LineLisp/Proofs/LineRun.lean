/-
  LineLisp.Proofs.LineRun — the parts of the run of a line. The tokens are written; then from
  reader to reader a tree is read and written, it is evaluated, and its value is written.
  - `Line.Reaches.run_eq`: what is left to run from a reader that is reached decides how the
    line ends.
  - `Line.Begins.fails`: an evaluation that fails ends the line with its error.
-/

import LineLisp.Proofs.Nesting

namespace LineLisp

namespace Line

/-- The machine after a line was split into tokens. -/
def scanned (line : String) (m : Machine) : Machine :=
  { m with log := m.log.push (.tokensRead (Token.scan line).length) }

/-- The run of a line comes to read on, with this reader and in this machine. -/
inductive Reaches (settings : Settings) (line : String) (m : Machine) : Reader → Machine → Prop
  | start {m₀ : Machine} : Eval.emit (Token.render (Token.scan line)) (scanned line m) = .ok () m₀ →
      Reaches settings line m (.ofTokens (Token.scan line)) m₀
  | next {r : Reader} {tree : Value} {m₁ m₂ : Machine} : Reaches settings line m r m₁ →
      r.read.1 = .ok tree → runTree settings tree m₁ = .ok () m₂ → r.read.2.isExhausted = false →
        Reaches settings line m r.read.2 m₂

/-- The run of a line begins an evaluation. -/
inductive Begins (settings : Settings) (line : String) (m : Machine) : Task → Prop
  | tree {r : Reader} {tree : Value} {m₁ m₂ : Machine} : Reaches settings line m r m₁ →
      r.read.1 = .ok tree → Eval.emit tree.text m₁ = .ok () m₂ →
        Begins settings line m ⟨tree, Heap.globalScope, m₂⟩

variable {settings : Settings} {line : String} {m : Machine}

theorem run_apply (settings : Settings) (line : String) (m : Machine) :
    run settings line m =
      (Run.mapError .evaluation (Eval.emit (Token.render (Token.scan line))) >>= fun _ =>
        runTrees settings (.ofTokens (Token.scan line))) (scanned line m) :=
  rfl

theorem Reaches.run_eq {r : Reader} {m₁ : Machine} (h : Reaches settings line m r m₁) :
    run settings line m = runTrees settings r m₁ := by
  induction h with
  | start hw =>
    rw [run_apply, Run.bind_of_ok (Run.mapError_of_ok _ hw)]
  | @next r tree m₁ m₂ _ hread hrun hmore ih =>
    rw [ih, runTrees_eq, hread]
    simp only [hmore]
    rw [Run.bind_of_ok (Run.mapError_of_ok _ hrun)]
    rfl

/-- An evaluation that fails ends the line with its error. -/
theorem Begins.fails {t : Task} (h : Begins settings line m t) {e : EvalError} {m' : Machine}
    (he : evaluate settings t.tree t.scope t.machine = .error (.failed e) m') :
    run settings line m = .error (.failed (.evaluation e)) m' := by
  cases h with
  | @tree r tree m₁ m₂ hreach hread hw =>
    have hrun : runTree settings tree m₁ = .error (.failed e) m' := by
      rw [runTree, Run.bind_of_ok hw, Run.bind_of_error he]
    rw [hreach.run_eq, runTrees_eq, hread]
    exact Run.bind_of_error (Run.mapError_of_failed _ hrun) _

end Line

end LineLisp
