/-
  LineLisp.Proofs.SetScope — where `set!` evaluates makes a difference in the bodies of closures
  only. If no body has `set!` in it, then every `set!` that is evaluated stands in the global scope,
  so that both settings have it evaluate there.
  - `settingGlobally`: the discipline of trees whose bodies are free of `set!`, and which have it
    themselves in the global scope at most; it does not tell the two settings apart.
  - `set_scope_matters_only_in_bodies`: two sessions with the same lines and the same limit on
    calls are the same, line by line.
-/

import LineLisp.Proofs.Provenance

namespace LineLisp

/-- `set!` stands somewhere in the tree. -/
def Value.HasSet (t : Value) : Prop := (Value.symbol Keyword.assign.name).Part t

/-- No `lambda` form in the tree has `set!` in its body. -/
def Value.BodiesSetFree (t : Value) : Prop :=
  ∀ params body surplus, (Value.form .lambda (params :: body :: surplus)).Part t → ¬ body.HasSet

namespace Value

variable {u v : Value}

theorem HasSet.of_part (h : u.HasSet) (hu : u.Part v) : v.HasSet := Part.trans h hu

theorem BodiesSetFree.part (h : v.BodiesSetFree) (hu : u.Part v) : u.BodiesSetFree :=
  fun params body surplus hpart => h params body surplus (hpart.trans hu)

/-- In a tree without `set!` no body has it. -/
theorem bodiesSetFree_of_not_hasSet (h : ¬ v.HasSet) : v.BodiesSetFree := by
  intro params body surplus hpart hset
  have hbody : body.Part (.form .lambda (params :: body :: surplus)) := .of_mem (by simp)
  exact h (hset.of_part (hbody.trans hpart))

theorem hasSet_assign (operands : List Value) : (form .assign operands).HasSet := .of_mem List.mem_cons_self

end Value

theorem Settings.readScope_global (settings : Settings) : settings.readScope Heap.globalScope = Heap.globalScope := by
  unfold readScope
  split <;> rfl

/-- Plain trees with no `set!` in bodies, and with none at all unless they are evaluated in the global
    scope; closures with no `set!` in their bodies. -/
def settingGlobally {settings settings' : Settings} (hdepth : settings.maxDepth = settings'.maxDepth) :
    Discipline settings settings' where
  code s t := t.Plain ∧ t.BodiesSetFree ∧ (t.HasSet → s = Heap.globalScope)
  data v := ∀ id params body scope, v = .closure id params body scope → body.Plain ∧ ¬ body.HasSet
  shared _ _ := true
  sameDepth := hdepth
  elements h t ht := by
    obtain ⟨hplain, hfree, hset⟩ := h
    exact ⟨hplain.elements t ht, hfree.part (.of_mem ht), fun h => hset (h.of_part (.of_mem ht))⟩
  constant h _ := by
    rintro id params body scope rfl
    cases h.1
  quoted h := by
    rintro id params body scope rfl
    cases h.1.elements (.closure id params body scope) (by simp)
  assigned {s name e surplus} h := by
    obtain ⟨hplain, hfree, hset⟩ := h
    have he : e.Part (.form .assign (.symbol name :: e :: surplus)) := .of_mem (by simp)
    rw [hset (Value.hasSet_assign _), settings.readScope_global, settings'.readScope_global]
    exact ⟨rfl, hplain.part he, hfree.part he, fun _ => rfl⟩
  lambda {s names body surplus} id h := by
    obtain ⟨hplain, hfree, -⟩ := h
    rintro _ _ _ _ ⟨⟩
    exact ⟨hplain.elements body (by simp), hfree _ _ _ .refl⟩
  body _ h := by
    obtain ⟨hplain, hset⟩ := h _ _ _ _ rfl
    exact ⟨hplain, Value.bodiesSetFree_of_not_hasSet hset, fun h => absurd h hset⟩
  nil := by rintro _ _ _ _ ⟨⟩
  result _ hresult := by
    obtain ⟨n, rfl⟩ := Primitive.result?_ok hresult
    rintro _ _ _ _ ⟨⟩
  named _ _ := rfl

variable {settings settings' : Settings} {room : Option Nat} {past : List (String × Machine)} {m : Machine}

/-- A line in whose trees no body has `set!` is run in the same way, and leaves closures of which none
    has it. -/
theorem run_alike (hdepth : settings.maxDepth = settings'.maxDepth) {text : String}
    (hm : (settingGlobally hdepth).Alike m m)
    (hfree : ∀ tree, Line.Reads settings text m tree → tree.BodiesSetFree) :
    Line.run settings' text m = Line.run settings text m ∧
      (settingGlobally hdepth).Alike (Outcome.machine (Line.run settings text m))
        (Outcome.machine (Line.run settings text m)) := by
  have hagree := (settingGlobally hdepth).run (fun tree h => ⟨h.plain, hfree tree h, fun _ => rfl⟩) hm
  have heq := hagree.eq fun _ _ => rfl
  have halike := hagree.alike
  rw [← heq] at halike
  exact ⟨heq.symm, halike⟩

theorem Session.alike (hdepth : settings.maxDepth = settings'.maxDepth) (h : Session settings room past m)
    (hfree : ∀ tree, Read settings past tree → tree.BodiesSetFree) :
    Session settings' room past m ∧ (settingGlobally hdepth).Alike m m := by
  induction h with
  | start =>
    refine ⟨.start, .refl fun v hv => ?_⟩
    rintro _ _ _ _ rfl
    have hpossible : Value.Possible (fun _ => False) (fun _ => False) _ := Heap.initial_possible hv
    cases hpossible with
    | closure hread => exact hread.elim
  | @line past m text r _ hr hfin ih =>
    obtain ⟨hsession, hm⟩ := ih fun tree ht => hfree tree (ht.cons _)
    obtain ⟨heq, halike⟩ := run_alike hdepth hm fun tree ht => hfree tree ⟨_, List.mem_cons_self, ht⟩
    rw [hr] at heq halike
    exact ⟨.line hsession heq hfin, halike⟩

/-- If in no tree of a session's lines, and in none of the next one, the body of a `lambda` form has
    `set!` in it, then where `set!` evaluates makes no difference: the same lines lead from machine to
    machine in the same way, and the next one ends in the same way and leaves the same machine. -/
theorem set_scope_matters_only_in_bodies (hdepth : settings.maxDepth = settings'.maxDepth)
    (h : Session settings room past m) {text : String}
    (hfree : ∀ tree, Session.Read settings ((text, m) :: past) tree → tree.BodiesSetFree) :
    Session settings' room past m ∧ Line.run settings' text m = Line.run settings text m := by
  obtain ⟨hsession, hm⟩ := h.alike hdepth fun tree ht => hfree tree (ht.cons _)
  exact ⟨hsession, (run_alike hdepth hm fun tree ht => hfree tree ⟨_, List.mem_cons_self, ht⟩).1⟩

/-- The line sets a name to a closure that sets nothing. -/
theorem set_scope_matters_only_in_bodies_setting :
    Session ⟨false, some 1⟩ none [] (.initial none) ∧
      Line.run ⟨false, some 1⟩ "(set! f (lambda (x) x))" (.initial none) =
        Line.run ⟨true, some 1⟩ "(set! f (lambda (x) x))" (.initial none) := by
  have htrees : (Reader.ofText "(set! f (lambda (x) x))").trees =
      [.list [.symbol "set!", .symbol "f", .list [.symbol "lambda", .list [.symbol "x"], .symbol "x"]]] := by
    have hread : (Reader.ofText "(set! f (lambda (x) x))").read.1 = .ok (.list [.symbol "set!", .symbol "f",
        .list [.symbol "lambda", .list [.symbol "x"], .symbol "x"]]) := by cbv
    rw [Reader.trees_of_ok hread, Reader.trees_of_exhausted (by cbv)]
  have hdepth : (⟨true, some 1⟩ : Settings).maxDepth = (⟨false, some 1⟩ : Settings).maxDepth := rfl
  refine set_scope_matters_only_in_bodies hdepth .start fun tree hread => ?_
  obtain ⟨l, hl, hread⟩ := hread
  obtain rfl := List.mem_singleton.mp hl
  have htree := hread.mem_trees
  rw [htrees, List.mem_singleton] at htree
  subst htree
  -- The only form that makes a closure is the second operand.
  intro params body surplus hpart hset
  have hparts : Keyword.lambda.name = "set!" ∧ params = .symbol "f" ∧
        body = .list [.symbol "lambda", .list [.symbol "x"], .symbol "x"] ∧ surplus = [] ∨
      Keyword.lambda.name = "lambda" ∧ params = .list [.symbol "x"] ∧ body = .symbol "x" ∧ surplus = [] := by
    simpa [Value.part_list_iff, Value.part_symbol_iff, Value.form] using hpart
  rcases hparts with ⟨hname, -⟩ | ⟨-, -, rfl, -⟩
  · exact absurd hname (by decide)
  · exact absurd (Value.symbol.inj (Value.part_symbol_iff.mp hset)) (by decide)

end LineLisp
