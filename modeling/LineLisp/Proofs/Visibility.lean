/-
  LineLisp.Proofs.Visibility — who sees a binding. A scope sees its own bindings and, through the
  links, those of the scopes around it, where the nearest one hides the others. Many scopes may
  stand inside one, and a definition there is seen from all of them that have not hidden it.
  - `Heap.mem_names_iff` and `Heap.contains_eq_isSome`: the names that are visible are those that
    are bound and those that a look-up finds.
  - `Heap.Chain.get?_eq`: a look-up gives what the first scope says that binds the name.
  - `visible_along_chain`: what a definition changes is what its name is bound to in those scopes
    that see as far as to its own.
-/

import LineLisp.Proofs.Renaming
import LineLisp.Proofs.SetWarnings

namespace LineLisp

namespace Frame

theorem mem_names_iff {f : Frame} {name : String} : name ∈ f.names ↔ f.contains name = true := by
  simp [names, contains]

end Frame

namespace Heap

/-! ## Names -/

theorem mem_names_iff {h : Heap} {scope : ScopeId} {name : String} :
    name ∈ h.names scope ↔ h.contains scope name = true := by
  simp [names, contains, Frame.mem_names_iff]

/-! ## Nested scopes -/

theorem Nested.none (closures : Nat) : Nested ⟨#[], closures⟩ where
  outer hf := by cases hf

/-- A new scope stands inside one that there is, or inside none. -/
theorem Nested.push {h : Heap} (hn : h.Nested) {f : Frame} (ho : ∀ o, f.outer = some o → o < h.frames.size) :
    (h.push f).2.Nested where
  outer {id outer g} hg hout := by
    rw [Heap.push, Array.getElem?_push] at hg
    split at hg
    · next hid =>
      cases hg
      exact hid ▸ ho outer hout
    · exact hn.outer hg hout

theorem Nested.define {h : Heap} (hn : h.Nested) (f : ScopeId) (n : String) (v : Value) :
    (h.define f n v).Nested where
  outer {id outer g} hg hout := by
    have hlink : h.link id = some (some outer) := by
      rw [← link_define h f id n v]
      exact link_eq_some_iff.mpr ⟨g, hg, hout⟩
    obtain ⟨g, hg, hout⟩ := link_eq_some_iff.mp hlink
    exact hn.outer hg hout

/-! ## Look-ups along the links -/

namespace Chain

variable {h : Heap} {scope : ScopeId} {ids : List ScopeId}

theorem define (hc : h.Chain scope ids) (f : ScopeId) (n : String) (v : Value) : (h.define f n v).Chain scope ids := by
  induction hc with
  | outermost hlink => exact .outermost ((link_define ..).trans hlink)
  | inside hlink _ ih => exact .inside ((link_define ..).trans hlink) ih

theorem head?_eq (hc : h.Chain scope ids) : ids.head? = some scope := by
  cases hc <;> rfl

theorem lt_size (hc : h.Chain scope ids) : ∀ i ∈ ids, i < h.frames.size := by
  have hlt {id : ScopeId} {outer : Option ScopeId} (hlink : h.link id = some outer) : id < h.frames.size := by
    obtain ⟨f, hf, -⟩ := link_eq_some_iff.mp hlink
    exact (Array.getElem?_eq_some_iff.mp hf).1
  induction hc with
  | outermost hlink => simpa using hlt hlink
  | inside hlink _ ih => exact List.forall_mem_cons.mpr ⟨hlt hlink, ih⟩

/-- A look-up gives what the first of the scopes says that binds the name. -/
theorem get?_eq (hn : h.Nested) (hc : h.Chain scope ids) (name : String) :
    h.get? scope name = (ids.filterMap (h.own? · name)).head? := by
  induction hc with
  | outermost hlink =>
    obtain ⟨f, hf, ho⟩ := link_eq_some_iff.mp hlink
    rw [hn.get?_eq hf, ho]
    simp [own?, hf, List.head?_filterMap]
  | inside hlink _ ih =>
    obtain ⟨f, hf, ho⟩ := link_eq_some_iff.mp hlink
    rw [hn.get?_eq hf, ho, List.head?_filterMap, List.findSome?_cons, ← List.head?_filterMap, ← ih]
    cases hv : f.get? name <;> simp [own?, hf, hv]

end Chain

/-- A scope that does not exist sees nothing. -/
theorem get?_of_size_le {h : Heap} {scope : ScopeId} (hs : h.frames.size ≤ scope) (name : String) :
    h.get? scope name = none := by
  rw [get?_eq, Array.getElem?_eq_none hs]
  rfl

/-- The links lead from the scope to the target, and none of the scopes before it binds the name. -/
def SeesInto (h : Heap) (scope target : ScopeId) (name : String) : Prop :=
  ∃ before after, h.Chain scope (before ++ target :: after) ∧ ∀ i ∈ before, ¬ h.BindsIn i name

section Definition

variable {h : Heap} (hn : h.Nested) {f g : ScopeId} {n : String} {v : Value}

include hn

/-- A definition is seen from the scopes that see as far. -/
theorem get?_define_of_seesInto (hsees : h.SeesInto g f n) : (h.define f n v).get? g n = some v := by
  obtain ⟨before, after, hc, hclear⟩ := hsees
  have hfirst : f ∉ before := fun hmem =>
    Nat.lt_irrefl f ((List.pairwise_append.mp (hc.descends hn)).2.2 f hmem f List.mem_cons_self)
  have hbefore : before.filterMap ((h.define f n v).own? · n) = [] := by
    refine List.filterMap_eq_nil_iff.mpr fun i hi => ?_
    have hne : i ≠ f := ne_of_mem_of_not_mem hi hfirst
    have hnone : h.own? i n = none := not_not.mp (mt bindsIn_iff.mpr (hclear i hi))
    simp [own?_define, hne, hnone]
  have hown : (h.define f n v).own? f n = some v := by
    simp [own?_define, hc.lt_size f (by simp)]
  rw [(hc.define f n v).get?_eq (hn.define f n v), List.filterMap_append, hbefore]
  simp [hown]

/-- Elsewhere all is as before: in a scope outside of which the definition is, in one that hides it,
    and for another name. -/
theorem get?_define_of_not_seesInto {m : String} (hblind : m = n → ¬ h.SeesInto g f n) :
    (h.define f n v).get? g m = h.get? g m := by
  have hsame {ids : List ScopeId} (hids : f ∉ ids) :
      ids.filterMap ((h.define f n v).own? · m) = ids.filterMap (h.own? · m) := by
    refine List.filterMap_congr fun i hi => ?_
    have hne : i ≠ f := ne_of_mem_of_not_mem hi hids
    simp [own?_define, hne]
  by_cases hg : g < h.frames.size
  · obtain ⟨ids, hc⟩ := hn.exists_chain hg
    rw [(hc.define f n v).get?_eq (hn.define f n v), hc.get?_eq hn]
    by_cases hmem : f ∈ ids
    · obtain ⟨before, after, rfl, hfirst⟩ := List.eq_append_cons_of_mem hmem
      by_cases hm : m = n
      · -- Some scope before the definition's own binds the name.
        have hhides : ∃ i ∈ before, h.BindsIn i n := by
          by_contra hclear
          exact hblind hm ⟨before, after, hc, fun i hi hb => hclear ⟨i, hi, hb⟩⟩
        obtain ⟨i, hi, hb⟩ := hhides
        have hsome : before.filterMap (h.own? · m) ≠ [] := fun hnil =>
          bindsIn_iff.mp hb (hm ▸ List.filterMap_eq_nil_iff.mp hnil i hi)
        rw [List.filterMap_append, List.filterMap_append, hsame hfirst, List.head?_append_of_ne_nil _ hsome,
          List.head?_append_of_ne_nil _ hsome]
      · simp [own?_define, hm]
    · rw [hsame hmem]
  · have hle := Nat.le_of_not_lt hg
    rw [get?_of_size_le hle, get?_of_size_le ((h.size_define f n v).trans_le hle)]

end Definition

end Heap

/-- In every heap of scopes that stand inside earlier ones the links lead from each scope to an end,
    and the names that are visible, that count as bound and that are found are the same. After a
    definition a look-up of its name gives the new value from those scopes from which the links lead
    to the definition's own, past none that binds the name; every other look-up gives what it gave
    before. -/
theorem visible_along_chain {h : Heap} (hn : h.Nested) :
    (∀ scope < h.frames.size, ∃ ids, h.Chain scope ids) ∧
    (∀ scope name, (h.contains scope name = true ↔ (h.get? scope name).isSome = true) ∧
      (name ∈ h.names scope ↔ (h.get? scope name).isSome = true)) ∧
    ∀ f n v, (h.define f n v).Nested ∧ ∀ g m,
      (m = n ∧ h.SeesInto g f n → (h.define f n v).get? g m = some v) ∧
      (¬ (m = n ∧ h.SeesInto g f n) → (h.define f n v).get? g m = h.get? g m) := by
  refine ⟨fun scope hs => hn.exists_chain hs, fun scope name => ⟨?_, ?_⟩, fun f n v => ⟨hn.define f n v, ?_⟩⟩
  · rw [Heap.contains_eq_isSome]
  · rw [Heap.mem_names_iff, Heap.contains_eq_isSome]
  · refine fun g m => ⟨fun ⟨hm, hsees⟩ => ?_, fun hblind => ?_⟩
    · rw [hm, Heap.get?_define_of_seesInto hn hsees]
    · exact Heap.get?_define_of_not_seesInto hn fun hm hsees => hblind ⟨hm, hsees⟩

/-- A scope with `x`, and inside it one that stands around a third; the third binds `x` as well. -/
def nestedThrice : Heap where
  frames := #[⟨none, [("x", .int 1)]⟩, ⟨some 0, []⟩, ⟨some 1, [("x", .int 3)]⟩]
  closures := 0

/-- A definition in the outermost scope is seen from the middle one, while the inner one hides it;
    and one in the middle is not seen from the outermost. -/
theorem visible_along_chain_shadowed :
    nestedThrice.Nested ∧
      (nestedThrice.define 0 "x" (.int 9)).get? 1 "x" = some (.int 9) ∧
      (nestedThrice.define 0 "x" (.int 9)).get? 2 "x" = nestedThrice.get? 2 "x" ∧
      (nestedThrice.define 1 "x" (.int 9)).get? 0 "x" = nestedThrice.get? 0 "x" := by
  have hn : nestedThrice.Nested := by
    refine (((Heap.Nested.none 0).push (f := ⟨none, [("x", .int 1)]⟩) ?_).push (f := ⟨some 0, []⟩) ?_).push
      (f := ⟨some 1, [("x", .int 3)]⟩) ?_
    · simp
    · simp [Heap.push]
    · simp [Heap.push]
  obtain ⟨-, -, hdefine⟩ := visible_along_chain hn
  have hmiddle : nestedThrice.SeesInto 1 0 "x" := by
    refine ⟨[1], [], .inside rfl (.outermost rfl), fun i hi => ?_⟩
    rw [List.mem_singleton.mp hi, Heap.bindsIn_iff, not_not]
    rfl
  have hinner : ¬ nestedThrice.SeesInto 2 0 "x" := by
    rintro ⟨before, after, hc, hclear⟩
    cases before with
    | nil => exact absurd (Option.some.inj hc.head?_eq) (by decide)
    | cons i before =>
      obtain rfl := Option.some.inj hc.head?_eq
      exact hclear 2 List.mem_cons_self ⟨_, rfl, by decide⟩
  have houter : ¬ nestedThrice.SeesInto 0 1 "x" := by
    rintro ⟨before, after, hc, -⟩
    exact absurd (hc.le hn 1 (by simp)) (by decide)
  obtain ⟨hseen, -⟩ := (hdefine 0 "x" (.int 9)).2 1 "x"
  obtain ⟨-, hhidden⟩ := (hdefine 0 "x" (.int 9)).2 2 "x"
  obtain ⟨-, hinside⟩ := (hdefine 1 "x" (.int 9)).2 0 "x"
  exact ⟨hn, hseen ⟨rfl, hmiddle⟩, hhidden fun h => hinner h.2, hinside fun h => houter h.2⟩

end LineLisp
