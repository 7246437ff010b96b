/-
  LineLisp.Proofs.Identity — closures of one identity are one closure. Every evaluation of `lambda` takes
  the next identity, so the closures that were made are a table, in which each identity is the place of
  its procedure; the table only ever gets longer.
  - `Value.Coherent`: in two values the closures of one identity are the same.
  - `Value.Registered`, `Machine.Registered`: the closures in a value, or in all that is bound, are in
    the table at their identities; values in one table are coherent (`Value.Registered.coherent`).
  - `evaluateWithin_registered`: however an evaluation ends, the closures that it made are in the table
    after the earlier ones, and so are those in the value that it gives.
  - `Session.coherent`: whatever a session has bound, and whatever a tree of the next line gives, is
    coherent.
-/

import LineLisp.Proofs.Provenance

namespace LineLisp

/-! ## Values -/

/-- The identity of a closure. -/
def Value.identity? : Value → Option ClosureId
  | closure id _ _ _ => some id
  | _ => none

/-- Closures of one identity in the two values are one closure. -/
def Value.Coherent (a b : Value) : Prop :=
  ∀ (c d : Value) (id : ClosureId), c.Part a → d.Part b → c.identity? = some id → d.identity? = some id → c = d

/-- The procedures of the closures that were made, each at the identity of its closure. -/
abbrev ClosureTable := List Procedure

/-- Every closure in the value is in the table. -/
inductive Value.Registered (table : ClosureTable) : Value → Prop
  | number (n : Number) : Registered table (.number n)
  | symbol (name : String) : Registered table (.symbol name)
  | list {vs : List Value} : (∀ v ∈ vs, Registered table v) → Registered table (.list vs)
  | primitive (p : Primitive) : Registered table (.primitive p)
  | closure {id : ClosureId} {params : List String} {body : Value} {scope : ScopeId} :
      table[id]? = some (.closure params body scope) → Registered table body →
        Registered table (.closure id params body scope)
  | nil : Registered table .nil

theorem Value.Registered.mono {table table' : ClosureTable} (htable : table <+: table') {v : Value}
    (h : v.Registered table) : v.Registered table' := by
  induction h with
  | number n => exact .number n
  | symbol name => exact .symbol name
  | list _ ih => exact .list ih
  | primitive p => exact .primitive p
  | closure hid _ ih =>
    obtain ⟨rest, rfl⟩ := htable
    exact .closure (List.getElem?_append_left (List.getElem?_eq_some_iff.mp hid).1 ▸ hid) ih
  | nil => exact .nil

theorem Value.Registered.part {table : ClosureTable} {u v : Value} (h : v.Registered table) (hu : u.Part v) :
    u.Registered table := by
  induction hu with
  | refl => exact h
  | inside _ hmem ih =>
    cases h with
    | list hvs => exact ih (hvs _ hmem)

/-- In one table an identity has one place. -/
theorem Value.Registered.coherent {table : ClosureTable} {a b : Value} (ha : a.Registered table)
    (hb : b.Registered table) : a.Coherent b := by
  intro c d id hca hdb hc hd
  have hc' := ha.part hca
  have hd' := hb.part hdb
  cases hc' with
  | closure hcid _ => cases hd' with
    | closure hdid _ =>
      obtain rfl := Option.some.inj hc
      obtain rfl := Option.some.inj hd
      cases hcid.symm.trans hdid
      rfl
    | _ => cases hd
  | _ => cases hc

/-- A value without closures is in every table. -/
theorem Value.Within.registered {v : Value} (h : v.Within 0) (table : ClosureTable) : v.Registered table := by
  induction h with
  | number n => exact .number n
  | symbol name => exact .symbol name
  | list _ ih => exact .list ih
  | primitive p => exact .primitive p
  | closure _ hs _ => exact absurd hs (Nat.not_lt_zero _)
  | nil => exact .nil

/-! ## Machines -/

namespace Heap

variable {h : Heap} {v w : Value}

theorem Binds.of_get? {id : ScopeId} {name : String} (hv : h.get? id name = some v) : h.Binds v := by
  obtain ⟨f, hf, hv⟩ := List.exists_of_findSome?_eq_some hv
  obtain ⟨i, hi⟩ := exists_of_mem_chain hf
  obtain ⟨before, after, hbindings, -⟩ := List.lookup_eq_some_iff.mp hv
  exact ⟨i, f, name, hi, by rw [hbindings]; simp⟩

theorem Binds.of_define {id : ScopeId} {name : String} (hw : (h.define id name v).Binds w) : w = v ∨ h.Binds w := by
  obtain ⟨i, f, name', hf, hb⟩ := hw
  rw [frames_define] at hf
  split at hf
  · obtain ⟨g, hg, rfl⟩ := Option.map_eq_some_iff.mp hf
    rcases Frame.mem_define hb with heq | hb
    · exact .inl (congrArg Prod.snd heq)
    · exact .inr ⟨i, g, name', hg, hb⟩
  · exact .inr ⟨i, f, name', hf, hb⟩

theorem Binds.of_push {outer : Option ScopeId} {bs : List (String × Value)}
    (hw : (h.push (.ofBindings outer bs)).2.Binds w) : (∃ b ∈ bs, b.2 = w) ∨ h.Binds w := by
  obtain ⟨i, f, name, hf, hb⟩ := hw
  rw [push, Array.getElem?_push] at hf
  split at hf
  · obtain rfl := Option.some.inj hf
    exact .inl ⟨_, Frame.mem_ofBindings hb, rfl⟩
  · exact .inr ⟨i, f, name, hf, hb⟩

end Heap

/-- The table is that of all closures so far, and has those in what is bound. -/
structure Machine.Registered (table : ClosureTable) (m : Machine) : Prop where
  count : m.heap.closures = table.length
  binds {v : Value} : m.heap.Binds v → v.Registered table

/-- The outcome leaves a machine with a table that goes on from this one, and that has the value. -/
def Outcome.Registered (table : ClosureTable) (r : Outcome EvalError Value) : Prop :=
  ∃ table', table <+: table' ∧ r.machine.Registered table' ∧ ∀ v m, r = .ok v m → v.Registered table'

namespace Machine.Registered

variable {table : ClosureTable} {m : Machine}

theorem initial (room : Option Nat) : (Machine.initial room).Registered [] := by
  refine ⟨rfl, fun {v} hv => ?_⟩
  have hpossible : Value.Possible (fun _ => False) (fun _ => False) v := Heap.initial_possible hv
  cases hpossible with
  | nil => exact .nil
  | symbol name => exact .symbol name
  | number _ => exact .number _
  | primitive p => exact .primitive p
  | list hread => exact hread.elim
  | closure hread => exact hread.elim

theorem define (h : m.Registered table) (scope : ScopeId) (name : String) {v : Value} (hv : v.Registered table) :
    Registered table { m with heap := m.heap.define scope name v } :=
  ⟨h.count, fun hw => hw.of_define.elim (fun heq => heq ▸ hv) h.binds⟩

/-- The next closure takes the next place. -/
theorem makeClosure (h : m.Registered table) (params : List String) (body : Value) (scope : ScopeId) :
    Registered (table ++ [.closure params body scope])
      { m with heap := { m.heap with closures := m.heap.closures + 1 } } :=
  ⟨by simp [h.count], fun hw => (h.binds hw).mono (List.prefix_append _ _)⟩

theorem entered (h : m.Registered table) (name : String) (params : List String) {args : List Value}
    (hargs : ∀ a ∈ args, a.Registered table) (outer : ScopeId) :
    Registered table (Procedure.entered m name params args outer) := by
  refine ⟨h.count, fun {w} hw => ?_⟩
  rcases Heap.Binds.of_push hw with ⟨b, hb, rfl⟩ | hw
  · exact hargs b.2 (List.of_mem_zip hb).2
  · exact h.binds hw

end Machine.Registered

namespace Outcome.Registered

variable {table table' : ClosureTable} {m : Machine}

theorem ok {v : Value} (hm : m.Registered table) (hv : v.Registered table) : Registered table (.ok v m) :=
  ⟨table, List.prefix_rfl, hm, fun _ _ h => by cases h; exact hv⟩

theorem error {e : Stop EvalError} (hm : m.Registered table) : Registered table (.error e m) :=
  ⟨table, List.prefix_rfl, hm, fun _ _ h => by cases h⟩

theorem mono {r : Outcome EvalError Value} (htable : table <+: table') (h : Registered table' r) :
    Registered table r := by
  obtain ⟨table'', hle, hm, hv⟩ := h
  exact ⟨table'', htable.trans hle, hm, hv⟩

theorem left {r : Outcome EvalError Value} (h : Registered table r) : Registered table (onMachine .left r) := by
  obtain ⟨table', hle, hm, hv⟩ := h
  refine ⟨table', hle, ?_, ?_⟩
  · rw [machine_onMachine]
    exact ⟨hm.count, hm.binds⟩
  · cases r with
    | ok v m =>
      rintro _ _ ⟨⟩
      exact hv v m rfl
    | error e m => rintro _ _ ⟨⟩

end Outcome.Registered

/-! ## Evaluation -/

/-- Every evaluation beside itself: a world is the table of the closures so far. -/
def registration (settings : Settings) : Simulation settings settings where
  World := ClosureTable
  le := (· <+: ·)
  value table v v' := v.Registered table ∧ v = v'
  scope _ s s' := s = s'
  rel table _ _ x _ := ∀ m : Machine, m.Registered table → Outcome.Registered table (x m)
  le_refl _ := List.prefix_rfl
  le_trans := List.IsPrefix.trans
  value_mono htable h := ⟨h.1.mono htable, h.2⟩
  scope_mono _ h := h
  alike {table v v'} h := by
    obtain ⟨h, rfl⟩ := h
    cases h with
    | number n => exact .number n
    | symbol name => exact .symbol name
    | list hvs => exact .list (List.forall₂_same.mpr fun v hv => ⟨hvs v hv, rfl⟩)
    | primitive p => exact .primitive p
    | closure _ hb => exact .closure _ _ _ _ _ _ _ ⟨hb, rfl⟩
    | nil => exact .nil
  nil _ := ⟨.nil, rfl⟩
  result _ h := by
    obtain ⟨n, rfl⟩ := Primitive.result?_ok h
    exact ⟨.number n, rfl⟩
  global _ _ := rfl
  sameReads := .refl settings
  pure hv m hm := .ok hm hv.1
  fail e m hm := .error hm
  bind {table s s' x x' f f'} hx hf m hm := by
    obtain ⟨table', hle, hm', hv⟩ := hx m hm
    rw [Run.bind_apply]
    cases hxm : x m with
    | error e m' =>
      rw [hxm] at hm'
      exact .mono hle (.error hm')
    | ok v m' =>
      rw [hxm] at hm' hv
      exact .mono hle (hf table' v v hle ⟨hv v m' rfl, rfl⟩ m' hm')
  inGlobal _ h := h
  lookup {table s s' f f'} name _ hf m hm := by
    refine hf (m.heap.get? s name) (m.heap.get? s name) ?_ m hm
    cases h : m.heap.get? s name with
    | none => exact .none
    | some v => exact .some ⟨hm.binds (.of_get? h), rfl⟩
  isBound {table s s' f f'} name _ hf m hm := hf (m.heap.contains s name) m hm
  note {table s s' f f' event} _ hf m hm :=
    hf table List.prefix_rfl { m with log := m.log.push event } ⟨hm.count, hm.binds⟩
  emit {table s s' f f'} line hf m hm := by
    cases hfull : m.sink.isFull with
    | true =>
      rw [Run.bind_of_error (Eval.emit_of_full hfull line)]
      exact .error hm
    | false =>
      rw [Run.bind_of_ok (Eval.emit_of_room hfull line)]
      exact hf table List.prefix_rfl { m with sink := m.sink.write line } ⟨hm.count, hm.binds⟩
  define {table s s' v v' f f'} name _ hv hf m hm :=
    hf table List.prefix_rfl { m with heap := m.heap.define s name v } (hm.define s name hv.1)
  newClosure {table s s' body body'} params _ hb m hm := by
    have hlonger : table <+: table ++ [.closure params body s] := List.prefix_append _ _
    refine .mono hlonger (.ok (hm.makeClosure params body s) (.closure ?_ (hb.1.mono hlonger)))
    rw [hm.count, List.getElem?_concat_length]

/-- The body of a closure is in the table with it. -/
theorem registration_calls (settings : Settings) : (registration settings).Calls where
  unfinished _ m hm := .error hm
  call {body body'} hbody table s s' i i' params t t' outer outer' name args args' hs hc hargs _ m hm := by
    by_cases henter : Procedure.MayEnter settings m
    · obtain ⟨hclosure, heq⟩ := hc
      cases heq
      cases hclosure with
      | closure _ ht =>
        have hvalues : ∀ a ∈ args, a.Registered table := ((List.forall₂_and_left _ _).mp hargs).1
        rw [Procedure.call_of_mayEnter henter]
        exact (hbody table _ _ t t rfl ⟨ht, rfl⟩ _ (hm.entered name params hvalues outer)).left
    · rw [Procedure.call_of_not_mayEnter henter]
      exact .error hm

variable {settings : Settings} {table : ClosureTable} {m : Machine}

theorem evaluateWithin_registered (settings : Settings) (hm : m.Registered table) (n : Nat) {tree : Value}
    (ht : tree.Registered table) (scope : ScopeId) :
    Outcome.Registered table (evaluateWithin settings n tree scope m) :=
  (registration_calls settings).evaluateWithin (w := table) (Nat.le_refl n) ⟨ht, rfl⟩ rfl m hm

/-! ## Sessions -/

/-- Machines with a table that goes on from this one. -/
theorem kept_registered (settings : Settings) (table : ClosureTable) :
    Line.Kept settings fun m => ∃ table', table <+: table' ∧ m.Registered table' where
  note _ := fun ⟨table', hle, hm⟩ => ⟨table', hle, hm.count, hm.binds⟩
  write _ := fun ⟨table', hle, hm⟩ => ⟨table', hle, hm.count, hm.binds⟩
  evaluate {m tree} ht := fun ⟨table', hle, hm⟩ => by
    obtain ⟨table'', hle', hm', -⟩ := evaluateWithin_registered settings hm settings.callBound
      ((ht 0).registered table') Heap.globalScope
    exact ⟨table'', hle.trans hle', hm'⟩

/-- After any lines there is a table of the closures that they made. -/
theorem Session.registered {room : Option Nat} {past : List (String × Machine)} (h : Session settings room past m) :
    ∃ table, m.Registered table := by
  induction h with
  | start => exact ⟨[], .initial room⟩
  | @line _ _ text _ _ hr _ ih =>
    obtain ⟨table, hm⟩ := ih
    obtain ⟨table', -, hm'⟩ := (kept_registered settings table).run text ⟨table, List.prefix_rfl, hm⟩
    rw [hr] at hm'
    exact ⟨table', hm'⟩

theorem Line.Reaches.registered {text : String} {m₁ : Machine} {r : Reader} (hm : m.Registered table)
    (h : Reaches settings text m r m₁) : ∃ table', table <+: table' ∧ m₁.Registered table' := by
  have hkept := kept_registered settings table
  induction h with
  | start hemit =>
    have hscanned := hkept.note (.tokensRead (Token.scan text).length) ⟨table, List.prefix_rfl, hm⟩
    have h := hkept.emit (Token.render (Token.scan text)) hscanned
    rw [scanned] at hemit
    rwa [hemit] at h
  | next _ hread hrun _ ih =>
    have h := hkept.runTree (Reader.read_within hread) ih
    rwa [hrun] at h

theorem Line.Begins.registered {text : String} {t : Task} (hm : m.Registered table)
    (h : Begins settings text m t) : ∃ table', t.machine.Registered table' ∧ t.tree.Registered table' := by
  cases h with
  | tree hreach hread hemit =>
    obtain ⟨table', hle, hm₁⟩ := hreach.registered hm
    obtain ⟨table'', -, hm₂⟩ := (kept_registered settings table').emit _ ⟨table', List.prefix_rfl, hm₁⟩
    rw [hemit] at hm₂
    exact ⟨table'', hm₂, (Reader.read_within hread 0).registered table''⟩

/-- Whatever is bound after a session is coherent, and so is whatever is bound after a tree of the next line is
    evaluated, with the value that this gives. -/
theorem Session.coherent {room : Option Nat} {past : List (String × Machine)} (h : Session settings room past m) :
    (∀ a b, m.heap.Binds a → m.heap.Binds b → a.Coherent b) ∧
    ∀ text t v m', Line.Begins settings text m t → Evaluates settings t.tree t.scope t.machine (.ok v m') →
      ∀ a b, a = v ∨ m'.heap.Binds a → b = v ∨ m'.heap.Binds b → a.Coherent b := by
  obtain ⟨table, hm⟩ := h.registered
  refine ⟨fun a b ha hb => (hm.binds ha).coherent (hm.binds hb), ?_⟩
  intro text t v m' hbegins he a b ha hb
  obtain ⟨table', ht, htree⟩ := hbegins.registered hm
  obtain ⟨⟨n, hn⟩, -⟩ := he
  obtain ⟨table'', -, hm', hv⟩ := evaluateWithin_registered settings ht n htree t.scope
  have hn : evaluateWithin settings n t.tree t.scope t.machine = .ok v m' := hn
  rw [hn] at hm' hv
  have hregistered {u : Value} (hu : u = v ∨ m'.heap.Binds u) : u.Registered table'' :=
    hu.elim (fun heq => heq ▸ hv v m' rfl) hm'.binds
  exact (hregistered ha).coherent (hregistered hb)

end LineLisp
