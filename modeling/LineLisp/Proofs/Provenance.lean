/-
  LineLisp.Proofs.Provenance — where the values of a session come from. A line is read as trees
  of ints, floats, symbols and lists; arithmetic adds numbers of four of the six widths, and
  evaluation the primitives, nil and the closures of `lambda` forms. Everything else that a name is
  bound to or that is written is a part of a tree that was read.
  - `Value.Plain`: what trees that are read are made of; `Reader.read_plain` says so of any text.
  - `Session`: the lines that were run from the start, and the machine that they lead to.
  - `Value.Possible`: what a value can be, given the trees that were read and the scopes that
    there are.
  - `session_values`: so is every value that is bound after a line or given inside the next one.
-/

import LineLisp.Proofs.Discipline
import LineLisp.Proofs.Printing
import LineLisp.Proofs.TreeByTree

namespace LineLisp

/-! ## Trees -/

namespace Value

/-- The first value is the second one, or a list has it inside. -/
inductive Part (u : Value) : Value → Prop
  | refl : Part u u
  | inside {v : Value} {vs : List Value} : Part u v → v ∈ vs → Part u (.list vs)

/-- A tree of ints, floats that are numbers, and symbols: words of the text that are not written
    as numbers. -/
inductive Plain : Value → Prop
  | int (n : Int32) : Plain (.int n)
  | float {x : Single} : x ≠ .nan → Plain (.number (.float x))
  | symbol {name : String} : IsWord name.toList → Number.ofText? name = none → Plain (.symbol name)
  | list {vs : List Value} : (∀ v ∈ vs, Plain v) → Plain (.list vs)

variable {u v w : Value}

theorem Part.of_mem {vs : List Value} (h : v ∈ vs) : v.Part (.list vs) := .inside .refl h

theorem part_list_iff {vs : List Value} : u.Part (.list vs) ↔ u = .list vs ∨ ∃ v ∈ vs, u.Part v := by
  constructor
  · intro h
    cases h with
    | refl => exact .inl rfl
    | inside h hmem => exact .inr ⟨_, hmem, h⟩
  · rintro (rfl | ⟨v, hmem, h⟩)
    · exact .refl
    · exact .inside h hmem

theorem part_symbol_iff {name : String} : u.Part (.symbol name) ↔ u = .symbol name := by
  constructor
  · intro h
    cases h
    rfl
  · rintro rfl
    exact .refl

theorem Part.trans (h : u.Part v) (h' : v.Part w) : u.Part w := by
  induction h' with
  | refl => exact h
  | inside _ hmem ih => exact .inside ih hmem

theorem Plain.elements {vs : List Value} (h : (Value.list vs).Plain) : ∀ v ∈ vs, v.Plain := by
  cases h with
  | list h => exact h

theorem Plain.part (h : v.Plain) (hu : u.Part v) : u.Plain := by
  induction hu with
  | refl => exact h
  | inside _ hmem ih => exact ih (h.elements _ hmem)

theorem Readable.plain (h : v.Readable) : v.Plain := by
  induction h with
  | @atom s hs =>
    unfold ofAtom
    split
    · next n hn =>
      rcases Number.ofText?_cases hn with ⟨i, rfl⟩ | ⟨negative, m, e, hc, rfl⟩ | ⟨negative, rfl⟩
      · exact .int i
      · exact .float (by simp)
      · exact .float (by simp)
    · next hnone => exact .symbol hs hnone
  | list _ ih => exact .list ih

end Value

/-- Whatever is read from the tokens of a text is a plain tree, and leaves tokens of the text. -/
theorem Reader.read_plain {text : String} {r : Reader} {tree : Value} (hr : r.remaining <:+ Token.scan text)
    (h : r.read.1 = .ok tree) : tree.Plain ∧ r.read.2.remaining <:+ Token.scan text := by
  have hread : readWithin r.stop [] r.remaining = (.ok tree, r.read.2.remaining) := Prod.ext h rfl
  have hspelled : ∀ t ∈ r.remaining, t.kind.WellSpelled := fun t ht => Token.wellSpelled_of_mem_scan (hr.subset ht)
  obtain ⟨hreadable, used, hused, -⟩ := readable_of_readWithin hread hspelled fun _ hl => absurd hl List.not_mem_nil
  exact ⟨hreadable.plain, .trans ⟨used, hused.symm⟩ hr⟩

theorem Line.Reaches.remaining {settings : Settings} {text : String} {m m₁ : Machine} {r : Reader}
    (h : Reaches settings text m r m₁) : r.remaining <:+ Token.scan text := by
  induction h with
  | start _ => exact List.suffix_rfl
  | next _ hread _ _ ih => exact (Reader.read_plain ih hread).2

theorem Line.Reads.plain {settings : Settings} {text : String} {m : Machine} {tree : Value}
    (h : Reads settings text m tree) : tree.Plain := by
  obtain ⟨r, m₁, hreach, hread⟩ := h
  exact (Reader.read_plain hreach.remaining hread).1

theorem Line.Reaches.trees {settings : Settings} {text : String} {m m₁ : Machine} {r : Reader}
    (h : Reaches settings text m r m₁) : r.trees <:+ (Reader.ofText text).trees := by
  induction h with
  | start _ => exact List.suffix_rfl
  | next _ hread _ _ ih =>
    rw [Reader.trees_of_ok hread] at ih
    exact (List.suffix_cons _ _).trans ih

/-- The trees that a line comes to read are among those before the first error of its text. -/
theorem Line.Reads.mem_trees {settings : Settings} {text : String} {m : Machine} {tree : Value}
    (h : Reads settings text m tree) : tree ∈ (Reader.ofText text).trees := by
  obtain ⟨r, m₁, hreach, hread⟩ := h
  refine hreach.trees.subset ?_
  rw [Reader.trees_of_ok hread]
  exact List.mem_cons_self

/-! ## Sessions -/

/-- Lines that were run from the start, the last one first, each with the machine that it began in,
    lead to a machine. -/
inductive Session (settings : Settings) (room : Option Nat) : List (String × Machine) → Machine → Prop
  | start : Session settings room [] (.initial room)
  | line {past : List (String × Machine)} {m : Machine} {text : String} {r : Outcome LineError Unit} :
      Session settings room past m → Line.run settings text m = r → r.Finished →
        Session settings room ((text, m) :: past) r.machine

namespace Session

variable {settings : Settings} {room : Option Nat} {past : List (String × Machine)} {m : Machine}

/-- The tree was read in one of the lines. -/
def Read (settings : Settings) (past : List (String × Machine)) (tree : Value) : Prop :=
  ∃ l ∈ past, Line.Reads settings l.1 l.2 tree

/-- It is the global scope, or the scope of a call that was entered in one of the lines. -/
def Home (settings : Settings) (past : List (String × Machine)) (scope : ScopeId) : Prop :=
  scope = Heap.globalScope ∨
    ∃ l ∈ past, ∃ cs c, Operation.Enters settings l.2 (.line l.1) cs c ∧ c.scope = scope

theorem Read.plain {tree : Value} (h : Read settings past tree) : tree.Plain := by
  obtain ⟨l, -, hread⟩ := h
  exact hread.plain

theorem Read.cons (l : String × Machine) {tree : Value} (h : Read settings past tree) :
    Read settings (l :: past) tree := by
  obtain ⟨l', hl', hread⟩ := h
  exact ⟨l', List.mem_cons_of_mem _ hl', hread⟩

theorem Home.cons (l : String × Machine) {scope : ScopeId} (h : Home settings past scope) :
    Home settings (l :: past) scope := by
  rcases h with h | ⟨l', hl', h⟩
  · exact .inl h
  · exact .inr ⟨l', List.mem_cons_of_mem _ hl', h⟩

theorem reachable (h : Session settings room past m) : m.Reachable := by
  induction h with
  | start => exact .initial room
  | line _ hr hfin ih => exact .line ih hr hfin

/-- Scopes that are there in the course of a line are those that were there before, or scopes of its
    calls. -/
theorem home_of_leads {text : String} {m' : Machine} {cs cs' : List Call}
    (hm : ∀ scope < m.heap.frames.size, Home settings past scope)
    (h : Moment.Leads settings (Operation.Enters settings m (.line text)) ⟨cs, m⟩ ⟨cs', m'⟩) {scope : ScopeId}
    (hscope : scope < m'.heap.frames.size) : Home settings ((text, m) :: past) scope := by
  by_cases hold : scope < m.heap.frames.size
  · exact (hm scope hold).cons _
  · obtain ⟨outer, hlink⟩ := Option.ne_none_iff_exists'.mp (mt Heap.link_eq_none_iff.mp (Nat.not_le.mpr hscope))
    obtain ⟨cs, c, hc, hid, -⟩ := h.link (Heap.link_eq_none_iff.mpr (Nat.not_lt.mp hold)) hlink
    exact .inr ⟨_, List.mem_cons_self, cs, c, hc, hid⟩

theorem home (h : Session settings room past m) : ∀ scope < m.heap.frames.size, Home settings past scope := by
  induction h with
  | start => exact fun scope hscope => .inl (Nat.lt_one_iff.mp hscope)
  | line _ hr hfin ih => exact fun scope => home_of_leads ih (Operation.Ends.leads (.line hr hfin))

end Session

/-! ## Values -/

/-- What a value can be, if these trees were read and closures are made in these scopes. -/
inductive Value.Possible (read : Value → Prop) (home : ScopeId → Prop) : Value → Prop
  | nil : Possible read home .nil
  | symbol (name : String) : Possible read home (.symbol name)
  | number {n : Number} : n.kind ∈ [Kind.int, .long, .float, .double] → Possible read home (.number n)
  | primitive (p : Primitive) : Possible read home (.primitive p)
  | list {vs : List Value} {tree : Value} : read tree → (Value.list vs).Part tree → (Value.list vs).Plain →
      Possible read home (.list vs)
  /-- The closure of a `lambda` form in a tree that was read. -/
  | closure {id : ClosureId} {params : List String} {body : Value} {scope : ScopeId} {surplus : List Value}
      {tree : Value} : read tree →
        (Value.form .lambda (.list (params.map .symbol) :: body :: surplus)).Part tree → home scope →
          Possible read home (.closure id params body scope)

namespace Value.Possible

variable {read read' : Value → Prop} {home home' : ScopeId → Prop} {v : Value}

theorem mono (hread : ∀ tree, read tree → read' tree) (h : v.Possible read home)
    (hhome : ∀ id params body scope, v = .closure id params body scope → home scope → home' scope) :
    v.Possible read' home' := by
  cases h with
  | nil => exact .nil
  | symbol name => exact .symbol name
  | number hn => exact .number hn
  | primitive p => exact .primitive p
  | list ht hpart hplain => exact .list (hread _ ht) hpart hplain
  | closure ht hpart hs => exact .closure (hread _ ht) hpart (hhome _ _ _ _ rfl hs)

/-- Its scope is among those that there are. -/
theorem within {n : Nat} (h : v.Possible read fun _ => True) (hv : v.Within n) (hn : ∀ scope < n, home scope) :
    v.Possible read home := by
  refine h.mono (fun _ ht => ht) fun id params body scope heq _ => ?_
  subst heq
  cases hv with
  | closure _ hs => exact hn scope hs

theorem of_plain {tree : Value} (htree : read tree) (hpart : v.Part tree) (hplain : v.Plain) :
    v.Possible read home := by
  cases hplain with
  | int n => exact .number (by simp [Number.int, Number.kind, Whole.kind])
  | float hx => exact .number (by simp [Number.kind])
  | symbol => exact .symbol _
  | list hvs => exact .list htree hpart (.list hvs)

end Value.Possible

/-- Sums, products and magnitudes are of four widths, whatever the operands. -/
theorem Whole.combine_kind (narrow : Int32 → Int32 → Int32) (wide : Int64 → Int64 → Int64) (a b : Whole) :
    (combine narrow wide a b).kind ∈ [Kind.int, .long, .float, .double] := by
  unfold combine
  split <;> simp [kind]

theorem Whole.abs_kind (a : Whole) : a.abs.kind ∈ [Kind.int, .long, .float, .double] := by
  unfold abs
  split
  · simp [kind]
  · split <;> simp [kind]

theorem Primitive.result?_possible {p : Primitive} {args : List Value} {v : Value} {read : Value → Prop}
    {home : ScopeId → Prop} (h : p.result? args = some (.ok v)) : v.Possible read home := by
  have hcombine (onWhole : Whole → Whole → Whole) (onSingle : Single → Single → Single)
      (onDouble : Double → Double → Double)
      (hwhole : ∀ a b, (onWhole a b).kind ∈ [Kind.int, .long, .float, .double]) (m n : Number) :
      (Number.combine onWhole onSingle onDouble m n).kind ∈ [Kind.int, .long, .float, .double] := by
    unfold Number.combine
    split
    · exact hwhole _ _
    · simp [Number.kind]
    · simp [Number.kind]
    · simp [Number.kind]
  rcases result?_cases h with ⟨m, n, rfl⟩ | ⟨m, n, rfl⟩ | ⟨n, rfl⟩
  · exact .number (hcombine _ _ _ (Whole.combine_kind _ _) m n)
  · exact .number (hcombine _ _ _ (Whole.combine_kind _ _) m n)
  · cases n with
    | whole a => exact .number (Whole.abs_kind a)
    | float x => exact .number (by simp [Number.abs, Number.kind])
    | double x => exact .number (by simp [Number.abs, Number.kind])

theorem Heap.initial_possible {v : Value} {read : Value → Prop} {home : ScopeId → Prop} (h : initial.Binds v) :
    v.Possible read home := by
  obtain ⟨id, f, name, hf, hb⟩ := h
  obtain ⟨-, rfl⟩ : id = 0 ∧ f = .global := by
    obtain ⟨hid, rfl⟩ := Array.getElem?_eq_some_iff.mp hf
    exact ⟨Nat.lt_one_iff.mp hid, by simp [initial]⟩
  rcases List.mem_cons.mp (Frame.mem_ofBindings hb) with heq | hb
  · cases heq
    exact .number (by decide)
  · obtain ⟨p, -, heq⟩ := List.mem_map.mp hb
    cases heq
    exact .primitive p

/-! ## The discipline -/

/-- Parts of trees that were read are evaluated, and give values that are possible. -/
def reading (settings : Settings) {read : Value → Prop} (hplain : ∀ tree, read tree → tree.Plain) :
    Discipline settings settings where
  code _ t := ∃ tree, read tree ∧ t.Part tree
  data v := v.Possible read fun _ => True
  shared _ _ := true
  sameDepth := settings.maxDepth_refl
  elements h t ht := by
    obtain ⟨tree, htree, hpart⟩ := h
    exact ⟨tree, htree, .trans (.of_mem ht) hpart⟩
  constant h _ := by
    obtain ⟨tree, htree, hpart⟩ := h
    exact .of_plain htree hpart ((hplain tree htree).part hpart)
  quoted {_ t surplus} h := by
    obtain ⟨tree, htree, hpart⟩ := h
    have hpart : t.Part tree := .trans (.of_mem (by simp)) hpart
    exact .of_plain htree hpart ((hplain tree htree).part hpart)
  assigned {_ name e surplus} h := by
    obtain ⟨tree, htree, hpart⟩ := h
    exact ⟨rfl, tree, htree, .trans (.of_mem (by simp)) hpart⟩
  lambda id h := by
    obtain ⟨tree, htree, hpart⟩ := h
    exact .closure htree hpart trivial
  body _ h := by
    cases h with
    | closure htree hpart _ => exact ⟨_, htree, .trans (.of_mem (by simp)) hpart⟩
  nil := .nil
  result _ hresult := Primitive.result?_possible hresult
  named _ _ := rfl

variable {settings : Settings} {room : Option Nat} {past : List (String × Machine)} {m : Machine}

theorem Session.binds_possible (h : Session settings room past m) :
    ∀ v, m.heap.Binds v → v.Possible (Read settings past) fun _ => True := by
  induction h with
  | start => exact fun v hv => Heap.initial_possible hv
  | @line past m text r _ hr _ ih =>
    subst hr
    have hplain (tree : Value) : Read settings ((text, m) :: past) tree → tree.Plain := Read.plain
    let D := reading settings hplain
    have hm : D.Alike m m := .refl fun v hv => (ih v hv).mono (fun _ => .cons _) fun _ _ _ _ _ => id
    have hcode (tree : Value) (hread : Line.Reads settings text m tree) : D.code Heap.globalScope tree :=
      ⟨tree, ⟨_, List.mem_cons_self, hread⟩, .refl⟩
    exact fun v hv => (D.run hcode hm).alike.data (fun _ _ => rfl) hv

/-- Every value in a session is possible. After the lines it is so of all that is bound; in the course
    of the next line it is so of all that an evaluation leaves bound and of the value that it gives,
    which is what is written. And whatever is read from the tokens of a text is a plain tree. -/
theorem session_values (h : Session settings room past m) :
    (∀ v, m.heap.Binds v → v.Possible (Session.Read settings past) (Session.Home settings past)) ∧
    (∀ text cs t r, Operation.Runs settings m (.line text) cs t →
      Evaluates settings t.tree t.scope t.machine r →
        let possible := Value.Possible (Session.Read settings ((text, m) :: past))
          (Session.Home settings ((text, m) :: past))
        (∀ v, r.machine.heap.Binds v → possible v) ∧ ∀ v m', r = .ok v m' → possible v) ∧
    ∀ (text : String) (r : Reader) (tree : Value), r.remaining <:+ Token.scan text → r.read.1 = .ok tree →
      tree.Plain := by
  have hm := h.reachable.wellFormed
  refine ⟨fun v hv => ?_, fun text cs t r hruns he => ?_, fun text r tree hr hread => (Reader.read_plain hr hread).1⟩
  · obtain ⟨id, f, name, hf, hb⟩ := hv
    exact (h.binds_possible v ⟨id, f, name, hf, hb⟩).within (hm.within hf hb) h.home
  · intro possible
    have hplain (tree : Value) : Session.Read settings ((text, m) :: past) tree → tree.Plain := Session.Read.plain
    let D := reading settings hplain
    have halike : D.Alike m m :=
      .refl fun v hv => (h.binds_possible v hv).mono (fun _ => .cons _) fun _ _ _ _ _ => id
    have hcode (tree : Value) (hread : Line.Reads settings text m tree) : D.code Heap.globalScope tree :=
      ⟨tree, ⟨_, List.mem_cons_self, hread⟩, .refl⟩
    have hkeeps := Discipline.keeps_of_runs hcode halike hruns
    obtain ⟨hr, hvalue⟩ := Discipline.evaluates hkeeps.code hkeeps.alike he
    have hhome : ∀ scope < r.machine.heap.frames.size, Session.Home settings ((text, m) :: past) scope :=
      fun scope => Session.home_of_leads h.home (hruns.leads.trans (hruns.leads_around he.leads))
    have hvalid := hruns.valid hm (.line text)
    have hsound : r.Sound t.machine.heap.frames.size := by
      obtain ⟨⟨n, rfl⟩, -⟩ := he
      exact evaluateWithin_sound hvalid.wellFormed n hvalid.tree hvalid.scope
    refine ⟨fun v hv => ?_, fun v m' heq => ?_⟩
    · have hv' := hr.data (fun _ _ => rfl) hv
      obtain ⟨id, f, name, hf, hb⟩ := hv
      exact Value.Possible.within hv' (hsound.wellFormed.within hf hb) hhome
    · subst heq
      exact Value.Possible.within (hvalue v m' rfl) (hsound.value rfl) hhome

/-- After a line that defines a procedure, this is the closure of the form in the line. -/
theorem session_values_defined :
    ∃ m, Session ⟨true, some 1⟩ none [("(define f (lambda (x) x))", .initial none)] m ∧
      m.heap.Binds (.closure 0 ["x"] (.symbol "x") 0) ∧
        (Value.closure 0 ["x"] (.symbol "x") 0).Possible
          (Session.Read ⟨true, some 1⟩ [("(define f (lambda (x) x))", .initial none)])
          (Session.Home ⟨true, some 1⟩ [("(define f (lambda (x) x))", .initial none)]) := by
  have hrun (global : Frame) :
      Line.run ⟨true, some 1⟩ "(define f (lambda (x) x))" ⟨⟨#[global], 0⟩, 0, .empty none, #[]⟩ =
        .ok () ⟨⟨#[global.define "f" (.closure 0 ["x"] (.symbol "x") 0)], 1⟩, 0,
          ⟨#["[(, define, f, (, lambda, (, x, ), x, ), )]", "(define f (lambda (x) x))", "#<lambda (x)>"], none⟩,
          #[.tokensRead 11]⟩ := by cbv
  have hsession : Session ⟨true, some 1⟩ none _ _ := .line .start (hrun .global) trivial
  have hbinds : Heap.Binds ⟨#[Frame.global.define "f" (.closure 0 ["x"] (.symbol "x") 0)], 1⟩
      (.closure 0 ["x"] (.symbol "x") 0) := ⟨0, _, "f", rfl, List.mem_cons_self⟩
  exact ⟨_, hsession, hbinds, (session_values hsession).1 _ hbinds⟩

end LineLisp
