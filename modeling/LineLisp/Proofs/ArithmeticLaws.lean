/-
  LineLisp.Proofs.ArithmeticLaws — which laws of arithmetic the widths leave standing. Sums and
  products commute at every width. Those of ints and longs also associate, and products distribute
  over sums, although a long is cut to 32 bits when it meets an int and results wrap around: one int
  among the operands makes an int of the whole, and it does not matter when a long is cut.
  - `Whole.combine_residue`: operations on ints and longs are the exact ones, cut to the width that
    the operands have together.
  - `Value.Combines.evaluates`: what a program makes of many ints and longs with one primitive.
  - `arithmetic_laws`: the laws, and that no program can tell in which order it has combined ints
    and longs.
  - `Whole.narrow_not_assoc`: beside bytes and shorts the place of a long matters.
-/

import LineLisp.Proofs.ExactArithmetic
import LineLisp.Proofs.Provenance
import LineLisp.Proofs.Succession

namespace LineLisp

/-! ## Numbers of every width -/

namespace BinaryFloat

variable {f : FloatFormat}

theorem add_comm (x y : BinaryFloat f) : x.add y = y.add x := by
  cases x with
  | nan => cases y <;> rfl
  | infinite s =>
    cases y with
    | nan => rfl
    | infinite t =>
      by_cases h : s = t
      · simp [add, h]
      · simp [add, h, Ne.symm h]
    | finite t n k hk => rfl
  | finite s m e he =>
    cases y with
    | nan => rfl
    | infinite t => rfl
    | finite t n k hk =>
      show ofRat _ _ = ofRat _ _
      rw [Bool.and_comm, Rat.add_comm]

theorem mul_comm (x y : BinaryFloat f) : x.mul y = y.mul x := by
  have hsign (s t : Bool) : (s != t) = (t != s) := by cases s <;> cases t <;> rfl
  cases x with
  | nan => cases y <;> rfl
  | infinite s =>
    cases y with
    | nan => rfl
    | infinite t => simp only [mul, hsign s t]
    | finite t n k hk => simp only [mul, hsign s t]
  | finite s m e he =>
    cases y with
    | nan => rfl
    | infinite t => simp only [mul, hsign s t]
    | finite t n k hk =>
      show ofRat _ _ = ofRat _ _
      rw [hsign s t, Rat.mul_comm]

end BinaryFloat

theorem Whole.combine_comm {narrow : Int32 → Int32 → Int32} {wide : Int64 → Int64 → Int64}
    (hnarrow : ∀ m n, narrow m n = narrow n m) (hwide : ∀ m n, wide m n = wide n m) (a b : Whole) :
    combine narrow wide a b = combine narrow wide b a := by
  have huses : usesLong a b = usesLong b a := by
    rw [Bool.eq_iff_iff, usesLong_iff, usesLong_iff, or_comm, or_comm (a := a.kind = .long)]
  unfold combine
  rw [huses, hnarrow, hwide]

namespace Number

theorem combine_comm {onWhole : Whole → Whole → Whole} {onSingle : Single → Single → Single}
    {onDouble : Double → Double → Double} (hwhole : ∀ a b, onWhole a b = onWhole b a)
    (hsingle : ∀ x y, onSingle x y = onSingle y x) (hdouble : ∀ x y, onDouble x y = onDouble y x) (m n : Number) :
    combine onWhole onSingle onDouble m n = combine onWhole onSingle onDouble n m := by
  cases m with
  | whole a =>
    cases n with
    | whole b => exact congrArg whole (hwhole a b)
    | float y => exact congrArg float (hsingle _ _)
    | double y => exact congrArg double (hdouble _ _)
  | float x =>
    cases n with
    | whole b => exact congrArg float (hsingle _ _)
    | float y => exact congrArg float (hsingle _ _)
    | double y => exact congrArg double (hdouble _ _)
  | double x => cases n <;> exact congrArg double (hdouble _ _)

theorem add_comm (m n : Number) : m.add n = n.add m :=
  combine_comm (Whole.combine_comm Int32.add_comm Int64.add_comm) BinaryFloat.add_comm BinaryFloat.add_comm m n

theorem mul_comm (m n : Number) : m.mul n = n.mul m :=
  combine_comm (Whole.combine_comm Int32.mul_comm Int64.mul_comm) BinaryFloat.mul_comm BinaryFloat.mul_comm m n

end Number

/-! ## Ints and longs -/

namespace Whole

/-- The int or the long that is congruent to an integer. -/
def residue (isInt : Bool) (n : Int) : Whole := if isInt then int (.ofInt n) else long (.ofInt n)

/-- Whether it has 32 bits. -/
def isInt (a : Whole) : Bool := a.kind = .int

theorem eq_residue {a : Whole} (h : a.kind = .int ∨ a.kind = .long) : a = residue a.isInt a.toInt := by
  cases a with
  | int n => simp [residue, isInt, kind, toInt]
  | long n => simp [residue, isInt, kind, toInt]
  | byte n => simp [kind] at h
  | short n => simp [kind] at h

/-- It does not matter whether a long is cut before an operation or after it. -/
theorem combine_residue {op : Int → Int → Int} {narrow : Int32 → Int32 → Int32} {wide : Int64 → Int64 → Int64}
    (h : WordOperation op narrow wide) (i j : Bool) (m n : Int) :
    combine narrow wide (residue i m) (residue j n) = residue (i || j) (op m n) := by
  cases i with
  | true =>
    cases j with
    | true => exact congrArg int (h.narrow_ofInt m n)
    | false =>
      show int (narrow (.ofInt m) (Int64.ofInt n).toInt32) = int (.ofInt (op m n))
      rw [Int64.toInt32_ofInt, h.narrow_ofInt]
  | false =>
    cases j with
    | true =>
      show int (narrow (Int64.ofInt m).toInt32 (.ofInt n)) = int (.ofInt (op m n))
      rw [Int64.toInt32_ofInt, h.narrow_ofInt]
    | false => exact congrArg long (h.wide_ofInt m n)

/-- Of two bytes or shorts and a long the order decides the width: the narrow ones make an int, which
    cuts the long, or are widened by it one after the other. -/
theorem narrow_not_assoc (narrow : Int32 → Int32 → Int32) (wide : Int64 → Int64 → Int64) {a b : Whole}
    (ha : ¬ (a.kind = .int ∨ a.kind = .long)) (hb : ¬ (b.kind = .int ∨ b.kind = .long)) (n : Int64) :
    (combine narrow wide (combine narrow wide a b) (long n)).kind = .int ∧
      (combine narrow wide a (combine narrow wide b (long n))).kind = .long := by
  obtain ⟨haint, halong⟩ := not_or.mp ha
  obtain ⟨hbint, hblong⟩ := not_or.mp hb
  have hn : (long n).kind = .long := rfl
  constructor
  · simp [kind_combine, usesLong, halong, hblong]
  · simp [kind_combine, usesLong, haint, hbint, hn]

theorem add_residue (i j : Bool) (m n : Int) : add (residue i m) (residue j n) = residue (i || j) (m + n) :=
  combine_residue wordOperation_add i j m n

theorem mul_residue (i j : Bool) (m n : Int) : mul (residue i m) (residue j n) = residue (i || j) (m * n) :=
  combine_residue wordOperation_mul i j m n

end Whole

namespace Number

theorem exists_residue {n : Number} (h : n.kind = .int ∨ n.kind = .long) : ∃ i k, n = whole (.residue i k) := by
  cases n with
  | whole a => exact ⟨_, _, congrArg whole (Whole.eq_residue h)⟩
  | float x => simp [kind] at h
  | double x => simp [kind] at h

theorem add_whole (a b : Whole) : add (whole a) (whole b) = whole (a.add b) := rfl

theorem mul_whole (a b : Whole) : mul (whole a) (whole b) = whole (a.mul b) := rfl

/-- The laws of a commutative ring without its constants, for numbers of two widths. -/
structure Lawful (a b c : Number) : Prop where
  add_assoc : (a.add b).add c = a.add (b.add c)
  mul_assoc : (a.mul b).mul c = a.mul (b.mul c)
  mul_add : a.mul (b.add c) = (a.mul b).add (a.mul c)

theorem lawful {a b c : Number} (ha : a.kind = .int ∨ a.kind = .long) (hb : b.kind = .int ∨ b.kind = .long)
    (hc : c.kind = .int ∨ c.kind = .long) : Lawful a b c := by
  obtain ⟨i, k, rfl⟩ := exists_residue ha
  obtain ⟨j, l, rfl⟩ := exists_residue hb
  obtain ⟨i', m, rfl⟩ := exists_residue hc
  constructor
  case add_assoc => simp only [add_whole, Whole.add_residue, Bool.or_assoc, Int.add_assoc]
  case mul_assoc => simp only [mul_whole, Whole.mul_residue, Bool.or_assoc, Int.mul_assoc]
  case mul_add =>
    have hwidth : (i || (j || i')) = ((i || j) || (i || i')) := by cases i <;> rfl
    simp only [add_whole, mul_whole, Whole.add_residue, Whole.mul_residue, Int.mul_add, hwidth]

end Number

/-! ## Programs -/

/-- The tree applies the name to two operands at a time; at its ends it has these trees, in the order in
    which they are evaluated. -/
inductive Value.Combines (name : String) : Value → List Value → Prop
  | leaf (t : Value) : Combines name t [t]
  | node {t u : Value} {ts us : List Value} : Combines name t ts → Combines name u us →
      Combines name (.list [.symbol name, t, u]) (ts ++ us)

/-- What a primitive makes of many integers, if it takes two at a time in whatever order. -/
structure Primitive.Totals (p : Primitive) (total : List Int → Int) : Prop where
  singleton (n : Int) : total [n] = n
  perm {ms ns : List Int} : ms.Perm ns → total ms = total ns
  result (i j : Bool) (ms ns : List Int) :
    p.result? [.number (.whole (.residue i (total ms))), .number (.whole (.residue j (total ns)))] =
      some (.ok (.number (.whole (.residue (i || j) (total (ms ++ ns))))))

namespace Primitive

theorem totals_add : Totals .add List.sum where
  singleton n := List.sum_singleton
  perm h := h.sum_eq
  result i j ms ns := by
    show some (Except.ok (Value.number (.whole (Whole.add _ _)))) = _
    rw [Whole.add_residue, List.sum_append]

theorem totals_multiply : Totals .multiply List.prod where
  singleton n := List.prod_singleton
  perm h := h.prod_eq
  result i j ms ns := by
    show some (Except.ok (Value.number (.whole (Whole.mul _ _)))) = _
    rw [Whole.mul_residue, List.prod_append]

end Primitive

variable {settings : Settings} {scope : ScopeId} {m m' : Machine}

abbrev Value.ofWhole (a : Whole) : Value := .number (.whole a)

/-- The sum or the product of whole numbers: an int if one of them is one, and the exact one modulo 2^32
    then, modulo 2^64 otherwise. -/
def Whole.total (total : List Int → Int) (as : List Whole) : Whole :=
  residue (as.any isInt) (total (as.map toInt))

/-- Whenever one of the trees begins to be evaluated after the others before it, the name is bound to the
    primitive. -/
def Primitive.StaysBound (settings : Settings) (p : Primitive) (name : String) (scope : ScopeId) (trees : List Value)
    (m : Machine) : Prop :=
  ∀ before e after vs m', trees = before ++ e :: after → EvaluatesAll settings scope before m vs m' →
    m'.heap.get? scope name = some (.primitive p)

namespace Primitive.StaysBound

variable {p : Primitive} {name : String} {trees trees' : List Value}

theorem left (h : p.StaysBound settings name scope (trees ++ trees') m) :
    p.StaysBound settings name scope trees m := by
  intro before e after vs m' htrees hbefore
  exact h before e (after ++ trees') vs m' (by rw [htrees, List.append_assoc, List.cons_append]) hbefore

theorem right (h : p.StaysBound settings name scope (trees ++ trees') m) {vs : List Value}
    (hall : EvaluatesAll settings scope trees m vs m') : p.StaysBound settings name scope trees' m' := by
  intro before e after ws m'' htrees hbefore
  exact h (trees ++ before) e after (vs ++ ws) m'' (by rw [htrees, List.append_assoc]) (hall.append hbefore)

/-- Trees that change nothing leave the name as it is. -/
theorem of_unchanged (hbound : m.heap.get? scope name = some (.primitive p))
    (h : ∀ e ∈ trees, ∃ v, Evaluates settings e scope m (.ok v m)) : p.StaysBound settings name scope trees m := by
  intro before e after vs m' htrees hbefore
  have hsame : ∀ e ∈ before, ∃ v, Evaluates settings e scope m (.ok v m) :=
    fun e he => h e (htrees ▸ List.mem_append_left _ he)
  have heq : m' = m := by
    clear htrees
    induction hbefore with
    | nil => rfl
    | cons he _ ih =>
      obtain ⟨v, hv⟩ := hsame _ List.mem_cons_self
      cases he.unique hv
      exact ih hbound h fun e he => hsame e (List.mem_cons_of_mem _ he)
  rw [heq, hbound]

end Primitive.StaysBound

theorem Value.Combines.ne_nil {name : String} {t : Value} {ts : List Value} (h : t.Combines name ts) : ts ≠ [] := by
  induction h with
  | leaf t => exact List.cons_ne_nil t []
  | node _ _ iht _ => exact fun hnil => iht (List.append_eq_nil_iff.mp hnil).1

/-- To combine ints and longs is to take their sum or their product, whatever the parentheses. -/
theorem Value.Combines.evaluates {name : String} {p : Primitive} {total : List Int → Int} (hp : p.Totals total)
    (hname : Keyword.ofName? name = none) {t : Value} {ts : List Value} (h : t.Combines name ts) {as : List Whole}
    (hstays : p.StaysBound settings name scope ts m) (hall : EvaluatesAll settings scope ts m (as.map .ofWhole) m')
    (hkind : ∀ a ∈ as, a.kind = .int ∨ a.kind = .long) :
    Evaluates settings t scope m (.ok (.ofWhole (.total total as)) m') := by
  induction h generalizing m m' as with
  | leaf t =>
    cases as with
    | nil => cases hall
    | cons a as =>
      obtain ⟨he, hrest⟩ : Evaluates settings t scope m (.ok (.ofWhole a) m') ∧ as = [] := by
        cases hall with
        | cons he hrest =>
          cases as with
          | nil =>
            cases hrest
            exact ⟨he, rfl⟩
          | cons b as => cases hrest
      subst hrest
      have htotal : Whole.total total [a] = a := by
        rw [Whole.total, List.map_singleton, hp.singleton, List.any_cons, List.any_nil, Bool.or_false]
        exact (Whole.eq_residue (hkind a List.mem_cons_self)).symm
      rw [htotal]
      exact he
  | @node t u ts us hts hus iht ihu =>
    obtain ⟨vs, ws, m₁, hallt, hallu⟩ := hall.of_append
    obtain ⟨heq, -⟩ := (hallt.append hallu).unique hall
    obtain ⟨as, bs, rfl, rfl, rfl⟩ := List.map_eq_append_iff.mp heq.symm
    have ht := iht hstays.left hallt fun a ha => hkind a (List.mem_append_left bs ha)
    have hu := ihu (hstays.right hallt) hallu fun a ha => hkind a (List.mem_append_right as ha)
    -- The name is looked up before the first of the trees is evaluated.
    obtain ⟨e, rest, hfirst⟩ := List.exists_cons_of_ne_nil (Value.Combines.node hts hus).ne_nil
    have hbound := hstays [] e rest [] m hfirst (.nil m)
    have hresult := hp.result (as.any Whole.isInt) (bs.any Whole.isInt) (as.map Whole.toInt) (bs.map Whole.toInt)
    rw [← List.any_append, ← List.map_append] at hresult
    have hoperands : BigStepAll settings [t, u] scope m (.ok [_, _]) m' :=
      .cons (r := .ok [_]) ht.bigStep (.cons (r := .ok []) hu.bigStep .nil)
    have happlied := BigStep.application hname hoperands (p := .primitive p) (by rw [hbound]; rfl) (.primitive hresult)
    exact happlied.eventually.ends

theorem Whole.total_perm {p : Primitive} {total : List Int → Int} (hp : p.Totals total) {as bs : List Whole}
    (h : as.Perm bs) : Whole.total total as = Whole.total total bs := by
  rw [Whole.total, Whole.total, h.any_eq, hp.perm (h.map Whole.toInt)]

/-! ## Sessions -/

theorem Discipline.code_of_combines (D : Discipline settings settings) {name : String} {t : Value} {ts : List Value}
    (h : t.Combines name ts) (ht : D.code scope t) : ∀ e ∈ ts, D.code scope e := by
  induction h with
  | leaf t => simpa using ht
  | node _ _ iht ihu =>
    have hparts := D.elements ht
    intro e he
    rcases List.mem_append.mp he with he | he
    · exact iht (hparts _ (by simp)) e he
    · exact ihu (hparts _ (by simp)) e he

variable {room : Option Nat} {past : List (String × Machine)}

/-- The whole numbers of a session are ints and longs. -/
theorem Session.kind_of_whole (h : Session settings room past m) {text : String} {cs : List Call} {name : String}
    {t : Value} {ts : List Value} {m₁ m₂ : Machine}
    (hruns : Operation.Runs settings m (.line text) cs ⟨t, scope, m₁⟩) (ht : t.Combines name ts) {as : List Whole}
    (hall : EvaluatesAll settings scope ts m₁ (as.map .ofWhole) m₂) : ∀ a ∈ as, a.kind = .int ∨ a.kind = .long := by
  have hplain (tree : Value) : Read settings ((text, m) :: past) tree → tree.Plain := Read.plain
  let D := reading settings hplain
  have halike : D.Alike m m :=
    .refl fun v hv => (h.binds_possible v hv).mono (fun _ => .cons _) fun _ _ _ _ _ => id
  have hcode (tree : Value) (hread : Line.Reads settings text m tree) : D.code Heap.globalScope tree :=
    ⟨tree, ⟨_, List.mem_cons_self, hread⟩, .refl⟩
  have hkeeps := Discipline.keeps_of_runs hcode halike hruns
  intro a ha
  have hvalues := (Discipline.evaluatesAll (D.code_of_combines ht hkeeps.code) hkeeps.alike hall).2
  have hvalue := hvalues (.ofWhole a) (List.mem_map_of_mem ha)
  cases hvalue with
  | number hkind => cases a <;> simp [Number.kind, Whole.kind] at hkind ⊢

/-- What combining numbers does not depend on. -/
structure Session.OrderFree (settings : Settings) (room : Option Nat) : Prop where
  /-- Wherever in a session a tree adds or multiplies what other trees give, and these give whole numbers, it
      evaluates to the same number as any tree that adds or multiplies the same numbers there, with
      whatever parentheses and in whatever order. What else is done is done by the trees that give them. -/
  evaluates {past : List (String × Machine)} {m m₁ m₂ m₃ : Machine} {text name : String} {cs : List Call}
    {p : Primitive} {t u : Value} {ts us : List Value} {scope : ScopeId} {as bs : List Whole} :
      Session settings room past m → Operation.Runs settings m (.line text) cs ⟨t, scope, m₁⟩ →
        p = .add ∨ p = .multiply → Keyword.ofName? name = none → t.Combines name ts → u.Combines name us →
          p.StaysBound settings name scope ts m₁ → p.StaysBound settings name scope us m₁ →
            EvaluatesAll settings scope ts m₁ (as.map .ofWhole) m₂ →
              EvaluatesAll settings scope us m₁ (bs.map .ofWhole) m₃ → as.Perm bs →
                ∃ a : Whole, Evaluates settings t scope m₁ (.ok (.ofWhole a) m₂) ∧
                  Evaluates settings u scope m₁ (.ok (.ofWhole a) m₃)

theorem Session.orderFree (settings : Settings) (room : Option Nat) : OrderFree settings room := by
  constructor
  intro past m m₁ m₂ m₃ text name cs p t u ts us scope as bs hsession hruns hp hname ht hu hboundt hboundu hallt hallu
    hperm
  have hkind : ∀ a ∈ as, a.kind = .int ∨ a.kind = .long := hsession.kind_of_whole hruns ht hallt
  have hkind' : ∀ b ∈ bs, b.kind = .int ∨ b.kind = .long := fun b hb => hkind b (hperm.mem_iff.mpr hb)
  obtain ⟨total, htotal⟩ : ∃ total, p.Totals total := by
    rcases hp with rfl | rfl
    · exact ⟨_, Primitive.totals_add⟩
    · exact ⟨_, Primitive.totals_multiply⟩
  refine ⟨.total total as, ht.evaluates htotal hname hboundt hallt hkind, ?_⟩
  rw [Whole.total_perm htotal hperm]
  exact hu.evaluates htotal hname hboundu hallu hkind'

/-- Sums and products commute at all widths. For ints and longs in any mixture they associate, and
    products distribute over sums; no session can tell in which order it combines whole numbers. -/
theorem arithmetic_laws :
    (∀ m n : Number, m.add n = n.add m ∧ m.mul n = n.mul m) ∧
    (∀ a b c : Number, a.kind = .int ∨ a.kind = .long → b.kind = .int ∨ b.kind = .long →
      c.kind = .int ∨ c.kind = .long → Number.Lawful a b c) ∧
    ∀ settings room, Session.OrderFree settings room :=
  ⟨fun m n => ⟨m.add_comm n, m.mul_comm n⟩, fun _ _ _ => Number.lawful, Session.orderFree⟩

/-- Two longs and an int beyond both bounds; and a line that adds a long to the sum of two ints, beside
    the tree that adds the first int last. -/
theorem arithmetic_laws_crossing :
    Number.Lawful (.whole (.long 4294967296)) (.int 2147483647) (.whole (.long .maxValue)) ∧
    ∃ (m : Machine) (a : Whole),
      Operation.Runs .standard (.initial none) (.line "(+ (abs -2147483648) (+ 1 2))") []
        ⟨.list [.symbol "+", .list [.symbol "abs", .int (-2147483648)], .list [.symbol "+", .int 1, .int 2]],
          Heap.globalScope, m⟩ ∧
      Evaluates .standard
        (.list [.symbol "+", .list [.symbol "abs", .int (-2147483648)], .list [.symbol "+", .int 1, .int 2]])
        Heap.globalScope m (.ok (.number (.whole a)) m) ∧
      Evaluates .standard
        (.list [.symbol "+", .list [.symbol "+", .int 2, .list [.symbol "abs", .int (-2147483648)]], .int 1])
        Heap.globalScope m (.ok (.number (.whole a)) m) := by
  obtain ⟨-, hlawful, hfree⟩ := arithmetic_laws
  refine ⟨hlawful _ _ _ (.inr rfl) (.inl rfl) (.inr rfl), ?_⟩
  have hread : (Reader.ofTokens (Token.scan "(+ (abs -2147483648) (+ 1 2))")).read.1 = .ok (.list [.symbol "+",
      .list [.symbol "abs", .int (-2147483648)], .list [.symbol "+", .int 1, .int 2]]) := by cbv
  have hreach : Line.Reaches .standard "(+ (abs -2147483648) (+ 1 2))" (.initial none) _ _ :=
    .start (Eval.emit_of_room rfl _)
  obtain ⟨m, hm, hruns⟩ : ∃ m : Machine, m.heap = .initial ∧
      Operation.Runs .standard (.initial none) (.line "(+ (abs -2147483648) (+ 1 2))") []
        ⟨.list [.symbol "+", .list [.symbol "abs", .int (-2147483648)], .list [.symbol "+", .int 1, .int 2]],
          Heap.globalScope, m⟩ := ⟨_, rfl, .line (.tree hreach hread (Eval.emit_of_room rfl _)) .start⟩
  have hlookup (name : String) : m.heap.get? Heap.globalScope name = Frame.global.get? name := by
    rw [hm, Heap.WellFormed.initial.linked.get?_eq name rfl]
    exact Option.or_none
  have hint (n : Int32) : Evaluates .standard (.int n) Heap.globalScope m (.ok (.int n) m) :=
    BigStep.number.eventually.ends
  have hlong : Evaluates .standard (.list [.symbol "abs", .int (-2147483648)]) Heap.globalScope m
      (.ok (.ofWhole (.long 2147483648)) m) := by
    have habs : m.heap.get? Heap.globalScope "abs" = some (.primitive .abs) := (hlookup "abs").trans rfl
    have hall : BigStepAll .standard [.int (-2147483648)] Heap.globalScope m (.ok [_]) m :=
      .cons (r := .ok []) .number .nil
    exact (BigStep.application rfl hall (p := .primitive .abs) (by rw [habs]; rfl) (.primitive rfl)).eventually.ends
  have hadd : m.heap.get? Heap.globalScope "+" = some (.primitive .add) := (hlookup "+").trans rfl
  have hstays {trees : List Value} (h : ∀ e ∈ trees, e = .list [.symbol "abs", .int (-2147483648)] ∨ e = .int 1 ∨
      e = .int 2) : Primitive.StaysBound .standard .add "+" Heap.globalScope trees m := by
    refine .of_unchanged hadd fun e he => ?_
    rcases h e he with rfl | rfl | rfl
    · exact ⟨_, hlong⟩
    · exact ⟨_, hint 1⟩
    · exact ⟨_, hint 2⟩
  have hleft : Value.Combines "+" (.list [.symbol "+", .list [.symbol "abs", .int (-2147483648)],
      .list [.symbol "+", .int 1, .int 2]]) [.list [.symbol "abs", .int (-2147483648)], .int 1, .int 2] :=
    .node (.leaf _) (.node (.leaf _) (.leaf _))
  have hright : Value.Combines "+"
      (.list [.symbol "+", .list [.symbol "+", .int 2, .list [.symbol "abs", .int (-2147483648)]], .int 1])
      [.int 2, .list [.symbol "abs", .int (-2147483648)], .int 1] :=
    .node (.node (.leaf _) (.leaf _)) (.leaf _)
  have hallleft : EvaluatesAll .standard Heap.globalScope _ m ([.long 2147483648, .int 1, .int 2].map .ofWhole) m :=
    .cons hlong (.cons (hint 1) (.cons (hint 2) (.nil m)))
  have hallright : EvaluatesAll .standard Heap.globalScope _ m ([.int 2, .long 2147483648, .int 1].map .ofWhole) m :=
    .cons (hint 2) (.cons hlong (.cons (hint 1) (.nil m)))
  obtain ⟨a, ha, ha'⟩ := (hfree .standard none).evaluates .start hruns (.inl rfl) rfl hleft hright
    (hstays (by simp)) (hstays (by simp)) hallleft hallright (List.perm_append_singleton _ [_, _])
  exact ⟨m, a, hruns, ha, ha'⟩

end LineLisp
