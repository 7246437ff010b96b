/-
  LineLisp.Proofs.Equality — equality of values. Numbers are compared as numbers of one width, so that
  what is not a number equals nothing and the two zeros of a format are equal; primitives are compared
  by arity and name, closures by identity and lists by their elements, to any depth.
  - `BinaryFloat.equal_iff`, `Number.equal_iff`: equal numbers are the same, or two zeros of one format.
  - `Value.equal_iff`: one step of the comparison, by which the rest goes by induction.
  - `Value.equal_symm`, `Value.equal_trans`, `Value.equal_self_iff`: a partial equivalence.
  - `Text.DivergeIf`: texts that are the same, or differ at the first place where anything in them does.
    So are the texts of equal values, which differ where zeros do in their signs (`Value.text_of_equal`).
-/

import LineLisp.Proofs.Identity
import LineLisp.Proofs.Magnitude

namespace LineLisp

/-! ## Floats and doubles -/

namespace BinaryFloat

variable {f : FloatFormat} {x y : BinaryFloat f}

/-- Equal numbers are the same one, or zeros. -/
theorem equal_iff : x.equal y = true ↔ x = y ∧ x.isNaN = false ∨ x.isZero = true ∧ y.isZero = true := by
  cases x with
  | nan => simp [equal, isNaN, isZero]
  | infinite s => cases y <;> simp [equal, isNaN, isZero]
  | finite s m e h =>
    cases y with
    | nan => simp [equal, isZero]
    | infinite t => simp [equal, isZero]
    | finite t n k h' =>
      simp only [equal, isNaN, isZero, finite.injEq, Bool.and_eq_true, Bool.or_eq_true, decide_eq_true_eq]
      grind

theorem text_of_isZero (h : x.isZero) : x.text = if x.isNegative then "-0.0" else "0.0" := by
  cases x with
  | nan => cases h
  | infinite s => cases h
  | finite s m e hc =>
    have hm : m = 0 := of_decide_eq_true h
    cases s <;> simp [text, magnitudeText, isNegative, hm]

end BinaryFloat

/-! ## Numbers -/

namespace Number

/-- Two zeros of one format, each of either sign. -/
inductive Zeros : Number → Number → Prop
  | float {x y : Single} : x.isZero → y.isZero → Zeros (.float x) (.float y)
  | double {x y : Double} : x.isZero → y.isZero → Zeros (.double x) (.double y)

variable {m n k : Number}

theorem Zeros.symm (h : m.Zeros n) : n.Zeros m := by
  cases h with
  | float hx hy => exact .float hy hx
  | double hx hy => exact .double hy hx

theorem Zeros.trans (h : m.Zeros n) (h' : n.Zeros k) : m.Zeros k := by
  cases h with
  | float hx _ => cases h' with
    | float _ hz => exact .float hx hz
  | double hx _ => cases h' with
    | double _ hz => exact .double hx hz

theorem Zeros.text_eq (h : m.Zeros n) : m.text = if m.isNegative then "-0.0" else "0.0" := by
  cases h with
  | float hx _ => exact BinaryFloat.text_of_isZero hx
  | double hx _ => exact BinaryFloat.text_of_isZero hx

theorem equal_iff : m.equal n = true ↔ m = n ∧ m.isNaN = false ∨ m.Zeros n := by
  constructor
  · intro h
    cases m <;> cases n <;> simp only [equal, decide_eq_true_eq, Bool.false_eq_true] at h
    · exact .inl ⟨congrArg _ h, rfl⟩
    · rcases BinaryFloat.equal_iff.mp h with ⟨rfl, hx⟩ | ⟨hx, hy⟩
      · exact .inl ⟨rfl, hx⟩
      · exact .inr (.float hx hy)
    · rcases BinaryFloat.equal_iff.mp h with ⟨rfl, hx⟩ | ⟨hx, hy⟩
      · exact .inl ⟨rfl, hx⟩
      · exact .inr (.double hx hy)
  · rintro (⟨rfl, hm⟩ | h)
    · rw [equal_self, hm]
      rfl
    · cases h with
      | float hx hy => exact BinaryFloat.equal_iff.mpr (.inr ⟨hx, hy⟩)
      | double hx hy => exact BinaryFloat.equal_iff.mpr (.inr ⟨hx, hy⟩)

theorem equal_symm (h : m.equal n = true) : n.equal m = true := by
  rcases equal_iff.mp h with ⟨rfl, hm⟩ | h
  · exact equal_iff.mpr (.inl ⟨rfl, hm⟩)
  · exact equal_iff.mpr (.inr h.symm)

theorem equal_trans (h : m.equal n = true) (h' : n.equal k = true) : m.equal k = true := by
  rcases equal_iff.mp h with ⟨rfl, -⟩ | h
  · exact h'
  · rcases equal_iff.mp h' with ⟨rfl, -⟩ | h'
    · exact equal_iff.mpr (.inr h)
    · exact equal_iff.mpr (.inr (h.trans h'))

theorem kind_of_equal (h : m.equal n = true) : m.kind = n.kind := by
  rcases equal_iff.mp h with ⟨rfl, -⟩ | h
  · rfl
  · cases h <;> rfl

end Number

/-! ## Values -/

theorem Primitive.name_injective {p q : Primitive} (h : p.name = q.name) : p = q := by
  revert h
  cases p <;> cases q <;> decide

namespace Value

/-- Values that are equal as far as this step goes, if the elements of lists are. -/
inductive EqualStep (R : Value → Value → Prop) : Value → Value → Prop
  | number {m n : Number} : m.equal n = true → EqualStep R (.number m) (.number n)
  | symbol (name : String) : EqualStep R (.symbol name) (.symbol name)
  | list {vs ws : List Value} : List.Forall₂ R vs ws → EqualStep R (.list vs) (.list ws)
  | primitive (p : Primitive) : EqualStep R (.primitive p) (.primitive p)
  | closure (id : ClosureId) (params params' : List String) (body body' : Value) (scope scope' : ScopeId) :
      EqualStep R (.closure id params body scope) (.closure id params' body' scope')
  | nil : EqualStep R .nil .nil

variable {a b c : Value}

theorem equalAll_iff {vs ws : List Value} :
    equalAll vs ws = true ↔ List.Forall₂ (fun v w => v.equal w = true) vs ws := by
  induction vs generalizing ws with
  | nil => cases ws <;> simp [equalAll]
  | cons v vs ih => cases ws <;> simp [equalAll, ih]

theorem equal_iff : a.equal b = true ↔ EqualStep (fun v w => v.equal w = true) a b := by
  constructor
  · intro h
    unfold equal at h
    split at h
    · exact .number h
    · exact of_decide_eq_true h ▸ .symbol _
    · exact .list (equalAll_iff.mp h)
    · next p q =>
      obtain ⟨-, hname⟩ := Bool.and_eq_true_iff.mp h
      obtain rfl := Primitive.name_injective (of_decide_eq_true hname)
      exact .primitive p
    · exact of_decide_eq_true h ▸ .closure _ _ _ _ _ _ _
    · exact .nil
    · cases h
  · intro h
    cases h with
    | number h => exact h
    | symbol name => simp [equal]
    | list h => simpa [equal] using equalAll_iff.mpr h
    | primitive p => simp [equal]
    | closure => simp [equal]
    | nil => simp [equal]

/-- Elements that are related at one place may be taken to be elements of their lists. -/
theorem forall₂_of_mem {R S : Value → Value → Prop} {vs ws : List Value} (h : List.Forall₂ R vs ws)
    (himp : ∀ v ∈ vs, ∀ w ∈ ws, R v w → S v w) : List.Forall₂ S vs ws := by
  induction h with
  | nil => exact .nil
  | cons hv _ ih =>
    exact .cons (himp _ List.mem_cons_self _ List.mem_cons_self hv)
      (ih fun v hv w hw => himp v (List.mem_cons_of_mem _ hv) w (List.mem_cons_of_mem _ hw))

theorem forall₂_trans_of_mem {R : Value → Value → Prop} {vs ws us : List Value} (h : List.Forall₂ R vs ws)
    (h' : List.Forall₂ R ws us) (htrans : ∀ v ∈ vs, ∀ w u, R v w → R w u → R v u) : List.Forall₂ R vs us := by
  induction h generalizing us with
  | nil => exact h'
  | cons hv _ ih =>
    cases h' with
    | cons hw hws =>
      exact .cons (htrans _ List.mem_cons_self _ _ hv hw) (ih hws fun v hv => htrans v (List.mem_cons_of_mem _ hv))

theorem equal_symm (h : a.equal b = true) : b.equal a = true := by
  induction a using Value.induction generalizing b with
  | list vs ih =>
    cases equal_iff.mp h with
    | list hvs =>
      have hflipped := forall₂_of_mem hvs fun v hv w _ => ih v hv (b := w)
      exact equal_iff.mpr (.list hflipped.flip)
  | number n =>
    cases equal_iff.mp h with
    | number h => exact equal_iff.mpr (.number (Number.equal_symm h))
  | symbol name =>
    cases equal_iff.mp h
    exact h
  | primitive p =>
    cases equal_iff.mp h
    exact h
  | closure id params body scope _ =>
    cases equal_iff.mp h
    exact equal_iff.mpr (.closure _ _ _ _ _ _ _)
  | nil =>
    cases equal_iff.mp h
    exact h

theorem equal_trans (h : a.equal b = true) (h' : b.equal c = true) : a.equal c = true := by
  induction a using Value.induction generalizing b c with
  | list vs ih =>
    cases equal_iff.mp h with
    | list hvs =>
      cases equal_iff.mp h' with
      | list hws => exact equal_iff.mpr (.list (forall₂_trans_of_mem hvs hws fun v hv w u => ih v hv))
  | number n =>
    cases equal_iff.mp h with
    | number h =>
      cases equal_iff.mp h' with
      | number h' => exact equal_iff.mpr (.number (Number.equal_trans h h'))
  | symbol name =>
    cases equal_iff.mp h
    exact h'
  | primitive p =>
    cases equal_iff.mp h
    exact h'
  | closure id params body scope _ =>
    cases equal_iff.mp h
    cases equal_iff.mp h'
    exact equal_iff.mpr (.closure _ _ _ _ _ _ _)
  | nil =>
    cases equal_iff.mp h
    exact h'

/-- A value is equal to itself unless it is not-a-number or has that in it. -/
theorem equal_self_iff (a : Value) : a.equal a = true ↔ ∀ n, (Value.number n).Part a → n.isNaN = false := by
  induction a using Value.induction with
  | list vs ih =>
    have hparts (n : Number) : (Value.number n).Part (.list vs) ↔ ∃ v ∈ vs, (Value.number n).Part v := by
      rw [part_list_iff]
      exact or_iff_right nofun
    have helements : (Value.list vs).equal (.list vs) = true ↔ ∀ v ∈ vs, v.equal v = true := by
      rw [equal]
      exact equalAll_iff.trans List.forall₂_same
    rw [helements]
    constructor
    · intro h n hn
      obtain ⟨v, hv, hpart⟩ := (hparts n).mp hn
      exact (ih v hv).mp (h v hv) n hpart
    · intro h v hv
      exact (ih v hv).mpr fun n hpart => h n ((hparts n).mpr ⟨v, hv, hpart⟩)
  | number n =>
    have hself : (Value.number n).equal (.number n) = !n.isNaN := n.equal_self
    rw [hself, Bool.not_eq_true']
    constructor
    · rintro h _ ⟨⟩
      exact h
    · exact fun h => h n .refl
  | symbol name => exact iff_of_true (equal_iff.mpr (.symbol name)) fun _ hpart => by cases hpart
  | primitive p => exact iff_of_true (equal_iff.mpr (.primitive p)) fun _ hpart => by cases hpart
  | closure => exact iff_of_true (equal_iff.mpr (.closure _ _ _ _ _ _ _)) fun _ hpart => by cases hpart
  | nil => exact iff_of_true (equal_iff.mpr .nil) fun _ hpart => by cases hpart

theorem kind_of_equal (h : a.equal b = true) : a.kind = b.kind := by
  cases equal_iff.mp h with
  | number h => exact Number.kind_of_equal h
  | _ => rfl

theorem isTrue_of_equal (h : a.equal b = true) : a.isTrue = b.isTrue := by
  cases equal_iff.mp h with
  | number h =>
    rcases Number.equal_iff.mp h with ⟨rfl, -⟩ | hzeros
    · rfl
    · cases hzeros <;> rfl
  | _ => rfl

/-- What is compared of a primitive is its arity and its name. -/
theorem primitive_equal_iff {p : Primitive} {v : Value} :
    (primitive p).equal v = true ↔ ∃ q, v = primitive q ∧ q.arity = p.arity ∧ q.name = p.name := by
  cases v with
  | primitive q =>
    rw [equal, Bool.and_eq_true, decide_eq_true_eq, decide_eq_true_eq]
    constructor
    · rintro ⟨harity, hname⟩
      exact ⟨q, rfl, harity.symm, hname.symm⟩
    · rintro ⟨_, ⟨⟩, harity, hname⟩
      exact ⟨harity.symm, hname.symm⟩
  | _ => simp [equal]

end Value

/-! ## Text -/

namespace Text

/-- The texts are the same up to a place at which they have different characters. -/
inductive Diverge : List Char → List Char → Prop
  | intro {before cs ds : List Char} {c d : Char} : c ≠ d → Diverge (before ++ c :: cs) (before ++ d :: ds)

/-- The texts diverge if `P`, and are the same if not. -/
def DivergeIf (P : Prop) (cs ds : List Char) : Prop := cs = ds ∧ ¬ P ∨ Diverge cs ds ∧ P

variable {P Q : Prop} {cs ds cs' ds' : List Char}

theorem Diverge.ne (h : Diverge cs ds) : cs ≠ ds := by
  obtain ⟨hcd⟩ := h
  simpa using fun heq => absurd heq hcd

theorem Diverge.symm (h : Diverge cs ds) : Diverge ds cs := by
  obtain ⟨hcd⟩ := h
  exact .intro hcd.symm

/-- Texts that diverge do so whatever comes after them. -/
theorem Diverge.append (h : Diverge cs ds) (after after' : List Char) : Diverge (cs ++ after) (ds ++ after') := by
  obtain ⟨hcd⟩ := h
  rw [List.append_assoc, List.append_assoc, List.cons_append, List.cons_append]
  exact .intro hcd

theorem Diverge.after (h : Diverge cs ds) (before : List Char) : Diverge (before ++ cs) (before ++ ds) := by
  obtain ⟨hcd⟩ := h
  rw [← List.append_assoc, ← List.append_assoc]
  exact .intro hcd

namespace DivergeIf

theorem refl (cs : List Char) : DivergeIf False cs cs := .inl ⟨rfl, id⟩

theorem eq_iff (h : DivergeIf P cs ds) : cs = ds ↔ ¬ P := by
  rcases h with ⟨rfl, hp⟩ | ⟨h, hp⟩
  · exact iff_of_true rfl hp
  · exact iff_of_false h.ne (not_not_intro hp)

theorem congr (h : DivergeIf P cs ds) (hpq : P ↔ Q) : DivergeIf Q cs ds := by
  rwa [← propext hpq]

/-- One text after another, the first place counts at which either diverges. -/
theorem append (h : DivergeIf P cs ds) (h' : DivergeIf Q cs' ds') : DivergeIf (P ∨ Q) (cs ++ cs') (ds ++ ds') := by
  rcases h with ⟨rfl, hp⟩ | ⟨h, hp⟩
  · rcases h' with ⟨rfl, hq⟩ | ⟨h', hq⟩
    · exact .inl ⟨rfl, not_or_intro hp hq⟩
    · exact .inr ⟨h'.after cs, .inr hq⟩
  · exact .inr ⟨h.append cs' ds', .inl hp⟩

theorem within (h : DivergeIf P cs ds) (before after : List Char) :
    DivergeIf P (before ++ cs ++ after) (before ++ ds ++ after) :=
  (((refl before).append h).append (refl after)).congr (by rw [false_or, or_false])

end DivergeIf

end Text

namespace Value

/-- The values have zeros of opposite signs in them at the same place. -/
inductive OpposedZeros : Value → Value → Prop
  | here {m n : Number} : m.Zeros n → m.isNegative ≠ n.isNegative → OpposedZeros (.number m) (.number n)
  | inside {vs ws : List Value} {i : Nat} {v w : Value} : vs[i]? = some v → ws[i]? = some w → OpposedZeros v w →
      OpposedZeros (.list vs) (.list ws)

variable {a b v w : Value} {vs ws : List Value}

theorem opposedZeros_number_iff {m n : Number} :
    (number m).OpposedZeros (number n) ↔ m.Zeros n ∧ m.isNegative ≠ n.isNegative := by
  constructor
  · rintro ⟨hzeros, hsigns⟩
    exact ⟨hzeros, hsigns⟩
  · rintro ⟨hzeros, hsigns⟩
    exact .here hzeros hsigns

theorem not_opposedZeros_empty : ¬ (list []).OpposedZeros (list ws) := by
  intro h
  cases h with
  | inside hv => cases hv

theorem opposedZeros_cons_iff : (list (v :: vs)).OpposedZeros (list (w :: ws)) ↔
    v.OpposedZeros w ∨ (list vs).OpposedZeros (list ws) := by
  constructor
  · intro h
    cases h with
    | @inside _ _ i _ _ hv hw h =>
      cases i with
      | zero =>
        cases hv
        cases hw
        exact .inl h
      | succ i => exact .inr (.inside hv hw h)
  · rintro (h | h)
    · exact .inside (i := 0) rfl rfl h
    · cases h with
      | @inside _ _ i _ _ hv hw h => exact .inside (i := i + 1) hv hw h

theorem texts_of_number {m n : Number} (h : m.equal n = true) :
    Text.DivergeIf ((number m).OpposedZeros (number n)) m.text.toList n.text.toList := by
  rw [opposedZeros_number_iff]
  rcases Number.equal_iff.mp h with ⟨rfl, -⟩ | hzeros
  · exact .inl ⟨rfl, fun h => h.2 rfl⟩
  · have hsigned : Text.Diverge "-0.0".toList "0.0".toList := @Text.Diverge.intro [] _ _ '-' '0' (by decide)
    rw [hzeros.text_eq, hzeros.symm.text_eq]
    cases hm : m.isNegative with
    | true => cases hn : n.isNegative with
      | true => exact .inl ⟨rfl, fun h => h.2 rfl⟩
      | false => exact .inr ⟨hsigned, hzeros, nofun⟩
    | false => cases hn : n.isNegative with
      | true => exact .inr ⟨hsigned.symm, hzeros, nofun⟩
      | false => exact .inl ⟨rfl, fun h => h.2 rfl⟩

/-- The texts of the elements one after another, with blanks between them. -/
theorem texts_of_elements
    (h : List.Forall₂ (fun v w => Text.DivergeIf (v.OpposedZeros w) v.text.toList w.text.toList) vs ws) :
    Text.DivergeIf ((list vs).OpposedZeros (list ws)) (" ".intercalate (texts vs)).toList
      (" ".intercalate (texts ws)).toList := by
  induction h with
  | nil => exact .inl ⟨rfl, not_opposedZeros_empty⟩
  | @cons v w vs ws hv hrest ih =>
    rw [opposedZeros_cons_iff]
    -- A blank stands between two elements only, so the last one is a case by itself.
    cases hrest with
    | nil =>
      simp only [texts, String.intercalate_singleton]
      exact hv.congr (or_iff_left not_opposedZeros_empty).symm
    | cons hv' hrest =>
      simp only [texts, String.intercalate_cons_cons, String.toList_append] at ih ⊢
      exact ((hv.append (.refl _)).append ih).congr (by rw [or_false])

/-- Equal values have the same text, unless they have zeros of opposite signs at the same place. -/
theorem text_of_equal (hab : a.Coherent b) (h : a.equal b = true) :
    Text.DivergeIf (a.OpposedZeros b) a.text.toList b.text.toList := by
  induction a using Value.induction generalizing b with
  | list vs ih =>
    cases equal_iff.mp h with
    | list hvs =>
      have helements := texts_of_elements (forall₂_of_mem hvs fun v hv w hw =>
        ih v hv fun c d id hc hd => hab c d id (hc.inside hv) (hd.inside hw))
      simp only [text, String.toList_append]
      exact helements.within _ _
  | number n =>
    cases equal_iff.mp h with
    | number h => exact texts_of_number h
  | symbol name =>
    cases equal_iff.mp h
    exact .inl ⟨rfl, fun hopposed => by cases hopposed⟩
  | primitive p =>
    cases equal_iff.mp h
    exact .inl ⟨rfl, fun hopposed => by cases hopposed⟩
  | closure id params body scope _ =>
    -- The comparison says no more than that the identity is the same.
    cases equal_iff.mp h
    cases hab _ _ id .refl .refl rfl rfl
    exact .inl ⟨rfl, fun hopposed => by cases hopposed⟩
  | nil =>
    cases equal_iff.mp h
    exact .inl ⟨rfl, fun hopposed => by cases hopposed⟩

theorem closure_equal_iff {id : ClosureId} {params : List String} {body : Value} {scope : ScopeId}
    (hcoherent : (closure id params body scope).Coherent v) :
    (closure id params body scope).equal v = true ↔ v = closure id params body scope := by
  constructor
  · intro h
    cases equal_iff.mp h
    exact (hcoherent _ _ id .refl .refl rfl rfl).symm
  · rintro rfl
    exact equal_iff.mpr (.closure _ _ _ _ _ _ _)

end Value

/-- Equality of values is symmetric and transitive, and a value is equal to itself unless something in it is not
    a number. Equal values are of one kind and one truth; if closures of one identity are the same, as
    they are in every session, then equal values have the same text, unless they have zeros of opposite
    signs at the same place, and a closure is equal to itself only. -/
theorem equality_respects_printing :
    (∀ a b : Value, a.equal b = true → b.equal a = true) ∧
    (∀ a b c : Value, a.equal b = true → b.equal c = true → a.equal c = true) ∧
    (∀ a : Value, a.equal a = true ↔ ∀ n, (Value.number n).Part a → n.isNaN = false) ∧
    (∀ a b : Value, a.equal b = true → a.kind = b.kind ∧ a.isTrue = b.isTrue) ∧
    (∀ a b : Value, a.Coherent b → a.equal b = true → (a.text = b.text ↔ ¬ a.OpposedZeros b)) ∧
    (∀ m n : Number, m.kind ≠ n.kind → (Value.number m).equal (.number n) = false) ∧
    (∀ p v, (Value.primitive p).equal v = true ↔ ∃ q, v = .primitive q ∧ q.arity = p.arity ∧ q.name = p.name) ∧
    (∀ id params body scope v, (Value.closure id params body scope).Coherent v →
      ((Value.closure id params body scope).equal v = true ↔ v = .closure id params body scope)) ∧
    ∀ settings room past m, Session settings room past m →
      (∀ a b, m.heap.Binds a → m.heap.Binds b → a.Coherent b) ∧
      ∀ text t v m', Line.Begins settings text m t → Evaluates settings t.tree t.scope t.machine (.ok v m') →
        ∀ a b, a = v ∨ m'.heap.Binds a → b = v ∨ m'.heap.Binds b → a.Coherent b := by
  refine ⟨fun _ _ => Value.equal_symm, fun _ _ _ => Value.equal_trans, Value.equal_self_iff,
    fun _ _ h => ⟨Value.kind_of_equal h, Value.isTrue_of_equal h⟩, fun a b hab h => ?_, fun m n hkind => ?_,
    fun _ _ => Value.primitive_equal_iff, fun _ _ _ _ _ => Value.closure_equal_iff, fun _ _ _ _ => Session.coherent⟩
  · rw [← (Value.text_of_equal hab h).eq_iff, String.toList_inj]
  · rw [Bool.eq_false_iff]
    exact fun h => hkind (Value.kind_of_equal h)

/-- Two lists with a closure and with a zero in a list, whose signs are opposite, are equal and have different texts;
    with something that is not a number in it a list is not equal to itself. -/
theorem equality_respects_printing_zeros :
    let identity : Value := .closure 0 ["x"] (.symbol "x") 0
    let a (negative : Bool) : Value := .list [identity, .list [.number (.float (.zero negative))]]
    (a false).equal (a true) = true ∧ (a true).equal (a false) = true ∧ (a false).Coherent (a true) ∧
      (a false).OpposedZeros (a true) ∧ (a false).text ≠ (a true).text ∧
      (Value.list [.number (.double .nan)]).equal (.list [.number (.double .nan)]) = false := by
  intro identity a
  obtain ⟨hsymm, -, hself, -, htext, -⟩ := equality_respects_printing
  have hequal : (a false).equal (a true) = true := by decide
  have hcoherent : (a false).Coherent (a true) := by
    have hregistered (negative : Bool) : (a negative).Registered [.closure ["x"] (.symbol "x") 0] := by
      have hzero : (Value.list [.number (.float (.zero negative))]).Registered [.closure ["x"] (.symbol "x") 0] :=
        .list (List.forall_mem_singleton.mpr (.number _))
      exact .list (List.forall_mem_cons.mpr ⟨.closure rfl (.symbol "x"), List.forall_mem_singleton.mpr hzero⟩)
    exact (hregistered false).coherent (hregistered true)
  have hopposed : (a false).OpposedZeros (a true) :=
    .inside (i := 1) rfl rfl (.inside (i := 0) rfl rfl (.here (.float rfl rfl) (by decide)))
  refine ⟨hequal, hsymm _ _ hequal, hcoherent, hopposed, ?_, ?_⟩
  · exact fun heq => (htext _ _ hcoherent hequal).mp heq hopposed
  · rw [Bool.eq_false_iff]
    intro h
    cases (hself _).mp h (.double .nan) (.of_mem List.mem_cons_self)

end LineLisp
