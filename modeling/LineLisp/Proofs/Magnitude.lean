/-
  LineLisp.Proofs.Magnitude — magnitudes of numbers. Each of the four widths of whole numbers has a
  least number whose magnitude it does not have. A byte or a short is taken at 32 bits first, where
  there is room; the least int goes to 64 bits; only the least long is left without its magnitude and
  gets the greatest long instead.
  - `Whole.toInt_abs`: the magnitude is exact for every whole number but the least long.
  - `BinaryFloat.toRat_abs`: it is exact for floats and doubles.
  - `abs_gives_magnitude`: sign, value and width of every magnitude; no result of arithmetic is a byte
    or a short.
-/

import LineLisp.Proofs.ExactArithmetic

namespace LineLisp

/-! ## Floats and doubles -/

namespace BinaryFloat

variable {f : FloatFormat}

theorem isNegative_abs (x : BinaryFloat f) : x.abs.isNegative = false := by cases x <;> rfl

theorem abs_abs (x : BinaryFloat f) : x.abs.abs = x.abs := by cases x <;> rfl

theorem isNaN_abs (x : BinaryFloat f) : x.abs.isNaN = x.isNaN := by cases x <;> rfl

theorem toRat_abs (x : BinaryFloat f) : x.abs.toRat = |x.toRat| := by
  cases x with
  | nan => exact abs_zero.symm
  | infinite s => exact abs_zero.symm
  | finite s m e h =>
    cases s with
    | true => simp [abs, toRat, abs_mul]
    | false => simp [abs, toRat, abs_mul]

theorem equal_self (x : BinaryFloat f) : x.equal x = !x.isNaN := by
  cases x <;> simp [equal, isNaN]

end BinaryFloat

/-! ## Whole numbers -/

theorem int32_toInt_abs {n : Int32} (h : n ≠ .minValue) : n.abs.toInt = |n.toInt| := by
  have hbits : n.toBitVec ≠ BitVec.intMin 32 := fun heq => h (Int32.toBitVec_inj.mp heq)
  rw [← Int32.toInt_toBitVec, Int32.toBitVec_abs, BitVec.toInt_abs_eq_natAbs_of_ne_intMin hbits, Int.natCast_natAbs,
    Int32.toInt_toBitVec]

theorem int64_toInt_abs {n : Int64} (h : n ≠ .minValue) : n.abs.toInt = |n.toInt| := by
  have hbits : n.toBitVec ≠ BitVec.intMin 64 := fun heq => h (Int64.toBitVec_inj.mp heq)
  rw [← Int64.toInt_toBitVec, Int64.toBitVec_abs, BitVec.toInt_abs_eq_natAbs_of_ne_intMin hbits, Int.natCast_natAbs,
    Int64.toInt_toBitVec]

namespace Whole

theorem abs_of_ne_long {a : Whole} (h : a.kind ≠ .long) :
    a.abs = if a.toInt32 = .minValue then long a.toInt64.abs else int a.toInt32.abs := by
  cases a with
  | long n => exact absurd rfl h
  | byte n => rfl
  | short n => rfl
  | int n => rfl

theorem toInt_toInt64 (a : Whole) : a.toInt64.toInt = a.toInt := by
  cases a <;> simp [toInt64, toInt]

theorem toInt_toInt32 {a : Whole} (h : a.kind ≠ .long) : a.toInt32.toInt = a.toInt := by
  cases a with
  | long n => exact absurd rfl h
  | byte n => simp [toInt32, toInt]
  | short n => simp [toInt32, toInt]
  | int n => rfl

/-- Of the numbers of up to 32 bits the least int is the only one that has no magnitude at 32 bits. -/
theorem toInt32_eq_minValue_iff {a : Whole} (h : a.kind ≠ .long) :
    a.toInt32 = .minValue ↔ a = .int .minValue := by
  constructor
  · intro hleast
    have hvalue := toInt_toInt32 h
    rw [hleast] at hvalue
    by_cases hint : a.kind = .int
    · cases a with
      | int n => exact congrArg int hleast
      | byte n => cases hint
      | short n => cases hint
      | long n => cases hint
    · have hbounds := bounds_of_narrow hint h
      have hmin : (Int32.minValue).toInt = -2 ^ 31 := by decide
      omega
  · rintro rfl
    rfl

theorem toInt_abs {a : Whole} (h : a ≠ .long .minValue) : a.abs.toInt = |a.toInt| := by
  by_cases hlong : a.kind = .long
  · cases a with
    | long n =>
      have hn : n ≠ .minValue := fun heq => h (congrArg long heq)
      show (if n = .minValue then Int64.maxValue else n.abs).toInt = |n.toInt|
      rw [if_neg hn, int64_toInt_abs hn]
    | byte n => cases hlong
    | short n => cases hlong
    | int n => cases hlong
  · rw [abs_of_ne_long hlong]
    split
    · have hne : a.toInt64 ≠ .minValue := by
        intro heq
        have hvalue := toInt_toInt32 hlong
        rw [← toInt_toInt64, heq] at hvalue
        exact absurd (hvalue ▸ a.toInt32.le_toInt) (by decide)
      show a.toInt64.abs.toInt = |a.toInt|
      rw [int64_toInt_abs hne, toInt_toInt64]
    · next hne =>
      show a.toInt32.abs.toInt = |a.toInt|
      rw [int32_toInt_abs hne, toInt_toInt32 hlong]

theorem toInt_abs_nonneg (a : Whole) : 0 ≤ a.abs.toInt := by
  by_cases h : a = .long .minValue
  · subst h
    decide
  · rw [toInt_abs h]
    exact abs_nonneg _

/-- A magnitude has 32 bits unless 64 are needed or were there. -/
theorem kind_abs (a : Whole) : a.abs.kind = if a.kind = .long ∨ a = .int .minValue then .long else .int := by
  by_cases hlong : a.kind = .long
  · cases a with
    | long n => simp [abs, kind]
    | byte n => cases hlong
    | short n => cases hlong
    | int n => cases hlong
  · rw [abs_of_ne_long hlong]
    simp only [toInt32_eq_minValue_iff hlong, hlong, false_or]
    split <;> rfl

/-- An int or a long that is not negative is its own magnitude. -/
theorem abs_eq_self {a : Whole} (hkind : a.kind = .int ∨ a.kind = .long) (h : 0 ≤ a.toInt) : a.abs = a := by
  cases a with
  | int n =>
    have hne : n ≠ .minValue := by
      rintro rfl
      exact absurd h (by decide)
    have heq : n.abs = n := Int32.toInt_inj.mp ((int32_toInt_abs hne).trans (abs_of_nonneg h))
    show (if n = .minValue then long n.toInt64.abs else int n.abs) = int n
    rw [if_neg hne, heq]
  | long n =>
    have hne : n ≠ .minValue := by
      rintro rfl
      exact absurd h (by decide)
    have heq : n.abs = n := Int64.toInt_inj.mp ((int64_toInt_abs hne).trans (abs_of_nonneg h))
    show long (if n = .minValue then .maxValue else n.abs) = long n
    rw [if_neg hne, heq]
  | byte n => simp [kind] at hkind
  | short n => simp [kind] at hkind

theorem abs_abs (a : Whole) : a.abs.abs = a.abs := by
  refine abs_eq_self ?_ (toInt_abs_nonneg a)
  rw [kind_abs]
  split
  · exact .inr rfl
  · exact .inl rfl

end Whole

/-! ## Numbers -/

namespace Number

/-- Whether it is below zero or the negative zero. -/
def isNegative : Number → Bool
  | whole a => a.toInt < 0
  | float x => x.isNegative
  | double x => x.isNegative

def isNaN : Number → Bool
  | whole _ => false
  | float x => x.isNaN
  | double x => x.isNaN

/-- The exact value; zero stands in for infinities and for what is not a number. -/
def toRat : Number → ℚ
  | whole a => a.toInt
  | float x => x.toRat
  | double x => x.toRat

/-- The width that a magnitude has. -/
def magnitudeKind : Number → Kind
  | whole (.long _) => .long
  | whole (.int n) => if n = .minValue then .long else .int
  | whole (.short _) => .int
  | whole (.byte _) => .int
  | float _ => .float
  | double _ => .double

/-- What the magnitude of a number is. -/
structure HasMagnitude (n : Number) : Prop where
  sign : n.abs.isNegative = false
  idempotent : n.abs.abs = n.abs
  /-- What is not a number stays so, and is then equal to nothing. -/
  equal : n.abs.abs.equal n.abs = !n.isNaN
  whole : n ≠ .whole (.long .minValue) → n.abs.whole? = n.whole?.map (|·|)
  greatest : n = .whole (.long .minValue) → n.abs = .whole (.long .maxValue)
  value : n ≠ .whole (.long .minValue) → n.abs.toRat = |n.toRat|
  width : n.abs.kind = n.magnitudeKind

theorem equal_self (n : Number) : n.equal n = !n.isNaN := by
  cases n with
  | whole a => simp [equal, isNaN]
  | float x => exact x.equal_self
  | double x => exact x.equal_self

theorem isNaN_abs (n : Number) : n.abs.isNaN = n.isNaN := by
  cases n with
  | whole a => rfl
  | float x => exact x.isNaN_abs
  | double x => exact x.isNaN_abs

theorem abs_abs (n : Number) : n.abs.abs = n.abs := by
  cases n with
  | whole a => exact congrArg Number.whole a.abs_abs
  | float x => exact congrArg float x.abs_abs
  | double x => exact congrArg double x.abs_abs

theorem isNegative_abs (n : Number) : n.abs.isNegative = false := by
  cases n with
  | whole a => exact decide_eq_false (not_lt.mpr a.toInt_abs_nonneg)
  | float x => exact x.isNegative_abs
  | double x => exact x.isNegative_abs

theorem kind_abs (n : Number) : n.abs.kind = n.magnitudeKind := by
  cases n with
  | whole a =>
    refine a.kind_abs.trans ?_
    cases a <;> simp [magnitudeKind, Whole.kind]
  | float x => rfl
  | double x => rfl

theorem hasMagnitude (n : Number) : n.HasMagnitude where
  sign := n.isNegative_abs
  idempotent := n.abs_abs
  equal := by rw [n.abs_abs, equal_self, isNaN_abs]
  whole h := by
    cases n with
    | whole a =>
      have ha : a ≠ .long .minValue := fun heq => h (congrArg Number.whole heq)
      exact congrArg some (Whole.toInt_abs ha)
    | float x => rfl
    | double x => rfl
  greatest h := by
    subst h
    rfl
  value h := by
    cases n with
    | whole a =>
      have ha : a ≠ .long .minValue := fun heq => h (congrArg Number.whole heq)
      show (a.abs.toInt : ℚ) = |(a.toInt : ℚ)|
      rw [Whole.toInt_abs ha, Int.cast_abs]
    | float x => exact x.toRat_abs
    | double x => exact x.toRat_abs
  width := n.kind_abs

/-- It is neither a byte nor a short. -/
def IsWide (n : Number) : Prop := n.kind ≠ .byte ∧ n.kind ≠ .short

theorem isWide_combine (narrow : Int32 → Int32 → Int32) (wide : Int64 → Int64 → Int64)
    (onSingle : Single → Single → Single) (onDouble : Double → Double → Double) (m n : Number) :
    (combine (Whole.combine narrow wide) onSingle onDouble m n).IsWide := by
  unfold combine
  split
  · next a b =>
    have hkind : (Number.whole (Whole.combine narrow wide a b)).kind = if Whole.usesLong a b then .long else .int :=
      Whole.kind_combine narrow wide a b
    rw [IsWide, hkind]
    split <;> simp
  · simp [IsWide, kind]
  · simp [IsWide, kind]
  · simp [IsWide, kind]

theorem isWide_abs (n : Number) : n.abs.IsWide := by
  rw [IsWide, kind_abs]
  unfold magnitudeKind
  split <;> simp
  split <;> simp

end Number

/-- A magnitude is not negative and is its own magnitude; it is exact for every number but the least long,
    which gets the greatest one; and whether it has 32 or 64 bits goes by the number. No sum, product or
    magnitude is a byte or a short. -/
theorem abs_gives_magnitude (m n : Number) :
    n.HasMagnitude ∧ (m.add n).IsWide ∧ (m.mul n).IsWide ∧ n.abs.IsWide :=
  ⟨n.hasMagnitude, Number.isWide_combine .., Number.isWide_combine .., n.isWide_abs⟩

/-- The least short and the least int have magnitudes that are wider than they are; the least long has
    none. -/
theorem abs_gives_magnitude_least :
    ((Number.whole (.short .minValue)).abs.whole? = some 32768 ∧ (Number.whole (.short .minValue)).abs.kind = .int) ∧
    ((Number.int .minValue).abs.whole? = some 2147483648 ∧ (Number.int .minValue).abs.kind = .long) ∧
    (Number.whole (.long .minValue)).abs = .whole (.long .maxValue) ∧
    ((Number.whole (.long .minValue)).add (.whole (.short .minValue))).IsWide := by
  obtain ⟨hlong, hsum, -, -⟩ := abs_gives_magnitude (.whole (.long .minValue)) (.whole (.short .minValue))
  obtain ⟨hint, -, -, -⟩ := abs_gives_magnitude .pi (.int .minValue)
  obtain ⟨hleast, -, -, -⟩ := abs_gives_magnitude .pi (.whole (.long .minValue))
  have hne {a : Whole} (h : a ≠ .long .minValue) : Number.whole a ≠ .whole (.long .minValue) := by simpa using h
  exact ⟨⟨(hlong.whole (hne (by decide))).trans (by decide), hlong.width⟩,
    ⟨(hint.whole (hne (by decide))).trans (by decide), hint.width⟩, hleast.greatest rfl, hsum⟩

end LineLisp
