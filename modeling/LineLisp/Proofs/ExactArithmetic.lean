/-
  LineLisp.Proofs.ExactArithmetic — sums and products of whole numbers beside the exact ones. They are
  the exact ones modulo 2^32 where an operand is an int, modulo 2^64 where none is and one is a long,
  and exact for bytes and shorts.
  - `Whole.combine_eq_atWidth`: an operation takes its operands at the width of the wider one, which
    loses nothing of the narrower one.
  - `Whole.follows`: what holds of every operation that words have as the integers do.
  - `whole_arithmetic_exact`: the sum and the product of any two whole numbers.
-/

import LineLisp.Number.Basic
import Mathlib

namespace LineLisp

/-! ## Words -/

/-- A word is the only one that is congruent to what it stands for. -/
theorem bitVec_toInt_modEq_iff {w : Nat} {x : BitVec w} {n : Int} :
    x.toInt ≡ n [ZMOD 2 ^ w] ↔ x = BitVec.ofInt w n := by
  have hcast : (2 : Int) ^ w = ((2 ^ w : Nat) : Int) := by norm_cast
  rw [Int.ModEq, hcast]
  constructor
  · intro h
    refine BitVec.eq_of_toInt_eq ?_
    rw [BitVec.toInt_ofInt, ← Int.emod_bmod n, ← h, Int.emod_bmod, BitVec.toInt_bmod_cancel]
  · rintro rfl
    rw [BitVec.toInt_ofInt, Int.bmod_emod]

theorem int32_toInt_modEq_iff {k : Int32} {n : Int} : k.toInt ≡ n [ZMOD 2 ^ 32] ↔ k = .ofInt n := by
  rw [← Int32.toInt_toBitVec, bitVec_toInt_modEq_iff, ← Int32.toBitVec_inj, Int32.toBitVec_ofInt]

theorem int64_toInt_modEq_iff {k : Int64} {n : Int} : k.toInt ≡ n [ZMOD 2 ^ 64] ↔ k = .ofInt n := by
  rw [← Int64.toInt_toBitVec, bitVec_toInt_modEq_iff, ← Int64.toBitVec_inj, Int64.toBitVec_ofInt]

/-- An operation on the integers that words of 32 and of 64 bits have too, and whose results for 16 bits
    have 32. -/
structure WordOperation (op : Int → Int → Int) (narrow : Int32 → Int32 → Int32) (wide : Int64 → Int64 → Int64) :
    Prop where
  narrow_ofInt (m n : Int) : narrow (.ofInt m) (.ofInt n) = .ofInt (op m n)
  wide_ofInt (m n : Int) : wide (.ofInt m) (.ofInt n) = .ofInt (op m n)
  bounds {m n : Int} : -2 ^ 15 ≤ m ∧ m < 2 ^ 15 → -2 ^ 15 ≤ n ∧ n < 2 ^ 15 → -2 ^ 31 ≤ op m n ∧ op m n < 2 ^ 31

theorem wordOperation_add : WordOperation (· + ·) (· + ·) (· + ·) where
  narrow_ofInt m n := (Int32.ofInt_add m n).symm
  wide_ofInt m n := (Int64.ofInt_add m n).symm
  bounds hm hn := by omega

theorem wordOperation_mul : WordOperation (· * ·) (· * ·) (· * ·) where
  narrow_ofInt m n := (Int32.ofInt_mul m n).symm
  wide_ofInt m n := (Int64.ofInt_mul m n).symm
  bounds {m n} hm hn := by
    have hm' : |m| ≤ 2 ^ 15 := abs_le.mpr ⟨hm.1, hm.2.le⟩
    have hn' : |n| ≤ 2 ^ 15 := abs_le.mpr ⟨hn.1, hn.2.le⟩
    have hmn : |m * n| ≤ 2 ^ 15 * 2 ^ 15 := by
      rw [abs_mul]
      exact mul_le_mul hm' hn' (abs_nonneg n) (by norm_num)
    obtain ⟨hleast, hgreatest⟩ := abs_le.mp hmn
    exact ⟨hleast.trans' (by norm_num), hgreatest.trans_lt (by norm_num)⟩

namespace Whole

/-! ## Widths -/

/-- The place in the order of widths, in which an int comes before a long. -/
def rank : Whole → Nat
  | int _ => 3
  | long _ => 2
  | short _ => 1
  | byte _ => 0

/-- An operation with both operands cut to the width that comes first of the two. -/
def atWidth (narrow : Int32 → Int32 → Int32) (wide : Int64 → Int64 → Int64) (a b : Whole) : Whole :=
  match if b.rank ≤ a.rank then a else b with
  | int _ => int (narrow a.toInt64.toInt32 b.toInt64.toInt32)
  | long _ => long (wide a.toInt64 b.toInt64)
  | short _ => int (narrow a.toInt64.toInt16.toInt32 b.toInt64.toInt16.toInt32)
  | byte _ => int (narrow a.toInt64.toInt8.toInt32 b.toInt64.toInt8.toInt32)

/-- Only a long loses bits, and only beside an int. -/
theorem combine_eq_atWidth (narrow : Int32 → Int32 → Int32) (wide : Int64 → Int64 → Int64) (a b : Whole) :
    combine narrow wide a b = atWidth narrow wide a b := by
  cases a <;> cases b <;> simp [combine, atWidth, usesLong, kind, rank, toInt32, toInt64]

theorem toInt32_eq_ofInt (a : Whole) : a.toInt32 = .ofInt a.toInt := by
  cases a <;> simp [toInt32, toInt]

theorem toInt64_eq_ofInt (a : Whole) : a.toInt64 = .ofInt a.toInt := by
  cases a <;> simp [toInt64, toInt]

theorem usesLong_iff {a b : Whole} :
    usesLong a b ↔ ¬ (a.kind = .int ∨ b.kind = .int) ∧ (a.kind = .long ∨ b.kind = .long) := by
  simp [usesLong, and_assoc]

theorem kind_combine (narrow : Int32 → Int32 → Int32) (wide : Int64 → Int64 → Int64) (a b : Whole) :
    (combine narrow wide a b).kind = if usesLong a b then .long else .int := by
  unfold combine
  split <;> rfl

/-- Bytes and shorts have no more than 16 bits. -/
theorem bounds_of_narrow {a : Whole} (hint : a.kind ≠ .int) (hlong : a.kind ≠ .long) :
    -2 ^ 15 ≤ a.toInt ∧ a.toInt < 2 ^ 15 := by
  cases a with
  | byte n => exact ⟨n.le_toInt.trans' (by norm_num), n.toInt_lt.trans (by norm_num)⟩
  | short n => exact ⟨n.le_toInt, n.toInt_lt⟩
  | int n => exact absurd rfl hint
  | long n => exact absurd rfl hlong

/-! ## Results -/

/-- What an operation on numbers gives for two whole ones, against the same one on their exact values. -/
structure Follows (op : Int → Int → Int) (onNumbers : Number → Number → Number) (a b : Whole) : Prop where
  /-- Beside an int: the int that is congruent to the exact result. -/
  int : a.kind = .int ∨ b.kind = .int → ∃ n : Int32, onNumbers (.whole a) (.whole b) = .int n ∧
    ∀ k : Int32, k.toInt ≡ op a.toInt b.toInt [ZMOD 2 ^ 32] ↔ k = n
  /-- Otherwise beside a long: the long that is congruent to the exact result. -/
  long : ¬ (a.kind = .int ∨ b.kind = .int) → a.kind = .long ∨ b.kind = .long →
    ∃ n : Int64, onNumbers (.whole a) (.whole b) = .whole (.long n) ∧
      ∀ k : Int64, k.toInt ≡ op a.toInt b.toInt [ZMOD 2 ^ 64] ↔ k = n
  /-- Otherwise: the exact result, which has 32 bits. -/
  narrow : ¬ (a.kind = .int ∨ b.kind = .int) → ¬ (a.kind = .long ∨ b.kind = .long) →
    (-2 ^ 31 ≤ op a.toInt b.toInt ∧ op a.toInt b.toInt < 2 ^ 31) ∧
      ∃ n : Int32, onNumbers (.whole a) (.whole b) = .int n ∧ n.toInt = op a.toInt b.toInt
  /-- Beside an int both operands may be cut before, or the exact result after. -/
  cut : a.kind = .int ∨ b.kind = .int →
    onNumbers (.whole a) (.whole b) = .int (.ofInt (op a.toInt b.toInt)) ∧
      onNumbers (.int a.toInt32) (.int b.toInt32) = .int (.ofInt (op a.toInt b.toInt))

section

variable {op : Int → Int → Int} {narrow : Int32 → Int32 → Int32} {wide : Int64 → Int64 → Int64}

theorem combine_of_long (h : WordOperation op narrow wide) {a b : Whole}
    (hint : ¬ (a.kind = .int ∨ b.kind = .int)) (hlong : a.kind = .long ∨ b.kind = .long) :
    combine narrow wide a b = .long (.ofInt (op a.toInt b.toInt)) := by
  rw [combine, if_pos (usesLong_iff.mpr ⟨hint, hlong⟩), toInt64_eq_ofInt, toInt64_eq_ofInt, h.wide_ofInt]

theorem combine_of_int (h : WordOperation op narrow wide) {a b : Whole}
    (hkind : a.kind = .long ∨ b.kind = .long → a.kind = .int ∨ b.kind = .int) :
    combine narrow wide a b = .int (.ofInt (op a.toInt b.toInt)) := by
  have hnot : ¬ usesLong a b := fun hl => (usesLong_iff.mp hl).1 (hkind (usesLong_iff.mp hl).2)
  rw [combine, if_neg hnot, toInt32_eq_ofInt, toInt32_eq_ofInt, h.narrow_ofInt]

theorem follows (h : WordOperation op narrow wide) (onSingle : Single → Single → Single)
    (onDouble : Double → Double → Double) (a b : Whole) :
    Follows op (Number.combine (combine narrow wide) onSingle onDouble) a b where
  int hint :=
    ⟨_, congrArg Number.whole (combine_of_int h fun _ => hint), fun _ => int32_toInt_modEq_iff⟩
  long hint hlong :=
    ⟨_, congrArg Number.whole (combine_of_long h hint hlong), fun _ => int64_toInt_modEq_iff⟩
  narrow hint hlong := by
    obtain ⟨ha, hb⟩ := not_or.mp hint
    obtain ⟨ha', hb'⟩ := not_or.mp hlong
    have hbounds := h.bounds (bounds_of_narrow ha ha') (bounds_of_narrow hb hb')
    exact ⟨hbounds, _, congrArg Number.whole (combine_of_int h fun hl => absurd hl hlong),
      Int32.toInt_ofInt_of_le hbounds.1 hbounds.2⟩
  cut hint := by
    refine ⟨congrArg Number.whole (combine_of_int h fun _ => hint), congrArg (Number.whole ∘ Whole.int) ?_⟩
    -- Two ints are combined as they are.
    show narrow a.toInt32 b.toInt32 = _
    rw [toInt32_eq_ofInt, toInt32_eq_ofInt, h.narrow_ofInt]

end

end Whole

/-- A sum or a product of whole numbers is the exact one modulo 2^32 if one of them is an int, otherwise
    modulo 2^64 if one is a long, and otherwise it is the exact one. -/
theorem whole_arithmetic_exact (a b : Whole) :
    Whole.Follows (· + ·) Number.add a b ∧ Whole.Follows (· * ·) Number.mul a b ∧
    Whole.add a b = Whole.atWidth (· + ·) (· + ·) a b ∧ Whole.mul a b = Whole.atWidth (· * ·) (· * ·) a b :=
  ⟨Whole.follows wordOperation_add _ _ a b, Whole.follows wordOperation_mul _ _ a b,
    Whole.combine_eq_atWidth _ _ a b, Whole.combine_eq_atWidth _ _ a b⟩

/-- 2^32 and the int one make the int one, the greatest long and one the least, and the square of the least
    short is exact. -/
theorem whole_arithmetic_exact_extremes :
    (∃ n : Int32, Number.add (.whole (.long 4294967296)) (.int 1) = .int n ∧
      ∀ k : Int32, k.toInt ≡ 4294967297 [ZMOD 2 ^ 32] ↔ k = n) ∧
    (∃ n : Int64, Number.add (.whole (.long .maxValue)) (.whole (.byte 1)) = .whole (.long n) ∧
      ∀ k : Int64, k.toInt ≡ 9223372036854775808 [ZMOD 2 ^ 64] ↔ k = n) ∧
    ∃ n : Int32, Number.mul (.whole (.short .minValue)) (.whole (.short .minValue)) = .int n ∧
      n.toInt = 1073741824 :=
  ⟨(whole_arithmetic_exact (.long 4294967296) (.int 1)).1.int (.inr rfl),
    (whole_arithmetic_exact (.long .maxValue) (.byte 1)).1.long (by decide) (.inl rfl),
    ((whole_arithmetic_exact (.short .minValue) (.short .minValue)).2.1.narrow (by decide) (by decide)).2⟩

end LineLisp
