/-
  LineLisp.Proofs.Rounding — what rounding to a format gives. It is fixed by the exact value
  alone: a value that the format has is kept, one beyond the largest exponent becomes infinite
  and one below half of the least number becomes zero.
  - `BinaryFloat.ofRat_exact`: numbers of the format are rounded to themselves.
  - `BinaryFloat.ofDecimal_eq_ofRat`: a numeral is read as its value is rounded, however many
    digits it is written with.
-/

import LineLisp.BinaryFloat.Decimal
import Mathlib

namespace LineLisp.BinaryFloat

variable {f : FloatFormat}

/-! ## Powers of two -/

theorem two_zpow_eq (e : Int) : (2 : ℚ) ^ e = 2 ^ e.toNat / 2 ^ (-e).toNat := by
  obtain ⟨k, rfl | rfl⟩ := e.eq_nat_or_neg
  · simp
  · simp [zpow_neg]

/-- A comparison with a quotient, cleared of fractions. -/
theorem two_zpow_le_div_iff {n d : Nat} (hd : 0 < d) (e : Int) :
    (2 : ℚ) ^ e ≤ n / d ↔ d * Nat.pow 2 e.toNat ≤ n * Nat.pow 2 (-e).toNat := by
  have hd' : (0 : ℚ) < d := by exact_mod_cast hd
  rw [two_zpow_eq, div_le_div_iff₀ (by positivity) hd', mul_comm]
  norm_cast

theorem zpow_log2_le {n : Nat} (hn : 0 < n) : (2 : ℚ) ^ (n.log2 : Int) ≤ n := by
  rw [zpow_natCast]
  exact_mod_cast Nat.log2_self_le hn.ne'

theorem lt_zpow_log2_succ (n : Nat) : (n : ℚ) < 2 ^ ((n.log2 : Int) + 1) := by
  have h : n < 2 ^ (n.log2 + 1) := Nat.lt_log2_self
  exact_mod_cast h

/-- The exponent of the power of two at or below a quotient. -/
theorem log2Quotient_spec {n d : Nat} (hn : 0 < n) (hd : 0 < d) :
    (2 : ℚ) ^ log2Quotient n d ≤ n / d ∧ (n / d : ℚ) < 2 ^ (log2Quotient n d + 1) := by
  have hd' : (0 : ℚ) < d := by exact_mod_cast hd
  have two : (2 : ℚ) ≠ 0 := two_ne_zero
  unfold log2Quotient
  simp only
  generalize hk : (n.log2 : Int) - d.log2 = k
  split
  · next h =>
    refine ⟨(two_zpow_le_div_iff hd k).mpr h, ?_⟩
    rw [div_lt_iff₀ hd']
    calc (n : ℚ) < 2 ^ ((n.log2 : Int) + 1) := lt_zpow_log2_succ n
      _ = 2 ^ (k + 1) * 2 ^ (d.log2 : Int) := by rw [← zpow_add₀ two]; congr 1; omega
      _ ≤ 2 ^ (k + 1) * d := by gcongr; exact zpow_log2_le hd
  · next h =>
    refine ⟨?_, ?_⟩
    · rw [le_div_iff₀ hd']
      calc (2 : ℚ) ^ (k - 1) * d ≤ 2 ^ (k - 1) * 2 ^ ((d.log2 : Int) + 1) := by
            gcongr
            exact (lt_zpow_log2_succ d).le
        _ = 2 ^ (n.log2 : Int) := by rw [← zpow_add₀ two]; congr 1; omega
        _ ≤ n := zpow_log2_le hn
    · rw [sub_add_cancel]
      exact lt_of_not_ge (mt (two_zpow_le_div_iff hd k).mp h)

/-- Between which powers of two a quotient lies says which exponent it has. -/
theorem log2Quotient_lt {n d : Nat} (hn : 0 < n) (hd : 0 < d) {k : Int} (h : (n / d : ℚ) < 2 ^ k) :
    log2Quotient n d < k :=
  (zpow_lt_zpow_iff_right₀ one_lt_two).mp ((log2Quotient_spec hn hd).1.trans_lt h)

theorem le_log2Quotient {n d : Nat} (hn : 0 < n) (hd : 0 < d) {k : Int} (h : (2 : ℚ) ^ k ≤ n / d) :
    k ≤ log2Quotient n d :=
  Int.lt_add_one_iff.mp ((zpow_lt_zpow_iff_right₀ one_lt_two).mp (h.trans_lt (log2Quotient_spec hn hd).2))

/-! ## Rounding to a natural number -/

theorem nearestEven_mul (m : Nat) {d : Nat} (hd : 0 < d) : nearestEven (m * d) d = m := by
  have hlt : compare (2 * (m * d % d)) d = .lt := by simp [Nat.compare_eq_lt, hd]
  simp only [nearestEven, hlt]
  exact Nat.mul_div_cancel m hd

theorem nearestEven_of_lt_half {n d : Nat} (h : 2 * n < d) : nearestEven n d = 0 := by
  have hlt : n < d := by omega
  have hcompare : compare (2 * (n % d)) d = .lt := by
    rw [Nat.mod_eq_of_lt hlt]
    exact Nat.compare_eq_lt.mpr h
  simp only [nearestEven, hcompare]
  exact Nat.div_eq_of_lt hlt

/-! ## Rounding to the format -/

theorem ofParts_of_canonical (negative : Bool) {m : Nat} {e : Int} (h : f.Canonical m e) :
    ofParts negative m e = .finite negative m e h :=
  dif_pos h

theorem ofParts_eq_finite {s t : Bool} {m n : Nat} {e k : Int} {h : f.Canonical n k}
    (heq : ofParts s m e = .finite t n k h) : s = t ∧ m = n ∧ e = k := by
  unfold ofParts at heq
  split at heq
  · cases heq
    exact ⟨rfl, rfl, rfl⟩
  · cases heq

theorem ofParts_of_gt (negative : Bool) (m : Nat) {e : Int} (h : f.maxExponent < e) :
    (ofParts negative m e : BinaryFloat f) = .infinite negative :=
  dif_neg fun hc => absurd hc.2.1 (by omega)

/-- The exponent that a quotient is rounded at. -/
def roundingExponent (f : FloatFormat) (n d : Nat) : Int :=
  max (log2Quotient n d - ((f.precision : Int) - 1)) f.minExponent

/-- A number of the format is rounded at its own exponent. -/
theorem roundingExponent_of_canonical (hf : 1 ≤ f.precision) {n d m : Nat} {e : Int} (hn : 0 < n) (hd : 0 < d)
    (hc : f.Canonical m e) (h : (n / d : ℚ) = m * 2 ^ e) : roundingExponent f n d = e := by
  have two : (2 : ℚ) ≠ 0 := two_ne_zero
  obtain ⟨hlt, -, hleast⟩ := hc
  have hupper : log2Quotient n d < f.precision + e := by
    refine log2Quotient_lt hn hd ?_
    rw [h, zpow_add₀ two, zpow_natCast]
    gcongr
    exact_mod_cast hlt
  unfold roundingExponent
  rcases hleast with rfl | ⟨hgt, hle⟩
  · omega
  · have hlower : (f.precision - 1 : Nat) + e ≤ log2Quotient n d := by
      refine le_log2Quotient hn hd ?_
      rw [h, zpow_add₀ two, zpow_natCast]
      gcongr
      exact_mod_cast hle
    omega

theorem ofQuotient_exact (hf : 1 ≤ f.precision) (negative : Bool) {n d m : Nat} {e : Int} (hn : 0 < n)
    (hd : 0 < d) (hc : f.Canonical m e) (h : (n / d : ℚ) = m * 2 ^ e) :
    ofQuotient negative n d = .finite negative m e hc := by
  have hd' : (d : ℚ) ≠ 0 := by exact_mod_cast hd.ne'
  have hscaled : n * Nat.pow 2 (-e).toNat = m * (d * Nat.pow 2 e.toNat) := by
    rw [two_zpow_eq, ← mul_div_assoc, div_eq_div_iff hd' (by positivity)] at h
    have h' : n * 2 ^ (-e).toNat = m * 2 ^ e.toNat * d := by exact_mod_cast h
    show n * 2 ^ (-e).toNat = m * (d * 2 ^ e.toNat)
    rw [h']
    ring
  have hpos : 0 < d * Nat.pow 2 e.toNat := Nat.mul_pos hd (Nat.pow_pos Nat.two_pos)
  have hround : max (log2Quotient n d - ((f.precision : Int) - 1)) f.minExponent = e :=
    roundingExponent_of_canonical hf hn hd hc h
  simp only [ofQuotient, hround, hscaled, nearestEven_mul m hpos, if_neg hc.1.ne]
  exact ofParts_of_canonical negative hc

/-- The sign has no part in rounding. -/
theorem ofQuotient_of_finite {n d m : Nat} {e : Int} {hc : f.Canonical m e}
    (h : ofQuotient false n d = .finite false m e hc) (negative : Bool) :
    ofQuotient negative n d = .finite negative m e hc := by
  unfold ofQuotient at h ⊢
  simp only at h ⊢
  split at h
  · next hcarry =>
    obtain ⟨-, rfl, rfl⟩ := ofParts_eq_finite h
    rw [if_pos hcarry]
    exact ofParts_of_canonical negative hc
  · next hcarry =>
    obtain ⟨-, rfl, rfl⟩ := ofParts_eq_finite h
    rw [if_neg hcarry]
    exact ofParts_of_canonical negative hc

theorem ofQuotient_large (negative : Bool) {n d : Nat} (hn : 0 < n) (hd : 0 < d)
    (h : (2 : ℚ) ^ (f.maxExponent + f.precision) ≤ n / d) :
    (ofQuotient negative n d : BinaryFloat f) = .infinite negative := by
  have hlog := le_log2Quotient hn hd h
  have hgt : f.maxExponent < roundingExponent f n d := by
    unfold roundingExponent
    omega
  unfold ofQuotient
  simp only
  split
  · exact ofParts_of_gt negative _ (Int.lt_add_one_of_le hgt.le)
  · exact ofParts_of_gt negative _ hgt

theorem ofQuotient_small (hf : 1 ≤ f.precision) (negative : Bool) {n d : Nat} (hn : 0 < n) (hd : 0 < d)
    (h : (n / d : ℚ) < 2 ^ (f.minExponent - 1)) : (ofQuotient negative n d : BinaryFloat f) = zero negative := by
  have hd' : (0 : ℚ) < d := by exact_mod_cast hd
  have hlog := log2Quotient_lt hn hd h
  have hround : max (log2Quotient n d - ((f.precision : Int) - 1)) f.minExponent = f.minExponent := by omega
  have hhalf : 2 * (n * Nat.pow 2 (-f.minExponent).toNat) < d * Nat.pow 2 f.minExponent.toNat := by
    rw [zpow_sub_one₀ two_ne_zero, two_zpow_eq, ← div_eq_mul_inv, div_div, div_lt_div_iff₀ hd' (by positivity)] at h
    have h' : n * (2 ^ (-f.minExponent).toNat * 2) < 2 ^ f.minExponent.toNat * d := by exact_mod_cast h
    show 2 * (n * 2 ^ (-f.minExponent).toNat) < d * 2 ^ f.minExponent.toNat
    calc _ = n * (2 ^ (-f.minExponent).toNat * 2) := by ring
      _ < _ := h'
      _ = _ := by ring
  have hne : (0 : Nat) ≠ Nat.pow 2 f.precision := (Nat.pow_pos Nat.two_pos).ne
  simp only [ofQuotient, hround, nearestEven_of_lt_half hhalf, if_neg hne, zero]

theorem natAbs_num_div_den (r : ℚ) : (r.num.natAbs / r.den : ℚ) = |r| := by
  rw [Nat.cast_natAbs, Int.cast_abs]
  conv_rhs => rw [← Rat.num_div_den r, abs_div]
  simp

/-- The value of this sign and magnitude. -/
def signed (negative : Bool) (r : ℚ) : ℚ := if negative then -r else r

theorem ofRat_signed {r : ℚ} (h : 0 < r) (negative zeroSign : Bool) :
    (ofRat zeroSign (signed negative r) : BinaryFloat f) = ofQuotient negative r.num.natAbs r.den := by
  cases negative with
  | true => simp [ofRat, signed, h.ne', h]
  | false => simp [ofRat, signed, h.ne', not_lt.mpr h.le]

theorem natAbs_num_div_den_of_pos {r : ℚ} (h : 0 < r) : (r.num.natAbs / r.den : ℚ) = r := by
  rw [natAbs_num_div_den, abs_of_pos h]

theorem natAbs_num_pos {r : ℚ} (h : 0 < r) : 0 < r.num.natAbs := Int.natAbs_pos.mpr (Rat.num_pos.mpr h).ne'

/-- A number of the format other than zero is rounded to itself. -/
theorem ofRat_exact (hf : 1 ≤ f.precision) (negative zeroSign : Bool) {m : Nat} {e : Int} (hm : 0 < m)
    (hc : f.Canonical m e) : ofRat zeroSign (signed negative (m * 2 ^ e)) = .finite negative m e hc := by
  have hpos : (0 : ℚ) < m * 2 ^ e := by positivity
  rw [ofRat_signed hpos]
  exact ofQuotient_exact hf negative (natAbs_num_pos hpos) (Rat.den_pos _) hc (natAbs_num_div_den_of_pos hpos)

theorem ofRat_large (negative zeroSign : Bool) {r : ℚ} (h : (2 : ℚ) ^ (f.maxExponent + f.precision) ≤ r) :
    (ofRat zeroSign (signed negative r) : BinaryFloat f) = .infinite negative := by
  have hpos : 0 < r := lt_of_lt_of_le (by positivity) h
  rw [ofRat_signed hpos]
  exact ofQuotient_large negative (natAbs_num_pos hpos) (Rat.den_pos _) (by rwa [natAbs_num_div_den_of_pos hpos])

theorem ofRat_small (hf : 1 ≤ f.precision) (negative zeroSign : Bool) {r : ℚ} (hpos : 0 < r)
    (h : r < 2 ^ (f.minExponent - 1)) : (ofRat zeroSign (signed negative r) : BinaryFloat f) = zero negative := by
  rw [ofRat_signed hpos]
  exact ofQuotient_small hf negative (natAbs_num_pos hpos) (Rat.den_pos _) (by rwa [natAbs_num_div_den_of_pos hpos])

/-! ## Numerals -/

theorem toRat_pos {d : Decimal} (h : d.digits ≠ 0) : 0 < d.toRat := by
  have hpos : (0 : ℚ) < d.digits := by exact_mod_cast Nat.pos_of_ne_zero h
  unfold Decimal.toRat
  positivity

/-- There are numbers from below one to above one. -/
structure Regular (f : FloatFormat) : Prop where
  precision : 1 ≤ f.precision
  least : f.minExponent ≤ 0
  greatest : 0 < f.maxExponent + f.precision

theorem regular_single : Regular .single where
  precision := by decide
  least := by decide
  greatest := by decide

theorem le_toRat_of_scale {d : Decimal} (hd : d.digits ≠ 0) {k : Int} (hk : 0 < k) (h : k ≤ 3 * d.scale) :
    (2 : ℚ) ^ k ≤ d.toRat := by
  have hdigits : (1 : ℚ) ≤ d.digits := by exact_mod_cast Nat.one_le_iff_ne_zero.mpr hd
  calc (2 : ℚ) ^ k ≤ 2 ^ (3 * d.scale) := zpow_le_zpow_right₀ one_le_two h
    _ = 8 ^ d.scale := by rw [zpow_mul]; norm_num
    _ ≤ 10 ^ d.scale := zpow_le_zpow_left₀ (by omega) (by norm_num) (by norm_num)
    _ ≤ d.digits * 10 ^ d.scale := le_mul_of_one_le_left (by positivity) hdigits

theorem toRat_lt_of_scale {d : Decimal} {k : Int} (hk : k ≤ 0) (h : (d.digits.log2 : Int) + 1 + 3 * d.scale < k) :
    d.toRat < 2 ^ (k - 1) := by
  have hscale : d.scale ≤ 0 := by omega
  have hpow : (10 : ℚ) ^ d.scale ≤ 8 ^ d.scale := by
    rw [← neg_neg d.scale, zpow_neg, zpow_neg 8]
    exact inv_anti₀ (by positivity) (zpow_le_zpow_left₀ (by omega) (by norm_num) (by norm_num))
  calc d.toRat ≤ d.digits * 8 ^ d.scale := by unfold Decimal.toRat; gcongr
    _ < 2 ^ ((d.digits.log2 : Int) + 1) * 8 ^ d.scale := by gcongr; exact lt_zpow_log2_succ d.digits
    _ = 2 ^ ((d.digits.log2 : Int) + 1 + 3 * d.scale) := by
      rw [zpow_add₀ two_ne_zero _ (3 * d.scale), zpow_mul]
      norm_num
    _ ≤ 2 ^ (k - 1) := zpow_le_zpow_right₀ one_le_two (by omega)

/-- A numeral is read as its value is rounded. -/
theorem ofDecimal_eq_ofRat (hf : Regular f) (negative : Bool) (d : Decimal) :
    (ofDecimal negative d : BinaryFloat f) = ofRat negative (signed negative d.toRat) := by
  unfold ofDecimal
  split
  · next h => simp [ofRat, signed, Decimal.toRat, h]
  · next hd =>
    split
    · next h => exact (ofRat_large negative negative (le_toRat_of_scale hd hf.greatest h)).symm
    · split
      · next h =>
        exact (ofRat_small hf.precision negative negative (toRat_pos hd) (toRat_lt_of_scale hf.least h)).symm
      · rfl

/-! ## Shortest numerals -/

theorem ofDecimal_of_candidate? {x : BinaryFloat f} {r : ℚ} {scale : Int} {d : Decimal}
    (h : candidate? x r scale = some d) : ofDecimal false d = x := by
  simp only [candidate?] at h
  split at h
  · next hbelow habove =>
    split at h
    · obtain rfl := Option.some.inj h
      simpa [readsAs] using hbelow
    · obtain rfl := Option.some.inj h
      simpa [readsAs] using habove
  · next hbelow _ =>
    obtain rfl := Option.some.inj h
    simpa [readsAs] using hbelow
  · next _ habove =>
    obtain rfl := Option.some.inj h
    simpa [readsAs] using habove
  · cases h

theorem toRat_exactDecimal (m : Nat) (e : Int) : (exactDecimal m e).toRat = m * 2 ^ e := by
  unfold exactDecimal Decimal.toRat
  split
  · next h =>
    obtain ⟨k, rfl⟩ := Int.eq_ofNat_of_zero_le h
    simp
  · next h =>
    obtain ⟨k, rfl⟩ := Int.exists_eq_neg_ofNat (not_le.mp h).le
    have h10 : (10 : ℚ) ^ k = 5 ^ k * 2 ^ k := by rw [← mul_pow]; norm_num
    simp [zpow_neg, h10]
    field_simp

/-- A shortest numeral of a number other than zero is read as it. -/
theorem ofDecimal_shortest (hf : Regular f) {m : Nat} {e : Int} (hm : 0 < m) (hc : f.Canonical m e) :
    ofDecimal false (shortest f m e) = .finite false m e hc := by
  unfold shortest
  simp only [ofParts_of_canonical false hc]
  cases hfind : List.findSome? _ (List.range' 1 17) with
  | none =>
    rw [Option.getD_none, ofDecimal_eq_ofRat hf, toRat_exactDecimal]
    exact ofRat_exact hf.precision false false hm hc
  | some d =>
    obtain ⟨k, -, hk⟩ := List.exists_of_findSome?_eq_some hfind
    exact ofDecimal_of_candidate? hk

theorem digits_shortest_ne_zero (hf : Regular f) {m : Nat} {e : Int} (hm : 0 < m) (hc : f.Canonical m e) :
    (shortest f m e).digits ≠ 0 := by
  intro hdigits
  have hzero : ofDecimal false (shortest f m e) = (zero false : BinaryFloat f) := if_pos hdigits
  obtain ⟨-, hm0, -⟩ := ofParts_eq_finite (hzero.symm.trans (ofDecimal_shortest hf hm hc))
  exact absurd hm0 hm.ne

/-- A number other than zero is read from every numeral of the value of a shortest one of it. -/
theorem ofDecimal_of_toRat_eq (hf : Regular f) {m : Nat} {e : Int} (hm : 0 < m) (hc : f.Canonical m e)
    (negative : Bool) {d : Decimal} (h : d.toRat = (shortest f m e).toRat) :
    ofDecimal negative d = .finite negative m e hc := by
  have hshortest := ofDecimal_shortest hf hm hc
  have hpos : 0 < (shortest f m e).toRat := toRat_pos (digits_shortest_ne_zero hf hm hc)
  rw [ofDecimal_eq_ofRat hf, ofRat_signed hpos] at hshortest
  rw [ofDecimal_eq_ofRat hf, h, ofRat_signed hpos]
  exact ofQuotient_of_finite hshortest negative

end LineLisp.BinaryFloat
