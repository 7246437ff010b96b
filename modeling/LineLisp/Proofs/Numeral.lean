/-
  LineLisp.Proofs.Numeral — the texts of numbers are read back as the same numbers. A float's
  text is a shortest numeral of it, laid out with a point or an exponent, so that it is no
  whole number; whichever layout it gets, its value is that of the numeral.
  - `Number.ofText?_int` and `Number.ofText?_float`: printing a number of the language and
    reading it gives the number.
  - `FloatLayout.decimal?_numeral`: a numeral is read with its value.
  - `Number.ofText?_cases`: what a number that was read can be; an infinite float is the only one
    whose text is no number.
-/

import LineLisp.Proofs.Literal
import LineLisp.Proofs.Scan

namespace LineLisp

/-! ## Digits -/

theorem isDigit_toDigits (n : Nat) : ∀ c ∈ Nat.toDigits 10 n, c.isDigit :=
  fun _ hc => Nat.isDigit_of_mem_toDigits (by decide) (by decide) hc

theorem isAtomChar_of_isDigit {c : Char} (h : c.isDigit) : Token.isAtomChar c := by
  by_contra hc
  rw [Bool.not_eq_true, Token.isAtomChar_eq_false_iff] at hc
  rcases hc with rfl | rfl | hsep
  · revert h; decide
  · revert h; decide
  · simp only [Token.isSeparator, Bool.or_eq_true, decide_eq_true_eq] at hsep
    rcases hsep with ((((rfl | rfl) | rfl) | rfl) | rfl) | rfl <;> revert h <;> decide

namespace Number

@[simp] theorem digitsValue_toDigits (n : Nat) : digitsValue (Nat.toDigits 10 n) = n :=
  Nat.ofDigitChars_ten_toDigits

theorem digitsValue_append_zeros (ds : List Char) (k : Nat) :
    digitsValue (ds ++ List.replicate k '0') = 10 ^ k * digitsValue ds := by
  rw [digitsValue_append, Nat.ofDigitChars_replicate_zero]

theorem digitsValue_zeros_append (k : Nat) (ds : List Char) :
    digitsValue (List.replicate k '0' ++ ds) = digitsValue ds := by
  rw [digitsValue_append, digitsValue, Nat.ofDigitChars_replicate_zero, Nat.mul_zero]
  rfl

/-- The sign of a text, none before a number that is not negative. -/
def sign (negative : Bool) : List Char := if negative then ['-'] else []

theorem isSign_sign (negative : Bool) : IsSign negative (sign negative) := by
  cases negative with
  | true => exact .minus
  | false => exact .none

theorem isAtomChar_of_mem_sign {negative : Bool} {c : Char} (h : c ∈ sign negative) : Token.isAtomChar c := by
  cases negative with
  | true => rw [List.mem_singleton.mp h]; decide
  | false => cases h

theorem splitSign_sign (negative : Bool) {c : Char} (hc : c.isDigit) (cs : List Char) :
    splitSign (sign negative ++ c :: cs) = (negative, c :: cs) := by
  refine (isSign_sign negative).split fun d hd => ?_
  obtain rfl : c = d := by simpa using hd
  exact ne_sign_of_isDigit hc

/-! ## Whole numbers -/

theorem toList_toString_int (n : Int) :
    (toString n).toList = sign (decide (n < 0)) ++ Nat.toDigits 10 n.natAbs := by
  cases n with
  | ofNat k => simp [sign, Int.repr, Nat.repr]
  | negSucc k => simp [sign, Int.repr, Nat.repr, Int.negSucc_lt_zero]

theorem isWhole_toString (n : Int) : IsWhole (toString n).toList n := by
  have hwhole := IsWhole.intro (isSign_sign (decide (n < 0))) Nat.toDigits_ne_nil (isDigit_toDigits n.natAbs)
  have hvalue : signedInt (decide (n < 0)) n.natAbs = n := by
    by_cases hn : n < 0
    · rw [decide_eq_true hn, signedInt_true]
      omega
    · rw [decide_eq_false hn, signedInt_false]
      omega
  rwa [← toList_toString_int, ← digitsValue_eq_placeValue, digitsValue_toDigits, hvalue] at hwhole

theorem integer?_of_not_isDigit {cs unsigned : List Char} {negative : Bool}
    (hs : splitSign cs = (negative, unsigned)) {c : Char} (hc : c ∈ unsigned) (hdigit : ¬ c.isDigit) :
    integer? cs = none := by
  simp only [integer?, hs]
  exact if_neg fun h => hdigit (List.all_eq_true.mp h.2 c hc)

/-- The text of an int is read as the int. -/
theorem ofText?_int (i : Int32) : ofText? (int i).text = some (int i) :=
  ofText?_eq_int_iff.mpr (isWhole_toString i.toInt)

end Number

/-! ## Layouts -/

namespace FloatLayout

/-- The digits of a number without the zeros at their end. -/
def significant (n : Nat) : List Char := ((Nat.toDigits 10 n).reverse.dropWhile (· = '0')).reverse

theorem toDigits_eq_significant (n : Nat) :
    Nat.toDigits 10 n =
      significant n ++ List.replicate ((Nat.toDigits 10 n).length - (significant n).length) '0' := by
  obtain ⟨k, hk⟩ : ∃ k, Nat.toDigits 10 n = significant n ++ List.replicate k '0' := by
    have hsplit := List.takeWhile_append_dropWhile (p := (· = '0')) (l := (Nat.toDigits 10 n).reverse)
    have hzeros : ∀ c ∈ (Nat.toDigits 10 n).reverse.takeWhile (· = '0'), c = '0' := by
      intro c hc
      simpa using List.mem_takeWhile_imp hc
    rw [List.eq_replicate_of_mem hzeros] at hsplit
    refine ⟨((Nat.toDigits 10 n).reverse.takeWhile (· = '0')).length, ?_⟩
    have h := congrArg List.reverse hsplit
    rw [List.reverse_append, List.reverse_reverse, List.reverse_replicate] at h
    exact h.symm
  have hlen : (Nat.toDigits 10 n).length - (significant n).length = k := by
    rw [hk, List.length_append, List.length_replicate, Nat.add_sub_cancel_left]
  rw [hlen]
  exact hk

theorem isDigit_significant (n : Nat) : ∀ c ∈ significant n, c.isDigit := by
  intro c hc
  refine isDigit_toDigits n c ?_
  rw [toDigits_eq_significant n]
  exact List.mem_append_left _ hc

/-- The zeros at the end count as a power of ten. -/
theorem value_significant (n : Nat) :
    n = 10 ^ ((Nat.toDigits 10 n).length - (significant n).length) * Number.digitsValue (significant n) := by
  rw [← Number.digitsValue_append_zeros, ← toDigits_eq_significant, Number.digitsValue_toDigits]

theorem significant_ne_nil {n : Nat} (hn : n ≠ 0) : significant n ≠ [] := by
  intro h
  have hvalue := value_significant n
  rw [h] at hvalue
  exact hn (by simpa [Number.digitsValue] using hvalue)

theorem isDigit_zeros (k : Nat) : ∀ c ∈ List.replicate k '0', c.isDigit := by
  intro c hc
  rw [List.eq_of_mem_replicate hc]
  decide

/-- A numeral with the point in its place is digits, the point and digits, and its value is that of
    the given digits at their scale. -/
theorem positional_cases {digits : List Char} (hdigits : ∀ c ∈ digits, c.isDigit) (hne : digits ≠ [])
    (scale : Int) : ∃ whole fraction : List Char, positional digits scale = whole ++ '.' :: fraction ∧ whole ≠ [] ∧
      (∀ c ∈ whole, c.isDigit) ∧ (∀ c ∈ fraction, c.isDigit) ∧
        (Number.digitsValue (whole ++ fraction) : ℚ) * 10 ^ (-(fraction.length : Int)) =
          Number.digitsValue digits * 10 ^ scale := by
  unfold positional
  split
  · next h =>
    obtain ⟨k, rfl⟩ := Int.eq_ofNat_of_zero_le h
    refine ⟨digits ++ List.replicate k '0', ['0'], rfl, by simp [hne],
      List.forall_mem_append.mpr ⟨hdigits, isDigit_zeros k⟩, isDigit_zeros 1, ?_⟩
    have hvalue : Number.digitsValue (digits ++ List.replicate k '0' ++ ['0']) =
        10 ^ (k + 1) * Number.digitsValue digits := by
      rw [List.append_assoc, show ['0'] = List.replicate 1 '0' from rfl, List.replicate_append_replicate,
        Number.digitsValue_append_zeros]
    rw [hvalue, List.length_singleton]
    push_cast
    rw [pow_succ]
    simp [zpow_neg]
    ring
  · next h =>
    obtain ⟨k, hk⟩ : ∃ k : Nat, scale = -(k : Int) := Int.exists_eq_neg_ofNat (not_le.mp h).le
    subst hk
    simp only [neg_neg, Int.toNat_natCast]
    generalize hpadded : List.replicate (k + 1 - digits.length) '0' ++ digits = padded
    have hlen : k < padded.length := by
      rw [← hpadded, List.length_append, List.length_replicate]
      omega
    have hall : ∀ c ∈ padded, c.isDigit := by
      rw [← hpadded]
      exact List.forall_mem_append.mpr ⟨isDigit_zeros _, hdigits⟩
    have htake : padded.take (padded.length - k) ≠ [] := by
      rw [← List.length_pos_iff, List.length_take]
      omega
    refine ⟨_, _, rfl, htake, fun c hc => hall c (List.mem_of_mem_take hc),
      fun c hc => hall c (List.mem_of_mem_drop hc), ?_⟩
    have hvalue : Number.digitsValue padded = Number.digitsValue digits := by
      rw [← hpadded, Number.digitsValue_zeros_append]
    have hscale : (padded.length - (padded.length - k) : Nat) = k := by omega
    rw [List.take_append_drop, hvalue, List.length_drop, hscale]

/-- Where a numeral has a point in its place, its value is that of its digits at their scale. -/
theorem decimal?_positional {cs digits : List Char} {scale : Int} {negative : Bool}
    (hdigits : ∀ c ∈ digits, c.isDigit) (hne : digits ≠ [])
    (hs : Number.splitSign cs = (negative, positional digits scale)) :
    ∃ d : Decimal, Number.decimal? cs = some (negative, d) ∧ d.toRat = Number.digitsValue digits * 10 ^ scale := by
  obtain ⟨whole, fraction, hpositional, hwhole, hdw, hdf, hvalue⟩ := positional_cases hdigits hne scale
  have hsplit : Number.splitSign cs = (negative, whole ++ '.' :: (fraction ++ [])) := by
    rw [hs, hpositional, List.append_nil]
  refine ⟨_, Number.decimal?_point hsplit (.inl hwhole) hdw hdf rfl, ?_⟩
  rw [← hvalue, Decimal.toRat, zero_sub]

/-- Where a numeral has an exponent, its value is that of its digits with the point after the
    first of them. -/
theorem decimal?_scientific {cs digits : List Char} {exponent : Int} {negative : Bool}
    (hdigits : ∀ c ∈ digits, c.isDigit) (hne : digits ≠ [])
    (hs : Number.splitSign cs = (negative, scientific digits exponent)) :
    ∃ d : Decimal, Number.decimal? cs = some (negative, d) ∧
      d.toRat = Number.digitsValue digits * 10 ^ (exponent - digits.length + 1) := by
  obtain ⟨c, rest, rfl⟩ := List.exists_cons_of_ne_nil hne
  obtain ⟨hc, hrest⟩ := List.forall_mem_cons.mp hdigits
  have hexponent : Number.exponent? ('e' :: (toString exponent).toList) = some exponent := by
    exact Number.exponent?_eq_some_iff.mpr (.whole (.inl rfl) (Number.isWhole_toString exponent))
  have hfirst : ∀ d ∈ [c], d.isDigit := by simpa using hc
  cases rest with
  | nil =>
    have hsplit : Number.splitSign cs = (negative, [c] ++ 'e' :: (toString exponent).toList) := hs
    refine ⟨_, Number.decimal?_no_point hsplit (List.cons_ne_nil _ _) hfirst hexponent, ?_⟩
    simp [Decimal.toRat]
  | cons d rest =>
    have hsplit : Number.splitSign cs =
        (negative, [c] ++ '.' :: ((d :: rest) ++ 'e' :: (toString exponent).toList)) := by
      rw [hs]
      simp [scientific]
    refine ⟨_, Number.decimal?_point hsplit (.inl (List.cons_ne_nil _ _)) hfirst hrest hexponent, ?_⟩
    have hscale : exponent - ((d :: rest).length : Int) = exponent - ((c :: d :: rest).length : Int) + 1 := by
      simp only [List.length_cons]
      omega
    simp only [Decimal.toRat, List.singleton_append, hscale]

/-- The text of a numeral is one of the two, and its value is that of the digits left in it. -/
theorem numeral_cases (layout : FloatLayout) (d : Decimal) :
    ∃ scale : Int, d.toRat = Number.digitsValue (significant d.digits) * 10 ^ scale ∧
      (layout.numeral d = positional (significant d.digits) scale ∨
        layout.numeral d = scientific (significant d.digits) (scale + (significant d.digits).length - 1)) := by
  generalize hk : (Nat.toDigits 10 d.digits).length - (significant d.digits).length = k
  refine ⟨d.scale + k, ?_, ?_⟩
  · have h := value_significant d.digits
    rw [hk] at h
    rw [Decimal.toRat, zpow_add₀ (by norm_num : (10 : ℚ) ≠ 0), zpow_natCast]
    conv_lhs => rw [h]
    push_cast
    ring
  · have hnumeral : layout.numeral d =
        if layout.least ≤ d.scale + k + (significant d.digits).length - 1 ∧
            d.scale + k + (significant d.digits).length - 1 ≤ layout.greatest then
          positional (significant d.digits) (d.scale + k)
        else scientific (significant d.digits) (d.scale + k + (significant d.digits).length - 1) := by
      rw [← hk]
      rfl
    rw [hnumeral]
    split
    · exact .inl rfl
    · exact .inr rfl

/-- A numeral other than zero is read with its value, whichever the layout. -/
theorem decimal?_numeral (layout : FloatLayout) {cs : List Char} {negative : Bool} {d : Decimal}
    (hd : d.digits ≠ 0) (hs : Number.splitSign cs = (negative, layout.numeral d)) :
    ∃ d' : Decimal, Number.decimal? cs = some (negative, d') ∧ d'.toRat = d.toRat := by
  have hne := significant_ne_nil hd
  have hdigits := isDigit_significant d.digits
  obtain ⟨scale, hvalue, hnumeral | hnumeral⟩ := layout.numeral_cases d
  · obtain ⟨d', hread, hd'⟩ := decimal?_positional hdigits hne (hnumeral ▸ hs)
    exact ⟨d', hread, hd'.trans hvalue.symm⟩
  · obtain ⟨d', hread, hd'⟩ := decimal?_scientific hdigits hne (hnumeral ▸ hs)
    refine ⟨d', hread, hd'.trans ?_⟩
    rw [hvalue]
    congr 2
    omega

/-- Digits, then a point or an exponent, and nothing that may not stand in an atom. -/
def Marked (cs : List Char) : Prop :=
  ∃ whole mark rest, cs = whole ++ mark :: rest ∧ whole ≠ [] ∧ (∀ c ∈ whole, c.isDigit) ∧ ¬ mark.isDigit ∧
    ∀ c ∈ mark :: rest, Token.isAtomChar c

theorem marked_positional {digits : List Char} (hdigits : ∀ c ∈ digits, c.isDigit) (hne : digits ≠ [])
    (scale : Int) : Marked (positional digits scale) := by
  obtain ⟨whole, fraction, hpositional, hwhole, hdw, hdf, -⟩ := positional_cases hdigits hne scale
  have hrest : ∀ c ∈ '.' :: fraction, Token.isAtomChar c :=
    List.forall_mem_cons.mpr ⟨by decide, fun c hc => isAtomChar_of_isDigit (hdf c hc)⟩
  exact ⟨whole, '.', fraction, hpositional, hwhole, hdw, by decide, hrest⟩

theorem marked_scientific {digits : List Char} (hdigits : ∀ c ∈ digits, c.isDigit) (hne : digits ≠ [])
    (exponent : Int) : Marked (scientific digits exponent) := by
  obtain ⟨c, rest, rfl⟩ := List.exists_cons_of_ne_nil hne
  obtain ⟨hc, hrest⟩ := List.forall_mem_cons.mp hdigits
  have hfirst : ∀ d ∈ [c], d.isDigit := by simpa using hc
  have hexponent : ∀ x ∈ 'e' :: (toString exponent).toList, Token.isAtomChar x := by
    rw [Number.toList_toString_int]
    refine List.forall_mem_cons.mpr ⟨by decide, List.forall_mem_append.mpr ⟨?_, fun x hx => ?_⟩⟩
    · exact fun _ => Number.isAtomChar_of_mem_sign
    · exact isAtomChar_of_isDigit (isDigit_toDigits _ x hx)
  cases rest with
  | nil => exact ⟨[c], 'e', _, rfl, List.cons_ne_nil _ _, hfirst, by decide, hexponent⟩
  | cons d rest =>
    refine ⟨[c], '.', (d :: rest) ++ 'e' :: (toString exponent).toList, by simp [scientific],
      List.cons_ne_nil _ _, hfirst, by decide, ?_⟩
    refine List.forall_mem_cons.mpr ⟨by decide, List.forall_mem_append.mpr ⟨fun x hx => ?_, hexponent⟩⟩
    exact isAtomChar_of_isDigit (hrest x hx)

theorem marked_numeral (layout : FloatLayout) {d : Decimal} (hd : d.digits ≠ 0) : Marked (layout.numeral d) := by
  have hne := significant_ne_nil hd
  have hdigits := isDigit_significant d.digits
  obtain ⟨scale, -, hnumeral | hnumeral⟩ := layout.numeral_cases d
  · rw [hnumeral]
    exact marked_positional hdigits hne scale
  · rw [hnumeral]
    exact marked_scientific hdigits hne _

theorem Marked.splitSign {cs : List Char} (h : Marked cs) (negative : Bool) :
    Number.splitSign (Number.sign negative ++ cs) = (negative, cs) := by
  obtain ⟨whole, mark, rest, rfl, hne, hwhole, -, -⟩ := h
  obtain ⟨c, whole, rfl⟩ := List.exists_cons_of_ne_nil hne
  exact Number.splitSign_sign negative (hwhole c List.mem_cons_self) _

/-- It is no whole number. -/
theorem Marked.integer? {cs : List Char} (h : Marked cs) (negative : Bool) :
    Number.integer? (Number.sign negative ++ cs) = none := by
  have hsplit := h.splitSign negative
  obtain ⟨whole, mark, rest, rfl, -, -, hmark, -⟩ := h
  exact Number.integer?_of_not_isDigit hsplit (by simp) hmark

theorem Marked.isWord {cs : List Char} (h : Marked cs) (negative : Bool) :
    IsWord (Number.sign negative ++ cs) := by
  obtain ⟨whole, mark, rest, rfl, -, hwhole, -, hrest⟩ := h
  refine ⟨by simp, List.forall_mem_append.mpr ⟨?_, List.forall_mem_append.mpr ⟨fun c hc => ?_, hrest⟩⟩⟩
  · exact fun _ => Number.isAtomChar_of_mem_sign
  · exact isAtomChar_of_isDigit (hwhole c hc)

end FloatLayout

/-! ## Floats -/

namespace BinaryFloat

theorem toList_text {f : FloatFormat} (x : BinaryFloat f) :
    x.text.toList = Number.sign x.isNegative ++ (x.magnitudeText .standard).toList := by
  unfold text Number.sign
  split <;> simp

theorem marked_magnitudeText (negative : Bool) {m : Nat} {e : Int} (hc : FloatFormat.single.Canonical m e) :
    FloatLayout.Marked ((finite negative m e hc).magnitudeText .standard).toList := by
  by_cases hm : m = 0
  · have htext : ((finite negative m e hc).magnitudeText .standard).toList = ['0', '.', '0'] := by
      simp [magnitudeText, hm]
    rw [htext]
    exact ⟨['0'], '.', ['0'], rfl, by simp, by simp, by decide, by simp [Token.isAtomChar, Token.isSeparator]⟩
  · have hdigits := digits_shortest_ne_zero regular_single (Nat.pos_of_ne_zero hm) hc
    simp only [magnitudeText, hm, if_false, String.toList_ofList]
    exact FloatLayout.marked_numeral .standard hdigits

/-- The magnitude of a finite float is read as it, with any sign before it. -/
theorem decimal?_magnitudeText (negative : Bool) {m : Nat} {e : Int} (hc : FloatFormat.single.Canonical m e) :
    ∃ d : Decimal,
      Number.decimal? (Number.sign negative ++ ((finite negative m e hc).magnitudeText .standard).toList) =
        some (negative, d) ∧ ofDecimal negative d = finite negative m e hc := by
  have hsplit := (marked_magnitudeText negative hc).splitSign negative
  by_cases hm : m = 0
  · subst hm
    have htext : ((finite negative 0 e hc).magnitudeText .standard).toList = ['0'] ++ '.' :: (['0'] ++ []) := by
      simp [magnitudeText]
    rw [htext] at hsplit ⊢
    have hzero : ∀ c ∈ ['0'], c.isDigit := by simp
    -- Zero has only one representation, at the least exponent.
    refine ⟨_, Number.decimal?_point hsplit (.inl (by simp)) hzero hzero rfl, ?_⟩
    rcases hc.2.2 with rfl | ⟨-, hlow⟩
    · exact ofParts_of_canonical negative hc
    · exact absurd hlow (by decide)
  · have hpos := Nat.pos_of_ne_zero hm
    simp only [magnitudeText, hm, if_false, String.toList_ofList] at hsplit ⊢
    have hdigits := digits_shortest_ne_zero regular_single hpos hc
    obtain ⟨d, hd, hvalue⟩ := FloatLayout.decimal?_numeral .standard hdigits hsplit
    exact ⟨d, hd, ofDecimal_of_toRat_eq regular_single hpos hc negative hvalue⟩

end BinaryFloat

namespace Number

/-- The text of a finite float is read as the float. -/
theorem ofText?_float (negative : Bool) {m : Nat} {e : Int} (hc : FloatFormat.single.Canonical m e) :
    ofText? (float (.finite negative m e hc)).text = some (float (.finite negative m e hc)) := by
  have htext : (float (.finite negative m e hc)).text.toList =
      sign negative ++ ((BinaryFloat.finite negative m e hc).magnitudeText .standard).toList :=
    BinaryFloat.toList_text _
  obtain ⟨d, hd, hvalue⟩ := BinaryFloat.decimal?_magnitudeText negative hc
  unfold ofText?
  simp only [htext, (BinaryFloat.marked_magnitudeText negative hc).integer?, hd, Option.map_some, hvalue]

/-! ## What is written for a number -/

theorem ofDecimal_ne_nan (negative : Bool) (d : Decimal) : (.ofDecimal negative d : Single) ≠ .nan := by
  have hparts (s : Bool) (m : Nat) (e : Int) : (.ofParts s m e : Single) ≠ .nan := by
    unfold BinaryFloat.ofParts
    split <;> simp
  rw [BinaryFloat.ofDecimal_eq_ofRat BinaryFloat.regular_single]
  unfold BinaryFloat.ofRat
  split
  · exact hparts _ _ _
  · unfold BinaryFloat.ofQuotient
    simp only []
    split
    · exact hparts _ _ _
    · exact hparts _ _ _

/-- What is written for a number is an int, or a float that is no NaN. -/
theorem ofText?_cases {s : String} {n : Number} (h : ofText? s = some n) :
    (∃ i, n = int i) ∨ (∃ negative m e hc, n = float (.finite negative m e hc)) ∨
      ∃ negative, n = float (.infinite negative) := by
  have hfloat (h : (decimal? s.toList).map (fun p => float (.ofDecimal p.1 p.2)) = some n) :
      (∃ negative m e hc, n = float (.finite negative m e hc)) ∨ ∃ negative, n = float (.infinite negative) := by
    obtain ⟨⟨negative, d⟩, -, rfl⟩ := Option.map_eq_some_iff.mp h
    simp only []
    cases hx : (.ofDecimal negative d : Single) with
    | nan => exact absurd hx (ofDecimal_ne_nan negative d)
    | infinite s => exact .inr ⟨s, rfl⟩
    | finite s m e hc => exact .inl ⟨s, m, e, hc, rfl⟩
  simp only [ofText?] at h
  split at h
  · split at h
    · exact .inl ⟨_, (Option.some.inj h).symm⟩
    · exact .inr (hfloat h)
  · exact .inr (hfloat h)

theorem isWord_text_int (i : Int32) : IsWord (int i).text.toList := by
  show IsWord (toString i.toInt).toList
  rw [toList_toString_int]
  refine ⟨by simp, List.forall_mem_append.mpr ⟨fun _ => isAtomChar_of_mem_sign, fun c hc => ?_⟩⟩
  exact isAtomChar_of_isDigit (isDigit_toDigits _ c hc)

theorem isWord_text_float (negative : Bool) {m : Nat} {e : Int} (hc : FloatFormat.single.Canonical m e) :
    IsWord (float (.finite negative m e hc)).text.toList := by
  show IsWord (BinaryFloat.finite negative m e hc).text.toList
  rw [BinaryFloat.toList_text]
  exact (BinaryFloat.marked_magnitudeText negative hc).isWord negative

theorem text_infinite (negative : Bool) :
    (float (.infinite negative)).text = if negative then "-Infinity" else "Infinity" := by
  cases negative <;> rfl

/-- The words for the infinities are no numbers. -/
theorem ofText?_infinite (negative : Bool) : ofText? (float (.infinite negative)).text = none := by
  cases negative <;> rfl

theorem isWord_text_infinite (negative : Bool) : IsWord (float (.infinite negative)).text.toList := by
  cases negative <;> exact ⟨by simp [text_infinite], by simp [text_infinite, Token.isAtomChar, Token.isSeparator]⟩

end Number

end LineLisp
