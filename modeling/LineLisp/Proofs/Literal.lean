/-
  LineLisp.Proofs.Literal — which texts are numbers, and which ones. The grammar is stated by
  itself: an int is a sign or none and digits, whose value has 32 bits; any other number is a
  float, with a point or an exponent or too large for an int.
  - `Number.IsWhole`, `Number.IsReal`: the texts of whole and of real numbers, and their values.
  - `Number.integer?_eq_some_iff`, `Number.decimal?_eq_some`, `Number.isReal_of_decimal?`: the
    numbers of these texts are read, and no others.
  - `Number.ofStages?`: the same numbers one representation after the other: 32 bits digit by digit,
    then single precision for a text with a digit, then double precision.
  - `numbers_by_grammar`: a text is read as its number in the grammar, and as a symbol if it has none;
    double precision never has its turn.
-/

import LineLisp.Reader
import LineLisp.Proofs.Rounding

namespace LineLisp

namespace Number

/-! ## The grammar -/

/-- A sign or none, and whether it is a minus. -/
inductive IsSign : Bool → List Char → Prop
  | none : IsSign false []
  | plus : IsSign false ['+']
  | minus : IsSign true ['-']

/-- The value of digits, each counted by its place. -/
def placeValue : List Char → Nat
  | [] => 0
  | d :: ds => (d.toNat - '0'.toNat) * 10 ^ ds.length + placeValue ds

/-- The whole number of this sign and magnitude. -/
def signedInt (negative : Bool) (n : Nat) : Int := if negative then -n else n

@[simp] theorem signedInt_zero (negative : Bool) : signedInt negative 0 = 0 := by cases negative <;> rfl

@[simp] theorem signedInt_false (n : Nat) : signedInt false n = n := rfl

@[simp] theorem signedInt_true (n : Nat) : signedInt true n = -n := rfl

/-- A sign or none, then one or more digits, and their value. -/
inductive IsWhole : List Char → Int → Prop
  | intro {negative : Bool} {sign ds : List Char} : IsSign negative sign → ds ≠ [] → (∀ d ∈ ds, d.isDigit) →
      IsWhole (sign ++ ds) (signedInt negative (placeValue ds))

/-- A whole number that 32 bits hold. -/
def IsInt (cs : List Char) (n : Int) : Prop := IsWhole cs n ∧ -2 ^ 31 ≤ n ∧ n ≤ 2 ^ 31 - 1

/-- Digits, a point and digits, where one side may have none of them; or digits only. -/
inductive IsMantissa : List Char → List Char → List Char → Prop
  | digits {whole : List Char} : whole ≠ [] → (∀ d ∈ whole, d.isDigit) → IsMantissa whole whole []
  | point {whole fraction : List Char} : whole ≠ [] ∨ fraction ≠ [] → (∀ d ∈ whole, d.isDigit) →
      (∀ d ∈ fraction, d.isDigit) → IsMantissa (whole ++ '.' :: fraction) whole fraction

/-- Nothing, or `e` or `E` and a whole number. -/
inductive IsExponent : List Char → Int → Prop
  | none : IsExponent [] 0
  | whole {c : Char} {cs : List Char} {e : Int} : c = 'e' ∨ c = 'E' → IsWhole cs e → IsExponent (c :: cs) e

/-- A sign or none, a mantissa and an exponent or none: whether the sign is a minus, and the magnitude. -/
inductive IsReal : List Char → Bool → ℚ → Prop
  | intro {negative : Bool} {sign mantissa whole fraction exponent : List Char} {e : Int} :
      IsSign negative sign → IsMantissa mantissa whole fraction → IsExponent exponent e →
        IsReal (sign ++ (mantissa ++ exponent)) negative
          ((placeValue whole + placeValue fraction / 10 ^ fraction.length) * 10 ^ e)

/-! ## Values -/

theorem digitsValue_append (ds es : List Char) :
    digitsValue (ds ++ es) = Nat.ofDigitChars 10 es (digitsValue ds) :=
  Nat.ofDigitChars_append 0

theorem digitsValue_append_eq (ds es : List Char) :
    digitsValue (ds ++ es) = digitsValue ds * 10 ^ es.length + digitsValue es := by
  rw [digitsValue_append, Nat.ofDigitChars_eq_ofDigitChars_zero, Nat.mul_comm]
  rfl

theorem digitsValue_eq_placeValue (ds : List Char) : digitsValue ds = placeValue ds := by
  induction ds with
  | nil => rfl
  | cons d ds ih =>
    have hd : digitsValue [d] = d.toNat - '0'.toNat := by simp [digitsValue, Nat.ofDigitChars_cons]
    rw [placeValue, ← ih, ← hd, ← digitsValue_append_eq, List.singleton_append]

/-- The digits before and after the point are those of one numeral. -/
theorem toRat_digits (whole fraction : List Char) (e : Int) :
    (⟨digitsValue (whole ++ fraction), e - fraction.length⟩ : Decimal).toRat =
      (placeValue whole + placeValue fraction / 10 ^ fraction.length) * 10 ^ e := by
  rw [Decimal.toRat, digitsValue_append_eq, digitsValue_eq_placeValue, digitsValue_eq_placeValue,
    zpow_sub₀ (by norm_num), zpow_natCast]
  push_cast
  field_simp

/-! ## Signs -/

theorem IsSign.split {negative : Bool} {sign cs : List Char} (h : IsSign negative sign)
    (hcs : ∀ c ∈ cs.head?, c ≠ '+' ∧ c ≠ '-') : splitSign (sign ++ cs) = (negative, cs) := by
  cases h with
  | plus => rfl
  | minus => rfl
  | none =>
    rw [List.nil_append]
    unfold splitSign
    split
    · exact absurd rfl (hcs '-' rfl).2
    · exact absurd rfl (hcs '+' rfl).1
    · rfl

theorem exists_sign (cs : List Char) : ∃ sign, IsSign (splitSign cs).1 sign ∧ cs = sign ++ (splitSign cs).2 := by
  unfold splitSign
  split
  · exact ⟨['-'], .minus, rfl⟩
  · exact ⟨['+'], .plus, rfl⟩
  · exact ⟨[], .none, rfl⟩

theorem ne_sign_of_isDigit {c : Char} (h : c.isDigit) : c ≠ '+' ∧ c ≠ '-' := by
  constructor <;> rintro rfl <;> revert h <;> decide

theorem IsSign.split_digits {negative : Bool} {sign ds : List Char} (h : IsSign negative sign)
    (hds : ∀ d ∈ ds, d.isDigit) : splitSign (sign ++ ds) = (negative, ds) :=
  h.split fun c hc => ne_sign_of_isDigit (hds c (List.mem_of_mem_head? hc))

/-! ## Whole numbers and exponents -/

theorem integer?_eq_some_iff {cs : List Char} {n : Int} : integer? cs = some n ↔ IsWhole cs n := by
  constructor
  · intro h
    obtain ⟨sign, hsign, hcs⟩ := exists_sign cs
    simp only [integer?] at h
    split at h
    · next hdigits =>
      rw [digitsValue_eq_placeValue] at h
      obtain rfl := Option.some.inj h
      have hwhole := IsWhole.intro hsign hdigits.1 (List.all_eq_true.mp hdigits.2)
      rwa [← hcs] at hwhole
    · cases h
  · rintro ⟨hsign, hne, hds⟩
    simp only [integer?, hsign.split_digits hds, digitsValue_eq_placeValue]
    exact if_pos ⟨hne, List.all_eq_true.mpr hds⟩

theorem exponent?_eq_some_iff {cs : List Char} {e : Int} : exponent? cs = some e ↔ IsExponent cs e := by
  constructor
  · intro h
    cases cs with
    | nil =>
      obtain rfl := Option.some.inj h
      exact .none
    | cons c cs =>
      rw [exponent?] at h
      split at h
      · next hc => exact .whole hc (integer?_eq_some_iff.mp h)
      · cases h
  · intro h
    cases h with
    | none => rfl
    | whole hc hcs => rw [exponent?, if_pos hc, integer?_eq_some_iff.mpr hcs]

/-! ## Numerals -/

theorem takeWhile_dropWhile_isDigit {ds rest : List Char} (hds : ∀ c ∈ ds, c.isDigit)
    (hrest : ∀ c ∈ rest.head?, ¬ c.isDigit) :
    (ds ++ rest).takeWhile Char.isDigit = ds ∧ (ds ++ rest).dropWhile Char.isDigit = rest := by
  have hstop : rest.takeWhile Char.isDigit = [] ∧ rest.dropWhile Char.isDigit = rest := by
    cases rest with
    | nil => exact ⟨rfl, rfl⟩
    | cons c cs => simp [hrest c rfl]
  rw [List.takeWhile_append_of_pos hds, List.dropWhile_append_of_pos hds, hstop.1, hstop.2, List.append_nil]
  exact ⟨rfl, rfl⟩

theorem head_of_exponent? {rest : List Char} {e : Int} (h : exponent? rest = some e) :
    ∀ c ∈ rest.head?, c = 'e' ∨ c = 'E' := by
  intro c hc
  obtain ⟨cs, rfl⟩ := List.head?_eq_some_iff.mp hc
  rw [exponent?] at h
  split at h
  · assumption
  · cases h

theorem not_isDigit_head_of_exponent? {rest : List Char} {e : Int} (h : exponent? rest = some e) :
    ∀ c ∈ rest.head?, ¬ c.isDigit := by
  intro c hc
  rcases head_of_exponent? h c hc with rfl | rfl <;> decide

/-- A numeral with a point. -/
theorem decimal?_point {cs whole fraction rest : List Char} {negative : Bool} {e : Int}
    (hs : splitSign cs = (negative, whole ++ '.' :: (fraction ++ rest))) (hne : whole ≠ [] ∨ fraction ≠ [])
    (hwhole : ∀ c ∈ whole, c.isDigit) (hfraction : ∀ c ∈ fraction, c.isDigit) (he : exponent? rest = some e) :
    decimal? cs = some (negative, ⟨digitsValue (whole ++ fraction), e - fraction.length⟩) := by
  have hpoint : ∀ c ∈ ('.' :: (fraction ++ rest)).head?, ¬ c.isDigit := by
    intro c hc
    obtain rfl : '.' = c := by simpa using hc
    decide
  obtain ⟨htake, hdrop⟩ := takeWhile_dropWhile_isDigit hwhole hpoint
  obtain ⟨htake', hdrop'⟩ := takeWhile_dropWhile_isDigit hfraction (not_isDigit_head_of_exponent? he)
  have hdigits : ¬ (whole = [] ∧ fraction = []) := not_and_or.mpr hne
  simp only [decimal?, hs, htake, hdrop, splitFraction, htake', hdrop', hdigits, if_false, he, Option.map_some]

/-- A numeral without a point. -/
theorem decimal?_no_point {cs whole rest : List Char} {negative : Bool} {e : Int}
    (hs : splitSign cs = (negative, whole ++ rest)) (hne : whole ≠ []) (hwhole : ∀ c ∈ whole, c.isDigit)
    (he : exponent? rest = some e) : decimal? cs = some (negative, ⟨digitsValue whole, e⟩) := by
  obtain ⟨htake, hdrop⟩ := takeWhile_dropWhile_isDigit hwhole (not_isDigit_head_of_exponent? he)
  have hfraction : splitFraction rest = ([], rest) := by
    unfold splitFraction
    split
    · exact absurd (head_of_exponent? he '.' rfl) (by decide)
    · rfl
  simp [decimal?, hs, htake, hdrop, hfraction, hne, he]

/-! ## Real numbers -/

theorem IsMantissa.head {mantissa whole fraction : List Char} (h : IsMantissa mantissa whole fraction)
    (rest : List Char) : ∀ c ∈ (mantissa ++ rest).head?, c ≠ '+' ∧ c ≠ '-' := by
  intro c hc
  have hdigit {ds : List Char} {d : Char} (hds : ∀ x ∈ d :: ds, x.isDigit) (hd : d = c) : c ≠ '+' ∧ c ≠ '-' :=
    ne_sign_of_isDigit (hd ▸ hds d List.mem_cons_self)
  cases h with
  | digits hne hwhole =>
    obtain ⟨d, ds, rfl⟩ := List.exists_cons_of_ne_nil hne
    exact hdigit hwhole (by simpa using hc)
  | point _ hwhole =>
    cases whole with
    | nil =>
      obtain rfl : '.' = c := by simpa using hc
      decide
    | cons d ds => exact hdigit hwhole (by simpa using hc)

/-- The text of a real number is read as a numeral of its value. -/
theorem decimal?_eq_some {cs : List Char} {negative : Bool} {r : ℚ} (h : IsReal cs negative r) :
    ∃ d : Decimal, decimal? cs = some (negative, d) ∧ d.toRat = r := by
  obtain @⟨_, _, _, _, _, exponent, _, hsign, hmantissa, hexponent⟩ := h
  have hsplit := hsign.split (hmantissa.head exponent)
  have he := exponent?_eq_some_iff.mpr hexponent
  cases hmantissa with
  | digits hne hwhole =>
    refine ⟨_, decimal?_no_point hsplit hne hwhole he, ?_⟩
    simpa using toRat_digits _ [] _
  | point hne hwhole hfraction =>
    rw [List.append_assoc, List.cons_append] at hsplit ⊢
    exact ⟨_, decimal?_point hsplit hne hwhole hfraction he, toRat_digits _ _ _⟩

/-- Digits and the fraction behind them are a mantissa, if there are any digits. -/
theorem exists_mantissa {whole after : List Char} (hwhole : ∀ d ∈ whole, d.isDigit)
    (hne : ¬ (whole = [] ∧ (splitFraction after).1 = [])) :
    ∃ mantissa, IsMantissa mantissa whole (splitFraction after).1 ∧
      whole ++ after = mantissa ++ (splitFraction after).2 := by
  revert hne
  unfold splitFraction
  split
  · next rest =>
    intro hne
    have hfraction : ∀ d ∈ rest.takeWhile Char.isDigit, d.isDigit := fun _ => List.mem_takeWhile_imp
    refine ⟨_, .point (not_and_or.mp hne) hwhole hfraction, ?_⟩
    rw [List.append_assoc, List.cons_append, List.takeWhile_append_dropWhile]
  · intro hne
    exact ⟨whole, .digits (fun h => hne ⟨h, rfl⟩) hwhole, rfl⟩

/-- Only the text of a real number is read as a numeral. -/
theorem isReal_of_decimal? {cs : List Char} {negative : Bool} {d : Decimal}
    (h : decimal? cs = some (negative, d)) : IsReal cs negative d.toRat := by
  obtain ⟨sign, hsign, hcs⟩ := exists_sign cs
  simp only [decimal?] at h
  split at h
  · cases h
  · next hne =>
    obtain ⟨e, he, heq⟩ := Option.map_eq_some_iff.mp h
    obtain ⟨rfl, rfl⟩ := Prod.mk.inj heq
    obtain ⟨mantissa, hmantissa, hunsigned⟩ := exists_mantissa (fun _ => List.mem_takeWhile_imp) hne
    have hreal := IsReal.intro hsign hmantissa (exponent?_eq_some_iff.mp he)
    rw [← hunsigned, List.takeWhile_append_dropWhile, ← hcs] at hreal
    rwa [toRat_digits]

/-! ## What is read -/

theorem isInt_iff {cs : List Char} {n : Int} : IsInt cs n ↔ ∃ i : Int32, i.toInt = n ∧ IsWhole cs n := by
  constructor
  · rintro ⟨hwhole, hleast, hgreatest⟩
    exact ⟨.ofInt n, Int32.toInt_ofInt_of_le hleast (Int.le_sub_one_iff.mp hgreatest), hwhole⟩
  · rintro ⟨i, rfl, hwhole⟩
    exact ⟨hwhole, i.minValue_le_toInt, i.toInt_le⟩

theorem ofText?_eq_int_iff {s : String} {i : Int32} : ofText? s = some (int i) ↔ IsWhole s.toList i.toInt := by
  rw [← integer?_eq_some_iff]
  have hfloat : (decimal? s.toList).map (fun p => float (.ofDecimal p.1 p.2)) ≠ some (int i) := by
    intro h
    obtain ⟨p, -, hp⟩ := Option.map_eq_some_iff.mp h
    cases hp
  constructor
  · intro h
    simp only [ofText?] at h
    split at h
    · next n hn =>
      split at h
      · next hrange =>
        obtain rfl : Int32.ofInt n = i := by simpa [int] using h
        rw [hn, Int32.toInt_ofInt_of_le hrange.1 (Int.lt_add_one_of_le hrange.2)]
      · exact absurd h hfloat
    · exact absurd h hfloat
  · intro h
    simp only [ofText?, h]
    rw [if_pos ⟨i.minValue_le_toInt, i.toInt_le⟩, Int32.ofInt_toInt]

/-- What is no int is read as a float, or not at all. -/
theorem ofText?_of_not_isInt {s : String} (h : ∀ n, ¬ IsInt s.toList n) :
    ofText? s = (decimal? s.toList).map fun p => float (.ofDecimal p.1 p.2) := by
  simp only [ofText?]
  split
  · next n hn =>
    refine if_neg fun hrange => h n ⟨integer?_eq_some_iff.mp hn, hrange.1, hrange.2⟩
  · rfl

theorem not_isInt_of_ofText? {s : String} (h : ∀ i, ofText? s ≠ some (int i)) : ∀ n, ¬ IsInt s.toList n := by
  intro n hn
  obtain ⟨i, rfl, hi⟩ := isInt_iff.mp hn
  exact h i (ofText?_eq_int_iff.mpr hi)

/-- A float is the number nearest to the real number that is written. -/
theorem ofText?_eq_float_iff {s : String} {x : Single} : ofText? s = some (float x) ↔
    (∀ n, ¬ IsInt s.toList n) ∧
      ∃ negative r, IsReal s.toList negative r ∧ x = .ofRat negative (BinaryFloat.signed negative r) := by
  have hround (negative : Bool) (d : Decimal) := BinaryFloat.ofDecimal_eq_ofRat BinaryFloat.regular_single negative d
  constructor
  · intro h
    have hint := not_isInt_of_ofText? fun i hi => by cases h.symm.trans hi
    rw [ofText?_of_not_isInt hint] at h
    obtain ⟨⟨negative, d⟩, hd, hx⟩ := Option.map_eq_some_iff.mp h
    injection hx with hx
    exact ⟨hint, negative, d.toRat, isReal_of_decimal? hd, by rw [← hx, hround]⟩
  · rintro ⟨hint, negative, r, hreal, rfl⟩
    obtain ⟨d, hd, rfl⟩ := decimal?_eq_some hreal
    rw [ofText?_of_not_isInt hint, hd, Option.map_some, hround]

theorem ofText?_eq_none_iff {s : String} :
    ofText? s = none ↔ (∀ n, ¬ IsInt s.toList n) ∧ ∀ negative r, ¬ IsReal s.toList negative r := by
  constructor
  · intro h
    have hint := not_isInt_of_ofText? fun i hi => by cases h.symm.trans hi
    refine ⟨hint, fun negative r hreal => ?_⟩
    cases h.symm.trans (ofText?_eq_float_iff.mpr ⟨hint, negative, r, hreal, rfl⟩)
  · rintro ⟨hint, hreal⟩
    rw [ofText?_of_not_isInt hint, Option.map_eq_none_iff, Option.eq_none_iff_forall_ne_some]
    rintro ⟨negative, d⟩ hd
    exact hreal negative _ (isReal_of_decimal? hd)

/-! ## One representation after the other -/

/-- The number, if 32 bits hold it. -/
def toInt32? (n : Int) : Option Int32 :=
  if Int32.minValue.toInt ≤ n ∧ n ≤ Int32.maxValue.toInt then some (.ofInt n) else none

/-- The number that further digits make of one already read: none where a product or a sum on the
    way does not fit in 32 bits. After a minus digits are subtracted. -/
def int32From (negative : Bool) : Int32 → List Char → Option Int32
  | n, [] => some n
  | n, d :: ds =>
    if d.isDigit then
      (toInt32? (n.toInt * 10)).bind fun tens =>
        (toInt32? (tens.toInt + signedInt negative (d.toNat - '0'.toNat))).bind fun next =>
          int32From negative next ds
    else none

def int32? (cs : List Char) : Option Int32 :=
  let (negative, ds) := splitSign cs
  if ds = [] then none else int32From negative 0 ds

/-- The words for the infinities and for not-a-number, in small letters or capitals. -/
def word? (f : FloatFormat) (cs : List Char) : Option (BinaryFloat f) :=
  let (negative, letters) := splitSign cs
  let word := letters.map Char.toLower
  if word = "inf".toList ∨ word = "infinity".toList then some (.infinite negative)
  else if word = "nan".toList then some .nan
  else none

/-- The number of a format that a word or a numeral stands for. -/
def floating? (f : FloatFormat) (cs : List Char) : Option (BinaryFloat f) :=
  (word? f cs).or ((decimal? cs).map fun p => .ofDecimal p.1 p.2)

/-- The first representation that a text can be read in: 32 bits, or single or double precision if
    there is a digit in it. -/
def ofStages? (s : String) : Option Number :=
  match int32? s.toList with
  | some n => some (.int n)
  | none =>
    if s.toList.any Char.isDigit then
      match floating? .single s.toList with
      | some x => some (.float x)
      | none => (floating? .double s.toList).map .double
    else none

theorem toInt32?_eq_some_iff {n : Int} {i : Int32} : toInt32? n = some i ↔ i.toInt = n := by
  unfold toInt32?
  constructor
  · intro h
    split at h
    · next hrange =>
      obtain rfl := Option.some.inj h
      exact Int32.toInt_ofInt_of_le hrange.1 (Int.lt_add_one_of_le hrange.2)
    · cases h
  · rintro rfl
    rw [if_pos ⟨i.minValue_le_toInt, i.toInt_le⟩, Int32.ofInt_toInt]

theorem signedInt_mul_add (negative : Bool) (m v : Nat) :
    signedInt negative (m * 10 + v) = signedInt negative m * 10 + signedInt negative v := by
  cases negative with
  | false => simp
  | true =>
    simp only [signedInt_true]
    omega

/-- On the way to a number of 32 bits all numbers are ones of 32 bits. -/
theorem exists_int32_of_le {negative : Bool} {m n : Nat} {i : Int32} (hmn : m ≤ n)
    (hi : i.toInt = signedInt negative n) : ∃ j : Int32, j.toInt = signedInt negative m := by
  have hrange : -2 ^ 31 ≤ signedInt negative m ∧ signedInt negative m < 2 ^ 31 := by
    have hleast := i.le_toInt
    have hgreatest := i.toInt_lt
    rw [hi] at hleast hgreatest
    cases negative <;> simp only [signedInt_false, signedInt_true] at * <;> omega
  exact ⟨.ofInt (signedInt negative m), Int32.toInt_ofInt_of_le hrange.1 hrange.2⟩

/-- Digits are read to their value, if 32 bits hold it: nothing on the way is larger. -/
theorem int32From_eq_some_iff {negative : Bool} {n : Int32} {m : Nat} (hn : n.toInt = signedInt negative m)
    {ds : List Char} {i : Int32} : int32From negative n ds = some i ↔
      (∀ d ∈ ds, d.isDigit) ∧ i.toInt = signedInt negative (m * 10 ^ ds.length + placeValue ds) := by
  induction ds generalizing n m with
  | nil =>
    have hnone : ∀ d ∈ ([] : List Char), d.isDigit := by simp
    rw [int32From, Option.some.injEq, ← Int32.toInt_inj, hn, placeValue, List.length_nil, pow_zero, mul_one, add_zero]
    exact ⟨fun h => ⟨hnone, h.symm⟩, fun h => h.2.symm⟩
  | cons d ds ih =>
    generalize hv : d.toNat - '0'.toNat = v
    have hvalue : m * 10 ^ (d :: ds).length + placeValue (d :: ds) = (m * 10 + v) * 10 ^ ds.length + placeValue ds := by
      rw [placeValue, hv, List.length_cons]
      ring
    simp only [int32From, hv]
    constructor
    · intro h
      split at h
      · next hd =>
        obtain ⟨tens, htens, h⟩ := Option.bind_eq_some_iff.mp h
        obtain ⟨next, hnext, h⟩ := Option.bind_eq_some_iff.mp h
        rw [toInt32?_eq_some_iff] at htens hnext
        rw [htens, hn, ← signedInt_mul_add] at hnext
        obtain ⟨hds, hi⟩ := (ih hnext).mp h
        exact ⟨List.forall_mem_cons.mpr ⟨hd, hds⟩, hvalue ▸ hi⟩
      · cases h
    · rintro ⟨hds, hi⟩
      obtain ⟨hd, hds⟩ := List.forall_mem_cons.mp hds
      rw [hvalue] at hi
      have hle : m * 10 + v ≤ (m * 10 + v) * 10 ^ ds.length + placeValue ds :=
        (Nat.le_mul_of_pos_right _ (Nat.pow_pos (by decide))).trans (Nat.le_add_right _ _)
      obtain ⟨tens, htens⟩ := exists_int32_of_le (Nat.le_of_add_right_le hle) hi
      obtain ⟨next, hnext⟩ := exists_int32_of_le hle hi
      have htens' : tens.toInt = n.toInt * 10 := by simpa [hn] using htens.trans (signedInt_mul_add negative m 0)
      have hnext' : next.toInt = tens.toInt + signedInt negative v := by rw [hnext, htens', hn, signedInt_mul_add]
      rw [if_pos hd, toInt32?_eq_some_iff.mpr htens', Option.bind_some, toInt32?_eq_some_iff.mpr hnext',
        Option.bind_some]
      exact (ih hnext).mpr ⟨hds, hi⟩

theorem int32?_eq_some_iff {cs : List Char} {i : Int32} : int32? cs = some i ↔ IsWhole cs i.toInt := by
  have hzero (negative : Bool) : (0 : Int32).toInt = signedInt negative 0 := by simp
  constructor
  · intro h
    obtain ⟨sign, hsign, hcs⟩ := exists_sign cs
    simp only [int32?] at h
    split at h
    · cases h
    · next hne =>
      obtain ⟨hds, hi⟩ := (int32From_eq_some_iff (hzero _)).mp h
      have hwhole := IsWhole.intro hsign hne hds
      rwa [← hcs, ← Nat.zero_add (placeValue _), ← Nat.zero_mul (10 ^ _), ← hi] at hwhole
  · generalize hn : i.toInt = n
    rintro ⟨hsign, hne, hds⟩
    simp only [int32?, hsign.split_digits hds]
    rw [if_neg hne, int32From_eq_some_iff (hzero _)]
    exact ⟨hds, by simpa using hn⟩

theorem IsSign.not_isDigit {negative : Bool} {sign : List Char} (h : IsSign negative sign) :
    ∀ c ∈ sign, ¬ c.isDigit := by
  cases h <;> simp

theorem toLower_of_isDigit {c : Char} (h : c.isDigit) : c.toLower = c :=
  Char.toLower_eq_of_not_isUpper (by grind [Char.isDigit, Char.isUpper])

/-- There is no digit in a word. -/
theorem word?_of_isDigit {cs : List Char} {c : Char} (hc : c ∈ cs) (hdigit : c.isDigit) (f : FloatFormat) :
    word? f cs = none := by
  obtain ⟨sign, hsign, hcs⟩ := exists_sign cs
  rw [hcs] at hc
  have hletter : c ∈ (splitSign cs).2.map Char.toLower := by
    rcases List.mem_append.mp hc with hc | hc
    · exact absurd hdigit (hsign.not_isDigit c hc)
    · exact List.mem_map.mpr ⟨c, hc, toLower_of_isDigit hdigit⟩
  have hword (word : String) (h : ∀ d ∈ word.toList, ¬ d.isDigit) :
      (splitSign cs).2.map Char.toLower ≠ word.toList := by
    intro heq
    exact h c (heq ▸ hletter) hdigit
  simp only [word?]
  rw [if_neg (not_or.mpr ⟨hword _ (by simp), hword _ (by simp)⟩), if_neg (hword _ (by simp))]

theorem IsReal.exists_isDigit {cs : List Char} {negative : Bool} {r : ℚ} (h : IsReal cs negative r) :
    ∃ c ∈ cs, c.isDigit := by
  have hfirst {ds : List Char} (hne : ds ≠ []) (hds : ∀ d ∈ ds, d.isDigit) : ∃ d ∈ ds, d.isDigit :=
    ⟨ds.head hne, List.head_mem hne, hds _ (List.head_mem hne)⟩
  obtain ⟨-, hmantissa, -⟩ := h
  cases hmantissa with
  | digits hne hwhole =>
    obtain ⟨d, hd, hdigit⟩ := hfirst hne hwhole
    exact ⟨d, by simp [hd], hdigit⟩
  | point hne hwhole hfraction =>
    rcases hne with hne | hne
    · obtain ⟨d, hd, hdigit⟩ := hfirst hne hwhole
      exact ⟨d, by simp [hd], hdigit⟩
    · obtain ⟨d, hd, hdigit⟩ := hfirst hne hfraction
      exact ⟨d, by simp [hd], hdigit⟩

/-- Both precisions are for the same texts. -/
theorem isSome_floating? (f g : FloatFormat) (cs : List Char) :
    (floating? f cs).isSome = (floating? g cs).isSome := by
  simp only [floating?, word?]
  split_ifs <;> simp

theorem ofStages?_eq_ofText? (s : String) : ofStages? s = ofText? s := by
  by_cases hint : ∃ i : Int32, IsWhole s.toList i.toInt
  · obtain ⟨i, hi⟩ := hint
    rw [ofStages?, int32?_eq_some_iff.mpr hi, ofText?_eq_int_iff.mpr hi]
  · have hstage : int32? s.toList = none :=
      Option.eq_none_iff_forall_ne_some.mpr fun i hi => hint ⟨i, int32?_eq_some_iff.mp hi⟩
    have hnone := not_isInt_of_ofText? fun i hi => hint ⟨i, ofText?_eq_int_iff.mp hi⟩
    rw [ofStages?, hstage, ofText?_of_not_isInt hnone]
    cases hd : decimal? s.toList with
    | some p =>
      obtain ⟨c, hc, hdigit⟩ := (isReal_of_decimal? hd).exists_isDigit
      simp only [floating?, word?_of_isDigit hc hdigit, hd]
      exact if_pos (List.any_eq_true.mpr ⟨c, hc, hdigit⟩)
    | none =>
      by_cases hdigit : s.toList.any Char.isDigit
      · obtain ⟨c, hc, hdigit'⟩ := List.any_eq_true.mp hdigit
        simp only [floating?, word?_of_isDigit hc hdigit', hd, hdigit]
        rfl
      · exact if_neg hdigit

end Number

/-- A text is the int that the grammar gives for it, otherwise the float nearest to the real number that
    the grammar gives for it, and otherwise a symbol. One representation after the other would give
    the same, and double precision never anything: it is for the same texts as single precision. -/
theorem numbers_by_grammar (s : String) :
    (∀ n : Int, (∃ i : Int32, i.toInt = n ∧ Number.ofText? s = some (.int i)) ↔ Number.IsInt s.toList n) ∧
    (∀ x : Single, Number.ofText? s = some (.float x) ↔ (∀ n, ¬ Number.IsInt s.toList n) ∧
      ∃ negative r, Number.IsReal s.toList negative r ∧ x = .ofRat negative (BinaryFloat.signed negative r)) ∧
    (Number.ofText? s = none ↔
      (∀ n, ¬ Number.IsInt s.toList n) ∧ ∀ negative r, ¬ Number.IsReal s.toList negative r) ∧
    (Value.ofAtom s = .symbol s ↔ Number.ofText? s = none) ∧
    (∀ x, Number.ofText? s ≠ some (.double x)) ∧
    Number.ofStages? s = Number.ofText? s ∧
    (Number.floating? .double s.toList).isSome = (Number.floating? .single s.toList).isSome := by
  refine ⟨fun n => ?_, fun x => Number.ofText?_eq_float_iff, Number.ofText?_eq_none_iff, ?_, fun x hx => ?_,
    Number.ofStages?_eq_ofText? s, Number.isSome_floating? .double .single s.toList⟩
  · rw [Number.isInt_iff]
    refine exists_congr fun i => and_congr_right fun hi => ?_
    rw [Number.ofText?_eq_int_iff, hi]
  · unfold Value.ofAtom
    split <;> simp [*]
  · have hint := Number.not_isInt_of_ofText? fun i hi => by cases hx.symm.trans hi
    rw [Number.ofText?_of_not_isInt hint] at hx
    obtain ⟨p, -, hp⟩ := Option.map_eq_some_iff.mp hx
    cases hp

/-- At the bounds: the least int is one and the number after the greatest is a float, digits may stand on
    one side of a point only, and a sign, a point, a bare exponent or a word is a symbol. -/
theorem numbers_by_grammar_bounds :
    Number.IsInt "-2147483648".toList (-2147483648) ∧
    (∀ n, ¬ Number.IsInt "2147483648".toList n) ∧ (∃ negative r, Number.IsReal "2147483648".toList negative r) ∧
    (∃ negative r, Number.IsReal "-1.".toList negative r) ∧ (∃ negative r, Number.IsReal "+.5E-3".toList negative r) ∧
    ∀ s ∈ ["", "+", ".", "-.e1", "1e+", "-inf", "1_0"],
      Value.ofAtom s = .symbol s ∧ ∀ negative r, ¬ Number.IsReal s.toList negative r := by
  have hfloat (s : String) (negative : Bool) (d : Decimal)
      (h : Number.ofText? s = some (.float (.ofDecimal negative d))) := ((numbers_by_grammar s).2.1 _).mp h
  obtain ⟨hint, negative, r, hreal, -⟩ := hfloat "2147483648" false ⟨2147483648, 0⟩ rfl
  obtain ⟨-, negative₁, r₁, hpoint, -⟩ := hfloat "-1." true ⟨1, 0⟩ rfl
  obtain ⟨-, negative₂, r₂, hexponent, -⟩ := hfloat "+.5E-3" false ⟨5, -4⟩ rfl
  have hnumber : ∀ s ∈ ["", "+", ".", "-.e1", "1e+", "-inf", "1_0"], Number.ofText? s = none := by decide
  refine ⟨((numbers_by_grammar _).1 _).mp ⟨.minValue, rfl, rfl⟩, hint, ⟨_, _, hreal⟩, ⟨_, _, hpoint⟩,
    ⟨_, _, hexponent⟩, fun s hs => ?_⟩
  obtain ⟨-, -, hnone, hatom, -⟩ := numbers_by_grammar s
  exact ⟨hatom.mpr (hnumber s hs), (hnone.mp (hnumber s hs)).2⟩

end LineLisp
