/-
  LineLisp.Proofs.SettingTexts — which texts of the variables are settings. The texts are described by
  themselves: what is left without the blanks around it is one of two words, or the word `none` in
  small letters or capitals, or a plus sign or none and digits whose value 64 bits hold.
  - `Text.toList_trim_eq_iff`: what is left of a text, as blanks, the rest and blanks.
  - `IsWord64`, `word64?_eq_some_iff`: the texts of numbers of 64 bits are read to their values, and no
    others; `map_toNat_word64Loop?` says that a loop over words of 64 bits, which stops where a
    product or a sum does not fit, reads the same.
  - `Variable.read_eq_ok_iff`, `Variable.read_eq_error_iff`: a variable by itself, and so
    `settings_by_texts`: both of them, the first that is not understood as the error.
-/

import LineLisp.Proofs.Numeral
import LineLisp.Settings.Load

namespace LineLisp

/-! ## Blanks around a text, and capitals -/

namespace Text

/-- Blanks, a text with none at its ends, and blanks. -/
inductive TrimsTo : List Char → List Char → Prop
  | intro {before core after : List Char} : (∀ c ∈ before, isBlankChar c) → (∀ c ∈ after, isBlankChar c) →
      (∀ c ∈ core.head?, ¬ isBlankChar c) → (∀ c ∈ core.getLast?, ¬ isBlankChar c) →
      TrimsTo (before ++ (core ++ after)) core

theorem trimEnd_eq_rdropWhile (cs : List Char) : trimEnd cs = cs.rdropWhile isBlankChar := rfl

theorem trimsTo_trim (s : String) : TrimsTo s.toList (trim s).toList := by
  rw [trim, String.toList_ofList, trimEnd_eq_rdropWhile]
  generalize hrest : s.toList.dropWhile isBlankChar = rest
  have hsplit : s.toList = s.toList.takeWhile isBlankChar ++
      (rest.rdropWhile isBlankChar ++ rest.rtakeWhile isBlankChar) := by
    rw [List.rdropWhile_append_rtakeWhile, ← hrest, List.takeWhile_append_dropWhile]
  rw [hsplit]
  refine .intro (fun _ => List.mem_takeWhile_imp) (fun _ => List.mem_rtakeWhile_imp) ?_ ?_
  · intro c hc
    -- The first character that is left is the first after the blanks.
    obtain ⟨after, hafter⟩ := List.rdropWhile_prefix isBlankChar rest
    obtain ⟨cs, hcs⟩ := List.head?_eq_some_iff.mp hc
    have hfirst : rest.head? = some c := by rw [← hafter, hcs]; rfl
    rw [← hrest] at hfirst
    simpa [hfirst] using List.head?_dropWhile_not isBlankChar s.toList
  · intro c hc
    obtain ⟨hne, hlast⟩ := List.mem_getLast?_eq_getLast hc
    exact hlast ▸ List.rdropWhile_last_not isBlankChar rest hne

theorem trimEnd_append {core after : List Char} (hcore : ∀ c ∈ core.getLast?, ¬ isBlankChar c)
    (hafter : ∀ c ∈ after, isBlankChar c) : trimEnd (core ++ after) = core := by
  have hblank : ∀ c ∈ after.reverse, isBlankChar c := fun c hc => hafter c (List.mem_reverse.mp hc)
  rw [trimEnd, List.reverse_append, List.dropWhile_append_of_pos hblank, ← trimEnd, trimEnd_eq_rdropWhile,
    List.rdropWhile_eq_self_iff]
  intro hne
  exact hcore _ (List.getLast?_eq_getLast_of_ne_nil hne)

/-- Trimming leaves the text between the blanks, and nothing else. -/
theorem toList_trim_eq_iff {s : String} {core : List Char} : (trim s).toList = core ↔ TrimsTo s.toList core := by
  constructor
  · rintro rfl
    exact trimsTo_trim s
  · generalize hcs : s.toList = cs
    intro h
    obtain @⟨before, core, after, hbefore, hafter, hhead, hlast⟩ := h
    rw [trim, String.toList_ofList, hcs, List.dropWhile_append_of_pos hbefore]
    cases core with
    | nil =>
      rw [List.nil_append, List.dropWhile_eq_nil_iff.mpr hafter]
      rfl
    | cons c core =>
      have hkept : (c :: core ++ after).dropWhile isBlankChar = c :: core ++ after :=
        List.dropWhile_cons_of_neg (hhead c rfl)
      rw [hkept, trimEnd_append hlast hafter]

theorem trim_eq_iff {s word : String} : trim s = word ↔ TrimsTo s.toList word.toList := by
  rw [← toList_trim_eq_iff, String.toList_inj]

/-- A word with each letter as it is or as a capital. -/
def InAnyCase (word : String) (cs : List Char) : Prop :=
  List.Forall₂ (fun c letter => c = letter ∨ c = letter.toUpper) cs word.toList

theorem toLower_eq_iff {c letter : Char} (h : letter.isLower) :
    c.toLower = letter ↔ c = letter ∨ c = letter.toUpper := by
  have hletter : letter.toLower = letter := Char.toLower_eq_of_not_isUpper (Char.not_isUpper_of_isLower h)
  constructor
  · rintro rfl
    by_cases hc : c.isUpper
    · right
      rw [Char.toUpper_toLower_eq_toUpper, Char.toUpper_eq_of_not_isLower (Char.not_isLower_of_isUpper hc)]
    · left
      exact (Char.toLower_eq_of_not_isUpper hc).symm
  · rintro (rfl | rfl)
    · exact hletter
    · rw [Char.toLower_toUpper_eq_toLower, hletter]

theorem inAnyCase_iff {word : String} (hword : ∀ letter ∈ word.toList, letter.isLower) {cs : List Char} :
    InAnyCase word cs ↔ cs.map Char.toLower = word.toList := by
  unfold InAnyCase
  generalize word.toList = letters at hword
  induction letters generalizing cs with
  | nil => simp
  | cons letter letters ih =>
    obtain ⟨hletter, hletters⟩ := List.forall_mem_cons.mp hword
    cases cs with
    | nil => simp
    | cons c cs => rw [List.forall₂_cons, ih hletters, List.map_cons, List.cons.injEq, toLower_eq_iff hletter]

end Text

/-! ## Numbers of 64 bits -/

/-- A plus sign or none, then one or more digits, and their value, which 64 bits hold. -/
inductive IsWord64 : List Char → Nat → Prop
  | intro {sign ds : List Char} : Number.IsSign false sign → ds ≠ [] → (∀ d ∈ ds, d.isDigit) →
      Number.placeValue ds < 2 ^ 64 → IsWord64 (sign ++ ds) (Number.placeValue ds)

/-- The digits behind a plus sign, if there is one. -/
def afterPlus : List Char → List Char
  | '+' :: ds => ds
  | ds => ds

theorem exists_plus (cs : List Char) : ∃ sign, Number.IsSign false sign ∧ cs = sign ++ afterPlus cs := by
  unfold afterPlus
  split
  · exact ⟨['+'], .plus, rfl⟩
  · exact ⟨[], .none, rfl⟩

theorem afterPlus_append {sign ds : List Char} (hsign : Number.IsSign false sign) (hds : ∀ d ∈ ds, d.isDigit) :
    afterPlus (sign ++ ds) = ds := by
  cases hsign with
  | plus => rfl
  | none =>
    rw [List.nil_append]
    unfold afterPlus
    split
    · exact absurd (hds '+' List.mem_cons_self) (by decide)
    · rfl

theorem word64?_eq (cs : List Char) : word64? cs =
    if afterPlus cs ≠ [] ∧ (afterPlus cs).all Char.isDigit ∧ Number.placeValue (afterPlus cs) < 2 ^ 64 then
      some (Number.placeValue (afterPlus cs))
    else none := by
  rw [← Number.digitsValue_eq_placeValue]
  rfl

theorem word64?_eq_some_iff {cs : List Char} {n : Nat} : word64? cs = some n ↔ IsWord64 cs n := by
  rw [word64?_eq]
  constructor
  · intro h
    obtain ⟨sign, hsign, hcs⟩ := exists_plus cs
    split at h
    · next hdigits =>
      obtain ⟨hne, hds, hlt⟩ := hdigits
      obtain rfl := Option.some.inj h
      have hword := IsWord64.intro hsign hne (List.all_eq_true.mp hds) hlt
      rwa [← hcs] at hword
    · cases h
  · rintro ⟨hsign, hne, hds, hlt⟩
    rw [afterPlus_append hsign hds]
    exact if_pos ⟨hne, List.all_eq_true.mpr hds, hlt⟩

/-- The number, if 64 bits hold it. -/
def toWord64? (n : Nat) : Option UInt64 := if n < UInt64.size then some (.ofNat n) else none

/-- The number that further digits make of one already read: none where a product or a sum on the way
    does not fit in 64 bits. -/
def word64From : UInt64 → List Char → Option UInt64
  | n, [] => some n
  | n, d :: ds =>
    if d.isDigit then
      (toWord64? (n.toNat * 10)).bind fun tens =>
        (toWord64? (tens.toNat + (d.toNat - '0'.toNat))).bind fun next => word64From next ds
    else none

/-- The number of a text, digit by digit in words of 64 bits. -/
def word64Loop? (cs : List Char) : Option UInt64 :=
  if afterPlus cs = [] then none else word64From 0 (afterPlus cs)

theorem toWord64?_eq_some_iff {n : Nat} {w : UInt64} : toWord64? n = some w ↔ w.toNat = n := by
  unfold toWord64?
  constructor
  · intro h
    split at h
    · next hlt =>
      obtain rfl := Option.some.inj h
      exact UInt64.toNat_ofNat_of_lt hlt
    · cases h
  · rintro rfl
    rw [if_pos w.toNat_lt, UInt64.ofNat_toNat]

/-- Digits are read to their value, if 64 bits hold it: nothing on the way is larger. -/
theorem word64From_eq_some_iff {n w : UInt64} {ds : List Char} : word64From n ds = some w ↔
    (∀ d ∈ ds, d.isDigit) ∧ w.toNat = n.toNat * 10 ^ ds.length + Number.placeValue ds := by
  induction ds generalizing n with
  | nil =>
    have hnone : ∀ d ∈ ([] : List Char), d.isDigit := by simp
    rw [word64From, Option.some.injEq, ← UInt64.toNat_inj, Number.placeValue, List.length_nil, pow_zero, mul_one,
      add_zero]
    exact ⟨fun h => ⟨hnone, h.symm⟩, fun h => h.2.symm⟩
  | cons d ds ih =>
    generalize hv : d.toNat - '0'.toNat = v
    have hvalue : n.toNat * 10 ^ (d :: ds).length + Number.placeValue (d :: ds) =
        (n.toNat * 10 + v) * 10 ^ ds.length + Number.placeValue ds := by
      rw [Number.placeValue, hv, List.length_cons]
      ring
    simp only [word64From, hv]
    constructor
    · intro h
      split at h
      · next hd =>
        obtain ⟨tens, htens, h⟩ := Option.bind_eq_some_iff.mp h
        obtain ⟨next, hnext, h⟩ := Option.bind_eq_some_iff.mp h
        rw [toWord64?_eq_some_iff] at htens hnext
        obtain ⟨hds, hw⟩ := ih.mp h
        rw [hnext, htens, ← hvalue] at hw
        exact ⟨List.forall_mem_cons.mpr ⟨hd, hds⟩, hw⟩
      · cases h
    · rintro ⟨hds, hw⟩
      obtain ⟨hd, hds⟩ := List.forall_mem_cons.mp hds
      rw [hvalue] at hw
      have hle : n.toNat * 10 + v ≤ w.toNat := by
        rw [hw]
        exact (Nat.le_mul_of_pos_right _ (Nat.pow_pos (by decide))).trans (Nat.le_add_right _ _)
      have hlt : w.toNat < UInt64.size := w.toNat_lt
      obtain ⟨tens, htens⟩ : ∃ tens : UInt64, tens.toNat = n.toNat * 10 :=
        ⟨_, UInt64.toNat_ofNat_of_lt (by omega)⟩
      obtain ⟨next, hnext⟩ : ∃ next : UInt64, next.toNat = tens.toNat + v :=
        ⟨_, UInt64.toNat_ofNat_of_lt (by omega)⟩
      rw [if_pos hd, toWord64?_eq_some_iff.mpr htens, Option.bind_some, toWord64?_eq_some_iff.mpr hnext,
        Option.bind_some]
      exact ih.mpr ⟨hds, by rw [hw, hnext, htens]⟩

theorem word64Loop?_eq_some_iff {cs : List Char} {w : UInt64} : word64Loop? cs = some w ↔ IsWord64 cs w.toNat := by
  have hzero {ds : List Char} : (0 : UInt64).toNat * 10 ^ ds.length + Number.placeValue ds = Number.placeValue ds := by
    simp
  constructor
  · intro h
    obtain ⟨sign, hsign, hcs⟩ := exists_plus cs
    rw [word64Loop?] at h
    split at h
    · cases h
    · next hne =>
      obtain ⟨hds, hw⟩ := word64From_eq_some_iff.mp h
      rw [hzero] at hw
      have hword := IsWord64.intro hsign hne hds (hw ▸ w.toNat_lt)
      rwa [← hcs, ← hw] at hword
  · generalize hn : w.toNat = n
    rintro ⟨hsign, hne, hds, -⟩
    rw [word64Loop?, afterPlus_append hsign hds, if_neg hne, word64From_eq_some_iff, hzero]
    exact ⟨hds, hn⟩

/-- The loop and the bound on the value are for the same texts. -/
theorem map_toNat_word64Loop? (cs : List Char) : (word64Loop? cs).map UInt64.toNat = word64? cs := by
  refine Option.ext fun n => ?_
  rw [Option.map_eq_some_iff, word64?_eq_some_iff]
  constructor
  · rintro ⟨w, hw, rfl⟩
    exact word64Loop?_eq_some_iff.mp hw
  · intro h
    obtain ⟨w, hw⟩ : ∃ w : UInt64, w.toNat = n := by
      obtain ⟨-, -, -, hlt⟩ := h
      exact ⟨_, UInt64.toNat_ofNat_of_lt hlt⟩
    exact ⟨w, word64Loop?_eq_some_iff.mpr (hw ▸ h), hw⟩

theorem isWord64_toString {n : Nat} (h : n < 2 ^ 64) : IsWord64 (toString n).toList n := by
  have htext : (toString n).toList = Nat.toDigits 10 n := by simp [Nat.repr]
  have hvalue : Number.placeValue (Nat.toDigits 10 n) = n := by
    rw [← Number.digitsValue_eq_placeValue, Number.digitsValue_toDigits]
  have hword := IsWord64.intro .none Nat.toDigits_ne_nil (isDigit_toDigits n) (hvalue.symm ▸ h)
  rwa [hvalue, List.nil_append, ← htext] at hword

theorem not_isBlankChar_of_isDigit {c : Char} (h : c.isDigit) : ¬ Text.isBlankChar c := by
  intro hblank
  obtain ⟨r, hr, hlow, hhigh⟩ := Text.inRanges_iff.mp hblank
  have hranges : ∀ r ∈ Text.blankRanges, r.2 < '0'.toNat ∨ '9'.toNat < r.1 := by decide
  have hdigit : '0'.toNat ≤ c.toNat ∧ c.toNat ≤ '9'.toNat := by
    simpa [Char.isDigit, UInt32.le_iff_toNat_le] using h
  have hoff := hranges r hr
  omega

/-- There are no blanks in a number. -/
theorem IsWord64.trimsTo {cs : List Char} {n : Nat} (h : IsWord64 cs n) : Text.TrimsTo cs cs := by
  have hnone : ∀ c ∈ cs, ¬ Text.isBlankChar c := by
    obtain ⟨hsign, -, hds, -⟩ := h
    refine List.forall_mem_append.mpr ⟨?_, fun d hd => not_isBlankChar_of_isDigit (hds d hd)⟩
    cases hsign with
    | none => exact List.forall_mem_nil _
    | plus => exact List.forall_mem_singleton.mpr (by decide)
  have htrims := Text.TrimsTo.intro (List.forall_mem_nil _) (List.forall_mem_nil _)
    (fun c hc => hnone c (List.mem_of_mem_head? hc)) (fun c hc => hnone c (List.mem_of_mem_getLast? hc))
  rwa [List.nil_append, List.append_nil] at htrims

/-- It is not the word `none`. -/
theorem IsWord64.not_inAnyCase {cs : List Char} {n : Nat} (h : IsWord64 cs n) : ¬ Text.InAnyCase "none" cs := by
  intro hword
  rw [Text.inAnyCase_iff (by simp)] at hword
  obtain @⟨sign, ds, -, hne, hds, -⟩ := h
  have hdigit := hds _ (List.head_mem hne)
  have hletter : ds.head hne ∈ "none".toList := by
    rw [← hword, ← Number.toLower_of_isDigit hdigit]
    exact List.mem_map_of_mem (List.mem_append_right _ (List.head_mem hne))
  have hletters : ∀ letter ∈ "none".toList, ¬ letter.isDigit := by simp
  exact hletters _ hletter hdigit

/-! ## Variables -/

namespace Variable

variable {α : Type} {v : Variable} {texts : Lookup} {standard : α} {meaning? : String → Option α}

/-- A setting is what its text says, if what texts say is what they mean and no text says the standard. -/
theorem read_eq_ok_iff {Says : Option String → α → Prop} (hunset : ∀ a, standard = a ↔ Says none a)
    (htext : ∀ text a, meaning? text = some a ↔ Says (some text) a) {a : α} :
    v.read texts standard meaning? = .ok a ↔ Says (texts v.name) a := by
  unfold read
  cases texts v.name with
  | none => simpa using hunset a
  | some text =>
    rw [← htext]
    cases h : meaning? text <;> simp [h]

/-- A text without a meaning is in the error as it is. -/
theorem read_eq_error_iff {e : SettingError} : v.read texts standard meaning? = .error e ↔
    e.variableName = v ∧ texts v.name = some e.value ∧ ∀ a, v.read texts standard meaning? ≠ .ok a := by
  unfold read
  cases texts v.name with
  | none => simp
  | some text =>
    cases h : meaning? text with
    | some a => simp [h]
    | none =>
      obtain ⟨w, value⟩ := e
      simp [h, eq_comm]

end Variable

/-- Whether a text for the scope of assignments says that they are evaluated in the global one. -/
inductive ScopeText : Option String → Bool → Prop
  | unset : ScopeText none true
  | global {text : String} : Text.TrimsTo text.toList "global".toList → ScopeText (some text) true
  | current {text : String} : Text.TrimsTo text.toList "current".toList → ScopeText (some text) false

/-- The limit that a text for it says, if it says one. -/
inductive DepthText : Option String → Option Nat → Prop
  | unset : DepthText none none
  | unlimited {text : String} {core : List Char} :
      Text.TrimsTo text.toList core → Text.InAnyCase "none" core → DepthText (some text) none
  | limit {text : String} {core : List Char} {n : Nat} :
      Text.TrimsTo text.toList core → IsWord64 core n → DepthText (some text) (some n)

namespace Settings

variable {texts : Lookup}

theorem scopeMeaning?_eq_some_iff {text : String} {b : Bool} :
    scopeMeaning? text = some b ↔ ScopeText (some text) b := by
  unfold scopeMeaning?
  constructor
  · intro h
    split at h
    · next hglobal =>
      obtain rfl := Option.some.inj h
      exact .global (Text.trim_eq_iff.mp hglobal)
    · split at h
      · next hcurrent =>
        obtain rfl := Option.some.inj h
        exact .current (Text.trim_eq_iff.mp hcurrent)
      · cases h
  · intro h
    cases h with
    | global hword => rw [if_pos (Text.trim_eq_iff.mpr hword)]
    | current hword =>
      rw [Text.trim_eq_iff.mpr hword]
      rfl

theorem depthMeaning?_eq_some_iff {text : String} {limit : Option Nat} :
    depthMeaning? text = some limit ↔ DepthText (some text) limit := by
  have hnone {cs : List Char} : cs.map Char.toLower = "none".toList ↔ Text.InAnyCase "none" cs :=
    (Text.inAnyCase_iff (by simp)).symm
  simp only [depthMeaning?]
  constructor
  · intro h
    split at h
    · next hword =>
      obtain rfl := Option.some.inj h
      exact .unlimited (Text.trimsTo_trim text) (hnone.mp hword)
    · obtain ⟨n, hn, rfl⟩ := Option.map_eq_some_iff.mp h
      exact .limit (Text.trimsTo_trim text) (word64?_eq_some_iff.mp hn)
  · intro h
    cases h with
    | unlimited htrim hword =>
      simp only [Text.toList_trim_eq_iff.mpr htrim]
      exact if_pos (hnone.mpr hword)
    | limit htrim hn =>
      simp only [Text.toList_trim_eq_iff.mpr htrim, word64?_eq_some_iff.mpr hn]
      exact if_neg (mt hnone.mp hn.not_inAnyCase)

theorem read_setScope_eq_ok_iff {b : Bool} :
    Variable.setScope.read texts standard.setReadsGlobal scopeMeaning? = .ok b ↔
      ScopeText (texts "TINYLISP_SET_SCOPE") b := by
  refine Variable.read_eq_ok_iff (fun b => ?_) fun _ _ => scopeMeaning?_eq_some_iff
  constructor
  · rintro rfl
    exact .unset
  · rintro ⟨⟩
    rfl

theorem read_maxDepth_eq_ok_iff {limit : Option Nat} :
    Variable.maxDepth.read texts standard.maxDepth depthMeaning? = .ok limit ↔
      DepthText (texts "TINYLISP_MAX_DEPTH") limit := by
  refine Variable.read_eq_ok_iff (fun limit => ?_) fun _ _ => depthMeaning?_eq_some_iff
  constructor
  · rintro rfl
    exact .unset
  · rintro ⟨⟩
    rfl

theorem load_eq_ok_iff {s : Settings} : load texts = .ok s ↔
    Variable.setScope.read texts standard.setReadsGlobal scopeMeaning? = .ok s.setReadsGlobal ∧
      Variable.maxDepth.read texts standard.maxDepth depthMeaning? = .ok s.maxDepth := by
  obtain ⟨setReadsGlobal, maxDepth⟩ := s
  unfold load
  cases Variable.setScope.read texts standard.setReadsGlobal scopeMeaning? with
  | error e => simp [bind, Except.bind]
  | ok b =>
    cases Variable.maxDepth.read texts standard.maxDepth depthMeaning? with
    | error e => simp [bind, Except.bind]
    | ok limit => simp [bind, Except.bind, pure, Except.pure]

theorem load_eq_error_iff {e : SettingError} : load texts = .error e ↔
    Variable.setScope.read texts standard.setReadsGlobal scopeMeaning? = .error e ∨
      (∃ b, Variable.setScope.read texts standard.setReadsGlobal scopeMeaning? = .ok b) ∧
        Variable.maxDepth.read texts standard.maxDepth depthMeaning? = .error e := by
  unfold load
  cases Variable.setScope.read texts standard.setReadsGlobal scopeMeaning? with
  | error e => simp [bind, Except.bind]
  | ok b =>
    cases Variable.maxDepth.read texts standard.maxDepth depthMeaning? with
    | error e => simp [bind, Except.bind]
    | ok limit => simp [bind, Except.bind, pure, Except.pure]

end Settings

/-- Settings are read from two texts: whether assignments are evaluated in the global scope, and the limit of
    depth, a number of 64 bits in decimal or none. If a text is not understood the error has it as it is, the one
    for the scope first. Other texts do not matter. -/
theorem settings_by_texts (texts : Lookup) :
    let scope := texts "TINYLISP_SET_SCOPE"
    let depth := texts "TINYLISP_MAX_DEPTH"
    (∀ s, Settings.load texts = .ok s ↔ ScopeText scope s.setReadsGlobal ∧ DepthText depth s.maxDepth) ∧
    ((∃ s, Settings.load texts = .ok s) ↔ (∃ b, ScopeText scope b) ∧ ∃ limit, DepthText depth limit) ∧
    (∀ e, Settings.load texts = .error e ↔
      e.variableName = .setScope ∧ scope = some e.value ∧ (∀ b, ¬ ScopeText scope b) ∨
      (∃ b, ScopeText scope b) ∧
        e.variableName = .maxDepth ∧ depth = some e.value ∧ ∀ limit, ¬ DepthText depth limit) ∧
    (∀ b n, ScopeText scope b → n < 2 ^ 64 → depth = some (toString n) →
      Settings.load texts = .ok ⟨b, some n⟩) ∧
    (∀ texts' : Lookup, texts' "TINYLISP_SET_SCOPE" = scope → texts' "TINYLISP_MAX_DEPTH" = depth →
      Settings.load texts' = Settings.load texts) ∧
    ∀ cs, (word64Loop? cs).map UInt64.toNat = word64? cs := by
  intro scope depth
  have hok (s : Settings) :
      Settings.load texts = .ok s ↔ ScopeText scope s.setReadsGlobal ∧ DepthText depth s.maxDepth := by
    rw [Settings.load_eq_ok_iff, Settings.read_setScope_eq_ok_iff, Settings.read_maxDepth_eq_ok_iff]
  refine ⟨hok, ?_, fun e => ?_, ?_, ?_, map_toNat_word64Loop?⟩
  · simp only [hok]
    constructor
    · rintro ⟨s, hscope, hdepth⟩
      exact ⟨⟨_, hscope⟩, _, hdepth⟩
    · rintro ⟨⟨b, hscope⟩, limit, hdepth⟩
      exact ⟨⟨b, limit⟩, hscope, hdepth⟩
  · simp only [Settings.load_eq_error_iff, Variable.read_eq_error_iff, ne_eq, Settings.read_setScope_eq_ok_iff,
      Settings.read_maxDepth_eq_ok_iff]
    exact Iff.rfl
  · intro b n hscope hn hdepth
    have hword := isWord64_toString hn
    exact (hok ⟨b, some n⟩).mpr ⟨hscope, hdepth ▸ .limit hword.trimsTo hword⟩
  · intro texts' hscope hdepth
    simp only [Settings.load, Variable.read, Variable.name, hscope, hdepth]
    rfl

/-- A limit with a sign, with zeros and with blanks of two kinds around it is taken, and the greatest that 64 bits
    hold. The next number is the error, unless the text for the scope is not understood either. -/
theorem settings_by_texts_bounds :
    let texts (scope depth : String) : Lookup := fun name =>
      if name = "TINYLISP_SET_SCOPE" then some scope else if name = "TINYLISP_MAX_DEPTH" then some depth else none
    Settings.load (texts " current\t" "\u00a0+007 ") = .ok ⟨false, some 7⟩ ∧
    Settings.load (texts " current\t" (toString 18446744073709551615)) = .ok ⟨false, some 18446744073709551615⟩ ∧
    Settings.load (texts " current\t" " 18446744073709551616") = .error ⟨.maxDepth, " 18446744073709551616"⟩ ∧
    Settings.load (texts "Current" " 18446744073709551616") = .error ⟨.setScope, "Current"⟩ := by
  intro texts
  have hscope (scope depth : String) : texts scope depth "TINYLISP_SET_SCOPE" = some scope := by simp [texts]
  have hdepth (scope depth : String) : texts scope depth "TINYLISP_MAX_DEPTH" = some depth := by simp [texts]
  have hcurrent : ScopeText (some " current\t") false := Settings.scopeMeaning?_eq_some_iff.mp (by decide)
  have hcapital (b : Bool) : ¬ ScopeText (some "Current") b := by
    rw [← Settings.scopeMeaning?_eq_some_iff]
    revert b
    decide
  have hseven : DepthText (some "\u00a0+007 ") (some 7) := Settings.depthMeaning?_eq_some_iff.mp (by decide)
  have hbeyond (limit : Option Nat) : ¬ DepthText (some " 18446744073709551616") limit := by
    have hnone : Settings.depthMeaning? " 18446744073709551616" = none := by decide
    rw [← Settings.depthMeaning?_eq_some_iff, hnone]
    exact nofun
  refine ⟨?_, ?_, ?_, ?_⟩
  · obtain ⟨hok, -⟩ := settings_by_texts (texts " current\t" "\u00a0+007 ")
    simp only [hscope, hdepth] at hok
    exact (hok ⟨false, some 7⟩).mpr ⟨hcurrent, hseven⟩
  · obtain ⟨-, -, -, hdecimal, -⟩ := settings_by_texts (texts " current\t" (toString 18446744073709551615))
    simp only [hscope, hdepth] at hdecimal
    exact hdecimal false 18446744073709551615 hcurrent (by decide) rfl
  · obtain ⟨-, -, herror, -⟩ := settings_by_texts (texts " current\t" " 18446744073709551616")
    simp only [hscope, hdepth] at herror
    exact (herror _).mpr (.inr ⟨⟨false, hcurrent⟩, rfl, rfl, hbeyond⟩)
  · obtain ⟨-, -, herror, -⟩ := settings_by_texts (texts "Current" " 18446744073709551616")
    simp only [hscope, hdepth] at herror
    exact (herror _).mpr (.inl ⟨rfl, rfl, hcapital⟩)

end LineLisp
