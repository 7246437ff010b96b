/-
  LineLisp.Proofs.Scan — what splitting a text into tokens gives. The tokens stand in the text
  one after the other, and each atom is a word of characters that may stand in one. What kinds
  of tokens there are depends on the characters alone, not on where they stand.
  - `Token.inOrder_scan`: the spans of the tokens of a text follow each other.
  - `Token.wellSpelled_of_mem_scan`: the atoms of a text are words.
  - `Token.kindsFrom_word`: a word in front of a break is one atom.
-/

import LineLisp.Token
import Mathlib

namespace LineLisp

namespace Token

/-! ## Spans -/

/-- No token ends before it starts, and each ends before the next ones start. -/
structure InOrder (tokens : List Token) : Prop where
  each {t : Token} : t ∈ tokens → t.span.start ≤ t.span.stop
  next : tokens.Pairwise fun t u => t.span.stop ≤ u.span.start

theorem mem_finished {start stop : Nat} {word : List Char} {t : Token} (h : t ∈ finished start stop word) :
    word ≠ [] ∧ t = ⟨.atom (String.ofList word.reverse), ⟨start, stop⟩⟩ := by
  cases word with
  | nil => cases h
  | cons c cs => exact ⟨by simp, List.mem_singleton.mp h⟩

/-- The tokens from an offset on, in order and none of them before the offset. -/
structure InOrderFrom (offset : Nat) (tokens : List Token) : Prop extends InOrder tokens where
  start_le {t : Token} : t ∈ tokens → offset ≤ t.span.start

theorem InOrderFrom.nil (offset : Nat) : InOrderFrom offset [] where
  each h := absurd h List.not_mem_nil
  next := .nil
  start_le h := absurd h List.not_mem_nil

theorem InOrderFrom.cons {offset : Nat} {t : Token} {tokens : List Token} (hoffset : offset ≤ t.span.start)
    (ht : t.span.start ≤ t.span.stop) (h : InOrderFrom t.span.stop tokens) : InOrderFrom offset (t :: tokens) where
  each := by
    intro u hu
    rcases List.mem_cons.mp hu with rfl | hu
    · exact ht
    · exact h.each hu
  next := .cons (fun _ hu => h.start_le hu) h.next
  start_le := by
    intro u hu
    rcases List.mem_cons.mp hu with rfl | hu
    · exact hoffset
    · exact Nat.le_trans hoffset (Nat.le_trans ht (h.start_le hu))

theorem InOrderFrom.mono {offset offset' : Nat} (hle : offset ≤ offset') {tokens : List Token}
    (h : InOrderFrom offset' tokens) : InOrderFrom offset tokens :=
  ⟨h.toInOrder, fun ht => Nat.le_trans hle (h.start_le ht)⟩

/-- The atom that is finished stands before what follows it. -/
theorem InOrderFrom.finished_append {start pos : Nat} (hle : start ≤ pos) (word : List Char)
    {tokens : List Token} (h : InOrderFrom pos tokens) : InOrderFrom start (finished start pos word ++ tokens) := by
  cases word with
  | nil => exact h.mono hle
  | cons c cs => exact .cons (Nat.le_refl start) hle h

theorem inOrderFrom_scanFrom {start pos : Nat} (hle : start ≤ pos) (word cs : List Char) :
    InOrderFrom start (scanFrom start pos word cs) := by
  induction cs generalizing start pos word with
  | nil => simpa [scanFrom] using (InOrderFrom.nil pos).finished_append hle word
  | cons c cs ih =>
    have hnext : pos ≤ pos + c.utf8Size := Nat.le_add_right _ _
    have hrest := ih (Nat.le_refl (pos + c.utf8Size)) []
    simp only [scanFrom]
    split
    · exact (InOrderFrom.cons (Nat.le_refl pos) hnext hrest).finished_append hle word
    · split
      · exact (InOrderFrom.cons (Nat.le_refl pos) hnext hrest).finished_append hle word
      · split
        · exact (hrest.mono hnext).finished_append hle word
        · exact ih (Nat.le_trans hle hnext) (c :: word)

theorem inOrder_scan (s : String) : InOrder (scan s) :=
  (inOrderFrom_scanFrom (Nat.le_refl 0) [] s.toList).toInOrder

/-- A token ends no later than the last one. -/
theorem InOrder.stop_le_getLast {tokens : List Token} (h : InOrder tokens) {t last : Token} (ht : t ∈ tokens)
    (hlast : tokens.getLast? = some last) : t.span.stop ≤ last.span.stop := by
  obtain ⟨before, rfl⟩ := List.getLast?_eq_some_iff.mp hlast
  rcases List.mem_append.mp ht with ht | ht
  · have hnext := (List.pairwise_append.mp h.next).2.2 t ht last (List.mem_singleton_self last)
    exact Nat.le_trans hnext (h.each (by simp))
  · rw [List.mem_singleton.mp ht]

end Token

/-! ## Words -/

/-- There are some characters, and all of them may stand in an atom. -/
def IsWord (cs : List Char) : Prop := cs ≠ [] ∧ ∀ c ∈ cs, Token.isAtomChar c

/-- Its text is a word, if it is an atom. -/
def TokenKind.WellSpelled : TokenKind → Prop
  | .atom text => IsWord text.toList
  | _ => True

namespace Token

theorem isAtomChar_eq_false_iff {c : Char} : isAtomChar c = false ↔ c = '(' ∨ c = ')' ∨ isSeparator c := by
  unfold isAtomChar
  by_cases hopen : c = '('
  · simp [hopen]
  · by_cases hclose : c = ')' <;> simp [hopen, hclose]

theorem scanFrom_separator {c : Char} (hc : isSeparator c) (start pos : Nat) (word cs : List Char) :
    scanFrom start pos word (c :: cs) =
      finished start pos word ++ scanFrom (pos + c.utf8Size) (pos + c.utf8Size) [] cs := by
  have hopen : c ≠ '(' := by rintro rfl; revert hc; decide
  have hclose : c ≠ ')' := by rintro rfl; revert hc; decide
  simp [scanFrom, hopen, hclose, hc]

/-- Characters that may stand in an atom go on with it. -/
theorem scanFrom_append {w : List Char} (hw : ∀ c ∈ w, isAtomChar c) (start pos : Nat) (word cs : List Char) :
    scanFrom start pos word (w ++ cs) = scanFrom start (pos + Text.byteLength w) (w.reverse ++ word) cs := by
  induction w generalizing pos word with
  | nil => rfl
  | cons c w ih =>
    obtain ⟨hc, hw⟩ := List.forall_mem_cons.mp hw
    simp only [isAtomChar, Bool.not_eq_true', Bool.or_eq_false_iff, decide_eq_false_iff_not] at hc
    simp [scanFrom, hc, ih hw, Nat.add_assoc]

/-- The characters begin with none that an atom could go on with. -/
def Breaks (cs : List Char) : Prop := ∀ c ∈ cs.head?, isAtomChar c = false

/-- An atom ends at a break. -/
theorem scanFrom_of_breaks {cs : List Char} (h : Breaks cs) (start pos : Nat) (word : List Char) :
    scanFrom start pos word cs = finished start pos word ++ scanFrom pos pos [] cs := by
  cases cs with
  | nil => simp [scanFrom, finished]
  | cons c cs =>
    rcases isAtomChar_eq_false_iff.mp (h c rfl) with rfl | rfl | hsep
    · simp [scanFrom, finished]
    · simp [scanFrom, finished]
    · simp [scanFrom_separator hsep, finished]

theorem wellSpelled_of_mem_finished {start stop : Nat} {word : List Char} (hword : ∀ c ∈ word, isAtomChar c)
    {t : Token} (h : t ∈ finished start stop word) : t.kind.WellSpelled := by
  obtain ⟨hne, rfl⟩ := mem_finished h
  have hspelled : IsWord word.reverse := ⟨by simpa using hne, by simpa using hword⟩
  simpa [TokenKind.WellSpelled] using hspelled

theorem wellSpelled_of_mem_scanFrom {start pos : Nat} {word cs : List Char} (hword : ∀ c ∈ word, isAtomChar c)
    {t : Token} (h : t ∈ scanFrom start pos word cs) : t.kind.WellSpelled := by
  induction cs generalizing start pos word with
  | nil => exact wellSpelled_of_mem_finished hword h
  | cons c cs ih =>
    have hrest {next : Nat} (h : t ∈ scanFrom next next [] cs) : t.kind.WellSpelled := ih (by simp) h
    simp only [scanFrom] at h
    split at h
    · rcases List.mem_append.mp h with h | h
      · exact wellSpelled_of_mem_finished hword h
      · rcases List.mem_cons.mp h with rfl | h
        · trivial
        · exact hrest h
    · split at h
      · rcases List.mem_append.mp h with h | h
        · exact wellSpelled_of_mem_finished hword h
        · rcases List.mem_cons.mp h with rfl | h
          · trivial
          · exact hrest h
      · split at h
        · rcases List.mem_append.mp h with h | h
          · exact wellSpelled_of_mem_finished hword h
          · exact hrest h
        · next hopen hclose hsep =>
          have hc : isAtomChar c := by simp [isAtomChar, hopen, hclose, hsep]
          exact ih (List.forall_mem_cons.mpr ⟨hc, hword⟩) h

/-- The atoms of a text are words. -/
theorem wellSpelled_of_mem_scan {s : String} {t : Token} (h : t ∈ scan s) : t.kind.WellSpelled :=
  wellSpelled_of_mem_scanFrom (by simp) h

/-! ## Kinds -/

/-- The kinds of the tokens of the characters after those, last one first, of an atom. -/
def kindsFrom (word cs : List Char) : List TokenKind := (scanFrom 0 0 word cs).map (·.kind)

/-- The atom that is finished, if any. -/
def finishedKinds (word : List Char) : List TokenKind := (finished 0 0 word).map (·.kind)

theorem map_kind_finished (start stop : Nat) (word : List Char) :
    (finished start stop word).map (·.kind) = finishedKinds word := by
  cases word <;> rfl

/-- Where the characters stand does not matter. -/
theorem map_kind_scanFrom (start pos : Nat) (word cs : List Char) :
    (scanFrom start pos word cs).map (·.kind) = kindsFrom word cs := by
  have same (start' pos' : Nat) :
      (scanFrom start pos word cs).map (·.kind) = (scanFrom start' pos' word cs).map (·.kind) := by
    induction cs generalizing start pos word start' pos' with
    | nil => simp only [scanFrom, map_kind_finished]
    | cons c cs ih =>
      simp only [scanFrom]
      split
      · simp [map_kind_finished, ih _ _ [] (pos' + c.utf8Size) (pos' + c.utf8Size)]
      · split
        · simp [map_kind_finished, ih _ _ [] (pos' + c.utf8Size) (pos' + c.utf8Size)]
        · split
          · simp [map_kind_finished, ih _ _ [] (pos' + c.utf8Size) (pos' + c.utf8Size)]
          · exact ih _ _ _ _ _
  exact same 0 0

theorem map_kind_scan (s : String) : (scan s).map (·.kind) = kindsFrom [] s.toList :=
  map_kind_scanFrom 0 0 [] s.toList

theorem kindsFrom_nil (word : List Char) : kindsFrom word [] = finishedKinds word := rfl

theorem kindsFrom_opening (word cs : List Char) :
    kindsFrom word ('(' :: cs) = finishedKinds word ++ .opening :: kindsFrom [] cs := by
  rw [← map_kind_scanFrom 0 0 word]
  simp [scanFrom, map_kind_finished, map_kind_scanFrom]

theorem kindsFrom_closing (word cs : List Char) :
    kindsFrom word (')' :: cs) = finishedKinds word ++ .closing :: kindsFrom [] cs := by
  rw [← map_kind_scanFrom 0 0 word]
  simp [scanFrom, map_kind_finished, map_kind_scanFrom]

theorem kindsFrom_separator {c : Char} (hc : isSeparator c) (word cs : List Char) :
    kindsFrom word (c :: cs) = finishedKinds word ++ kindsFrom [] cs := by
  rw [← map_kind_scanFrom 0 0 word, scanFrom_separator hc, List.map_append, map_kind_finished, map_kind_scanFrom]

theorem kindsFrom_append {w : List Char} (hw : ∀ c ∈ w, isAtomChar c) (word cs : List Char) :
    kindsFrom word (w ++ cs) = kindsFrom (w.reverse ++ word) cs := by
  rw [← map_kind_scanFrom 0 0 word, scanFrom_append hw, map_kind_scanFrom]

theorem kindsFrom_of_breaks {cs : List Char} (h : Breaks cs) (word : List Char) :
    kindsFrom word cs = finishedKinds word ++ kindsFrom [] cs := by
  rw [← map_kind_scanFrom 0 0 word, scanFrom_of_breaks h, List.map_append, map_kind_finished, map_kind_scanFrom]

/-- A word before a break is one atom. -/
theorem kindsFrom_word {w cs : List Char} (hw : IsWord w) (h : Breaks cs) :
    kindsFrom [] (w ++ cs) = .atom (String.ofList w) :: kindsFrom [] cs := by
  rw [kindsFrom_append hw.2, kindsFrom_of_breaks h, List.append_nil]
  have hatom : finishedKinds w.reverse = [.atom (String.ofList w)] := by
    cases hr : w.reverse with
    | nil => exact absurd (List.reverse_eq_nil_iff.mp hr) hw.1
    | cons c cs => simp [finishedKinds, finished, ← hr]
  rw [hatom, List.singleton_append]

end Token

end LineLisp
