/-
  LineLisp.Proofs.Segmentation — the tokens of a text are the one way to divide it. Spans of a
  division stand in order and begin and end between characters, each is spelled by the
  characters in it, what lies outside of all of them is separators, and an atom does not begin
  where another one ends.
  - `Token.Divides.cons` and `Token.Divides.separator`: a division of what follows goes on to one of
    the whole, so that the scanner's tokens are one (`Token.divides_scanFrom`).
  - `Token.Divides.maximal`: on neither side of an atom is there a character it could go on with.
  - `Token.Divides.eq_scanFrom`: the first token of a division is the one that the scanner gives, and
    the others are a division of what follows it.
  - `tokens_divide_text`: so the tokens of a text are its only division.
-/

import LineLisp.Proofs.Scan

namespace LineLisp

/-! ## Places in a text -/

namespace Span

/-- The offset lies in the span. -/
def Covers (s : Span) (offset : Nat) : Prop := s.start ≤ offset ∧ offset < s.stop

end Span

namespace Text

/-- The characters, the first of which stands at an offset, read `word` in a span. Both ends of the
    span lie between characters. -/
def Spells (offset : Nat) (cs : List Char) (span : Span) (word : List Char) : Prop :=
  ∃ before after, cs = before ++ (word ++ after) ∧ span.start = offset + byteLength before ∧
    span.stop = span.start + byteLength word

theorem byteLength_eq_zero_iff {cs : List Char} : byteLength cs = 0 ↔ cs = [] := by
  cases cs with
  | nil => simp
  | cons c cs =>
    have := c.utf8Size_pos
    simp only [byteLength_cons, reduceCtorEq, iff_false]
    omega

variable {offset : Nat} {cs word : List Char} {span : Span}

theorem Spells.offset_le (h : Spells offset cs span word) : offset ≤ span.start := by
  obtain ⟨before, after, -, hstart, -⟩ := h
  omega

theorem Spells.stop_eq (h : Spells offset cs span word) : span.stop = span.start + byteLength word := by
  obtain ⟨before, after, -, -, hstop⟩ := h
  exact hstop

theorem Spells.start_lt_stop (h : Spells offset cs span word) (hword : word ≠ []) : span.start < span.stop := by
  have hstop := h.stop_eq
  have := mt byteLength_eq_zero_iff.mp hword
  omega

/-- What is read after some characters is read in the whole. -/
theorem Spells.append (done : List Char) (h : Spells (offset + byteLength done) cs span word) :
    Spells offset (done ++ cs) span word := by
  obtain ⟨before, after, rfl, hstart, hstop⟩ := h
  exact ⟨done ++ before, after, by simp, by simp [hstart, Nat.add_assoc], hstop⟩

/-- A span that begins after some characters is read after them. -/
theorem Spells.of_append {done : List Char} (h : Spells offset (done ++ cs) span word)
    (hle : offset + byteLength done ≤ span.start) : Spells (offset + byteLength done) cs span word := by
  obtain ⟨before, after, hcs, hstart, hstop⟩ := h
  rcases List.append_eq_append_iff.mp hcs with ⟨gap, rfl, hgap⟩ | ⟨gap, rfl, hgap⟩
  · exact ⟨gap, after, hgap, by simp [hstart, Nat.add_assoc], hstop⟩
  · have hnil : gap = [] := by
      rw [← byteLength_eq_zero_iff]
      rw [byteLength_append] at hle
      omega
    subst hnil
    exact ⟨[], after, by simpa using hgap.symm, by simpa using hstart, hstop⟩

/-- What is read at the beginning stands there. -/
theorem Spells.exists_eq_append (h : Spells offset cs span word) (hstart : span.start = offset) :
    ∃ after, cs = word ++ after := by
  obtain ⟨before, after, rfl, hbefore, -⟩ := h
  have hnil : before = [] := byteLength_eq_zero_iff.mp (by omega)
  exact ⟨after, by rw [hnil, List.nil_append]⟩

/-- A character that begins in a span is a whole one of the word. -/
theorem Spells.of_covers (h : Spells offset cs span word) {before after : List Char} {c : Char}
    (hcs : cs = before ++ c :: after) (hcovers : span.Covers (offset + byteLength before)) :
    c ∈ word ∧ offset + byteLength before + c.utf8Size ≤ span.stop := by
  obtain ⟨first, rest, rfl, hstart, hstop⟩ := h
  obtain ⟨hge, hlt⟩ := hcovers
  rcases List.append_eq_append_iff.mp hcs with ⟨gap, rfl, hgap⟩ | ⟨gap, rfl, hgap⟩
  · rcases List.append_eq_append_iff.mp hgap with ⟨past, rfl, -⟩ | ⟨left, rfl, hleft⟩
    · simp only [byteLength_append] at hlt hstop
      omega
    · cases left with
      | nil =>
        simp only [List.append_nil, byteLength_append] at hlt hstop
        omega
      | cons d left =>
        obtain ⟨rfl, -⟩ := List.cons.inj hleft
        refine ⟨by simp, ?_⟩
        simp only [byteLength_append, byteLength_cons] at hstop ⊢
        omega
  · have hnil : gap = [] := by
      rw [← byteLength_eq_zero_iff]
      rw [byteLength_append] at hstart
      omega
    subst hnil
    cases word with
    | nil =>
      simp only [List.append_nil, byteLength_nil] at hlt hstop hstart
      omega
    | cons d word =>
      obtain ⟨rfl, -⟩ := List.cons.inj hgap
      refine ⟨List.mem_cons_self, ?_⟩
      simp only [List.append_nil, byteLength_cons] at hstop hstart
      omega

end Text

/-! ## Divisions -/

def TokenKind.IsAtom (k : TokenKind) : Prop := ∃ text, k = .atom text

namespace Token

/-- The tokens divide a text whose first character stands at an offset. -/
structure Divides (offset : Nat) (cs : List Char) (tokens : List Token) : Prop where
  /-- The text of a token is what stands in its span. -/
  spelled {t : Token} : t ∈ tokens → Text.Spells offset cs t.span t.text.toList
  word {t : Token} : t ∈ tokens → t.kind.WellSpelled
  proper {t : Token} : t ∈ tokens → t.span.start < t.span.stop
  ordered : tokens.Pairwise fun t u => t.span.stop ≤ u.span.start
  /-- What no token covers is a separator. -/
  outside (before : List Char) (c : Char) (after : List Char) : cs = before ++ c :: after →
    (∀ t ∈ tokens, ¬ t.span.Covers (offset + Text.byteLength before)) → isSeparator c
  /-- Two atoms in a row do not touch. -/
  apart : tokens.IsChain fun t u => t.kind.IsAtom → u.kind.IsAtom → t.span.stop < u.span.start

theorem isWord_of_isAtom {t : Token} (ht : t.kind.WellSpelled) (hatom : t.kind.IsAtom) : IsWord t.text.toList := by
  obtain ⟨word, hk⟩ := hatom
  rw [hk] at ht
  rw [text, hk]
  exact ht

/-- A token is spelled by a parenthesis or by a word. -/
theorem spelling_cases {t : Token} (ht : t.kind.WellSpelled) :
    t.kind = .opening ∧ t.text.toList = ['('] ∨ t.kind = .closing ∧ t.text.toList = [')'] ∨
      t.kind.IsAtom ∧ IsWord t.text.toList := by
  cases hk : t.kind with
  | opening => exact .inl ⟨rfl, by rw [text, hk]; rfl⟩
  | closing => exact .inr (.inl ⟨rfl, by rw [text, hk]; rfl⟩)
  | atom word => exact .inr (.inr ⟨⟨word, rfl⟩, isWord_of_isAtom ht ⟨word, hk⟩⟩)

theorem text_ne_nil {t : Token} (ht : t.kind.WellSpelled) : t.text.toList ≠ [] := by
  rcases spelling_cases ht with ⟨-, h⟩ | ⟨-, h⟩ | ⟨-, h⟩
  · simp [h]
  · simp [h]
  · exact h.1

/-- There is no separator in a token. -/
theorem not_isSeparator_of_mem {t : Token} (ht : t.kind.WellSpelled) {c : Char} (hc : c ∈ t.text.toList) :
    ¬ isSeparator c := by
  rcases spelling_cases ht with ⟨-, h⟩ | ⟨-, h⟩ | ⟨-, h⟩
  · obtain rfl : c = '(' := by simpa [h] using hc
    decide
  · obtain rfl : c = ')' := by simpa [h] using hc
    decide
  · intro hsep
    have hchar := h.2 c hc
    rw [isAtomChar_eq_false_iff.mpr (.inr (.inr hsep))] at hchar
    cases hchar

/-- A token with a character in it that may stand in an atom is one. -/
theorem isAtom_of_mem {t : Token} (ht : t.kind.WellSpelled) {c : Char} (hc : c ∈ t.text.toList)
    (hchar : isAtomChar c) : t.kind.IsAtom := by
  rcases spelling_cases ht with ⟨-, h⟩ | ⟨-, h⟩ | ⟨hatom, -⟩
  · obtain rfl : c = '(' := by simpa [h] using hc
    exact absurd hchar (by decide)
  · obtain rfl : c = ')' := by simpa [h] using hc
    exact absurd hchar (by decide)
  · exact hatom

/-- One token ends before the other begins, and there is something in between if both are atoms. -/
structure Before (t u : Token) : Prop where
  stop_le : t.span.stop ≤ u.span.start
  apart : t.kind.IsAtom → u.kind.IsAtom → t.span.stop < u.span.start

/-- The scanner takes a token, up to a break if it is an atom. -/
theorem scanFrom_token {offset : Nat} {cs : List Char} {t : Token} (ht : t.kind.WellSpelled)
    (hspan : t.span = ⟨offset, offset + Text.byteLength t.text.toList⟩) (hbreak : t.kind.IsAtom → Breaks cs) :
    scanFrom offset offset [] (t.text.toList ++ cs) = t :: scanFrom t.span.stop t.span.stop [] cs := by
  have htoken {kind : TokenKind} (hk : t.kind = kind) :
      t = ⟨kind, ⟨offset, offset + Text.byteLength t.text.toList⟩⟩ := by rw [← hspan, ← hk]
  have hstop : t.span.stop = offset + Text.byteLength t.text.toList := by rw [hspan]
  rcases spelling_cases ht with ⟨hk, h⟩ | ⟨hk, h⟩ | ⟨⟨word, hk⟩, hword⟩
  · have htoken := htoken hk
    rw [h] at htoken
    rw [hstop, h, htoken]
    simp [scanFrom, finished]
  · have htoken := htoken hk
    rw [h] at htoken
    rw [hstop, h, htoken]
    simp [scanFrom, finished]
  · have hatom : finished offset t.span.stop t.text.toList.reverse = [t] := by
      cases hr : t.text.toList.reverse with
      | nil => exact absurd (List.reverse_eq_nil_iff.mp hr) hword.1
      | cons c w =>
        have htext : String.ofList (c :: w).reverse = word := by
          rw [← hr, List.reverse_reverse, String.ofList_toList, text, hk]
          rfl
        show [(⟨.atom (String.ofList (c :: w).reverse), ⟨offset, t.span.stop⟩⟩ : Token)] = [t]
        rw [htext, hstop, ← htoken hk]
    rw [scanFrom_append hword.2, List.append_nil, ← hstop, scanFrom_of_breaks (hbreak ⟨word, hk⟩), hatom,
      List.singleton_append]

theorem not_breaks_append {w : List Char} (hw : IsWord w) (cs : List Char) : ¬ Breaks (w ++ cs) := by
  obtain ⟨c, w, rfl⟩ := List.exists_cons_of_ne_nil hw.1
  intro h
  have hchar := hw.2 c List.mem_cons_self
  rw [h c rfl] at hchar
  cases hchar

namespace Divides

variable {offset : Nat} {cs : List Char} {t u : Token} {tokens : List Token}

theorem nil (offset : Nat) : Divides offset [] [] where
  spelled h := absurd h List.not_mem_nil
  word h := absurd h List.not_mem_nil
  proper h := absurd h List.not_mem_nil
  ordered := .nil
  outside _ _ _ h := by simp at h
  apart := .nil

/-- A separator in front of a text changes nothing. -/
theorem separator {c : Char} (hc : isSeparator c) (h : Divides (offset + c.utf8Size) cs tokens) :
    Divides offset (c :: cs) tokens where
  spelled ht := Text.Spells.append [c] (h.spelled ht)
  word := h.word
  proper := h.proper
  ordered := h.ordered
  outside := by
    intro before d after hcs hout
    cases before with
    | nil =>
      obtain ⟨rfl, -⟩ := List.cons.inj hcs
      exact hc
    | cons b before =>
      obtain ⟨rfl, rfl⟩ := List.cons.inj hcs
      refine h.outside before d after rfl fun t ht => ?_
      rw [Nat.add_assoc]
      exact hout t ht
  apart := h.apart

/-- A token in front of a text, at a break if it is an atom. -/
theorem cons (ht : t.kind.WellSpelled) (hspan : t.span = ⟨offset, offset + Text.byteLength t.text.toList⟩)
    (hbreak : t.kind.IsAtom → Breaks cs) (h : Divides t.span.stop cs tokens) :
    Divides offset (t.text.toList ++ cs) (t :: tokens) := by
  have hstart : t.span.start = offset := by rw [hspan]
  have hstop : t.span.stop = offset + Text.byteLength t.text.toList := by rw [hspan]
  have hfirst : Text.Spells offset (t.text.toList ++ cs) t.span t.text.toList := ⟨[], cs, rfl, by simp [hspan]⟩
  have hproper := hfirst.start_lt_stop (text_ne_nil ht)
  rw [hstop] at h
  constructor
  · intro u hu
    rcases List.mem_cons.mp hu with rfl | hu
    · exact hfirst
    · exact (h.spelled hu).append _
  · intro u hu
    rcases List.mem_cons.mp hu with rfl | hu
    · exact ht
    · exact h.word hu
  · intro u hu
    rcases List.mem_cons.mp hu with rfl | hu
    · exact hproper
    · exact h.proper hu
  · refine .cons (fun u hu => ?_) h.ordered
    rw [hstop]
    exact (h.spelled hu).offset_le
  · intro before c after hcs hout
    obtain ⟨hnot, hout⟩ := List.forall_mem_cons.mp hout
    have hpast (gap : List Char) (hbefore : before = t.text.toList ++ gap) (hgap : cs = gap ++ c :: after) :
        isSeparator c := by
      refine h.outside gap c after hgap fun u hu => ?_
      have := hout u hu
      rwa [hbefore, Text.byteLength_append, ← Nat.add_assoc] at this
    rcases List.append_eq_append_iff.mp hcs with ⟨gap, hbefore, hgap⟩ | ⟨gap, htext, hgap⟩
    · exact hpast gap hbefore hgap
    · cases gap with
      | nil => exact hpast [] (by simpa using htext.symm) (by simpa using hgap.symm)
      | cons d gap =>
        refine absurd ⟨by omega, ?_⟩ hnot
        have := d.utf8Size_pos
        rw [hstop, htext, Text.byteLength_append, Text.byteLength_cons]
        omega
  · refine List.isChain_cons.mpr ⟨fun u hu hatom hatom' => ?_, h.apart⟩
    have hmem : u ∈ tokens := List.mem_of_mem_head? hu
    rw [hstop]
    refine Nat.lt_of_le_of_ne (h.spelled hmem).offset_le fun heq => ?_
    obtain ⟨after, rfl⟩ := (h.spelled hmem).exists_eq_append heq.symm
    exact not_breaks_append (isWord_of_isAtom (h.word hmem) hatom') after (hbreak hatom)

/-- A parenthesis in front of a text. -/
theorem parenthesis {kind : TokenKind} {c : Char} (hkind : kind = .opening ∨ kind = .closing)
    (hc : kind.text.toList = [c]) (h : Divides (offset + c.utf8Size) cs tokens) :
    Divides offset (c :: cs) (⟨kind, ⟨offset, offset + c.utf8Size⟩⟩ :: tokens) := by
  have htext : text ⟨kind, ⟨offset, offset + c.utf8Size⟩⟩ = kind.text := rfl
  have hword : kind.WellSpelled := by rcases hkind with rfl | rfl <;> trivial
  have hatom : ¬ kind.IsAtom := by
    rintro ⟨word, rfl⟩
    rcases hkind with h | h <;> cases h
  have hcons : Divides offset _ _ := h.cons (t := ⟨kind, ⟨offset, offset + c.utf8Size⟩⟩) hword
    (by rw [htext, hc]; simp) fun h => absurd h hatom
  rwa [htext, hc] at hcons

/-- The atom that is finished in front of a text. -/
theorem finished_append {start : Nat} {word : List Char} (hword : ∀ c ∈ word, isAtomChar c)
    (hoffset : offset = start + Text.byteLength word.reverse) (hbreak : Breaks cs) (h : Divides offset cs tokens) :
    Divides start (word.reverse ++ cs) (finished start offset word ++ tokens) := by
  cases hw : word with
  | nil =>
    obtain rfl : offset = start := by simpa [hw] using hoffset
    exact h
  | cons c w =>
    rw [← hw]
    have hspelled : IsWord word.reverse := ⟨by simp [hw], by simpa using hword⟩
    have hfinished : finished start offset word = [⟨.atom (String.ofList word.reverse), ⟨start, offset⟩⟩] := by
      rw [hw]
      rfl
    have htext : text ⟨.atom (String.ofList word.reverse), ⟨start, offset⟩⟩ = String.ofList word.reverse := rfl
    have hcons : Divides start _ _ := h.cons (t := ⟨.atom (String.ofList word.reverse), ⟨start, offset⟩⟩)
      (by simpa [TokenKind.WellSpelled] using hspelled) (by rw [htext, String.toList_ofList, hoffset]) fun _ => hbreak
    rwa [htext, String.toList_ofList, ← List.singleton_append, ← hfinished] at hcons

/-! ### Two tokens -/

/-- Of two tokens one ends before the other begins. -/
theorem before_or_after (h : Divides offset cs tokens) (ht : t ∈ tokens) (hu : u ∈ tokens) :
    t = u ∨ t.Before u ∨ u.Before t := by
  have hordered := List.pairwise_iff_getElem.mp h.ordered
  have hbefore {i j : Nat} (hi : i < tokens.length) (hj : j < tokens.length) (hij : i < j) :
      tokens[i].Before tokens[j] := by
    refine ⟨hordered i j hi hj hij, fun hti htj => ?_⟩
    by_cases hnext : j = i + 1
    · subst hnext
      exact List.isChain_iff_getElem.mp h.apart i hj hti htj
    · -- The tokens between two that do not follow each other take some bytes.
      have hmid : i + 1 < tokens.length := by omega
      have hfirst := hordered i (i + 1) hi hmid (by omega)
      have hproper := h.proper (List.getElem_mem hmid)
      have hlast := hordered (i + 1) j hmid hj (by omega)
      omega
  obtain ⟨i, hi, rfl⟩ := List.getElem_of_mem ht
  obtain ⟨j, hj, rfl⟩ := List.getElem_of_mem hu
  rcases Nat.lt_trichotomy i j with hij | rfl | hij
  · exact .inr (.inl (hbefore hi hj hij))
  · exact .inl rfl
  · exact .inr (.inr (hbefore hj hi hij))

/-- A character that may stand in an atom is in one. -/
theorem covered (h : Divides offset cs tokens) (before : List Char) (c : Char) (after : List Char)
    (hcs : cs = before ++ c :: after) (hc : isAtomChar c) :
    ∃ t ∈ tokens, t.kind.IsAtom ∧ t.span.Covers (offset + Text.byteLength before) ∧
      offset + Text.byteLength before + c.utf8Size ≤ t.span.stop := by
  obtain ⟨t, ht, hcovers⟩ : ∃ t ∈ tokens, t.span.Covers (offset + Text.byteLength before) := by
    by_contra hnone
    have hsep := h.outside before c after hcs fun t ht hcovers => hnone ⟨t, ht, hcovers⟩
    rw [isAtomChar_eq_false_iff.mpr (.inr (.inr hsep))] at hc
    cases hc
  obtain ⟨hmem, hstop⟩ := (h.spelled ht).of_covers hcs hcovers
  exact ⟨t, ht, isAtom_of_mem (h.word ht) hmem hc, hcovers, hstop⟩

/-- An atom cannot go on to either side. -/
theorem maximal (h : Divides offset cs tokens) (ht : t ∈ tokens) (hatom : t.kind.IsAtom)
    (before after : List Char) (hcs : cs = before ++ (t.text.toList ++ after))
    (hstart : t.span.start = offset + Text.byteLength before) : Breaks before.reverse ∧ Breaks after := by
  have hproper := h.proper ht
  have hstop : t.span.stop = t.span.start + Text.byteLength t.text.toList := (h.spelled ht).stop_eq
  constructor
  · intro c hc
    by_contra hchar
    obtain ⟨rest, hbefore⟩ : ∃ rest, before = rest ++ [c] := by
      cases hr : before.reverse with
      | nil => simp [hr] at hc
      | cons d rest =>
        obtain rfl : d = c := by simpa [hr] using hc
        exact ⟨rest.reverse, by simpa using congrArg List.reverse hr⟩
    subst hbefore
    obtain ⟨u, hu, hatom', ⟨hge, hlt⟩, hle⟩ := h.covered rest c (t.text.toList ++ after) (by simpa using hcs)
      (by simpa using hchar)
    have hpos := c.utf8Size_pos
    simp only [Text.byteLength_append, Text.byteLength_cons, Text.byteLength_nil] at hstart
    rcases h.before_or_after ht hu with rfl | hbefore | hbefore
    · omega
    · have := hbefore.stop_le
      omega
    · have := hbefore.apart hatom' hatom
      omega
  · intro c hc
    by_contra hchar
    obtain ⟨rest, rfl⟩ : ∃ rest, after = c :: rest := List.head?_eq_some_iff.mp hc
    obtain ⟨u, hu, hatom', ⟨hge, hlt⟩, -⟩ := h.covered (before ++ t.text.toList) c rest (by simpa using hcs)
      (by simpa using hchar)
    simp only [Text.byteLength_append, ← Nat.add_assoc, ← hstart, ← hstop] at hge hlt
    rcases h.before_or_after ht hu with rfl | hbefore | hbefore
    · omega
    · have := hbefore.apart hatom hatom'
      omega
    · have := hbefore.stop_le
      omega

/-! ### The first token -/

theorem eq_nil (h : Divides offset [] tokens) : tokens = [] := by
  cases tokens with
  | nil => rfl
  | cons t tokens =>
    obtain ⟨before, after, hnil, -, -⟩ := h.spelled List.mem_cons_self
    have htext : t.text.toList = [] := by
      have := congrArg List.length hnil
      rw [← List.length_eq_zero_iff]
      simp only [List.length_append, List.length_nil] at this
      omega
    exact absurd htext (text_ne_nil (h.word List.mem_cons_self))

theorem of_separator {c : Char} (hc : isSeparator c) (h : Divides offset (c :: cs) tokens) :
    Divides (offset + c.utf8Size) cs tokens where
  spelled := by
    intro t ht
    have hne : t.span.start ≠ offset := by
      intro heq
      obtain ⟨after, hcs⟩ := (h.spelled ht).exists_eq_append heq
      obtain ⟨d, w, hw⟩ := List.exists_cons_of_ne_nil (text_ne_nil (h.word ht))
      rw [hw, List.cons_append] at hcs
      obtain ⟨rfl, -⟩ := List.cons.inj hcs
      exact not_isSeparator_of_mem (h.word ht) (by simp [hw]) hc
    obtain ⟨before, after, hcs, hstart, hstop⟩ := h.spelled ht
    cases before with
    | nil => exact absurd hstart hne
    | cons d before =>
      obtain ⟨rfl, rfl⟩ := List.cons.inj hcs
      exact ⟨before, after, rfl, by rw [hstart, Text.byteLength_cons, Nat.add_assoc], hstop⟩
  word := h.word
  proper := h.proper
  ordered := h.ordered
  outside := by
    intro before d after hcs hout
    refine h.outside (c :: before) d after (by rw [hcs, List.cons_append]) fun t ht => ?_
    rw [Text.byteLength_cons, ← Nat.add_assoc]
    exact hout t ht
  apart := h.apart

/-- The first token begins at a character that is no separator. -/
theorem exists_first {c : Char} (hc : ¬ isSeparator c) (h : Divides offset (c :: cs) tokens) :
    ∃ t rest after, tokens = t :: rest ∧ c :: cs = t.text.toList ++ after ∧ t.span.start = offset := by
  obtain ⟨t, ht, hcovers⟩ : ∃ t ∈ tokens, t.span.Covers offset := by
    by_contra hnone
    exact hc (h.outside [] c cs rfl fun t ht hcovers => hnone ⟨t, ht, hcovers⟩)
  have hstart : t.span.start = offset := Nat.le_antisymm hcovers.1 (h.spelled ht).offset_le
  obtain ⟨after, hcs⟩ := (h.spelled ht).exists_eq_append hstart
  cases tokens with
  | nil => cases ht
  | cons u rest =>
    rcases List.mem_cons.mp ht with rfl | hrest
    · exact ⟨t, rest, after, rfl, hcs, hstart⟩
    · have hle := List.rel_of_pairwise_cons h.ordered hrest
      have hproper := h.proper (List.mem_cons_self (a := u) (l := rest))
      have hoffset := (h.spelled (List.mem_cons_self (a := u) (l := rest))).offset_le
      omega

/-- What follows the first token is divided by the others. -/
theorem tail (h : Divides offset (t.text.toList ++ cs) (t :: tokens)) (hstart : t.span.start = offset) :
    Divides t.span.stop cs tokens := by
  have hstop : t.span.stop = offset + Text.byteLength t.text.toList := by
    rw [(h.spelled List.mem_cons_self).stop_eq, hstart]
  obtain ⟨hle, hordered⟩ := List.pairwise_cons.mp h.ordered
  rw [hstop] at hle ⊢
  exact {
    spelled := fun hu => (h.spelled (List.mem_cons_of_mem _ hu)).of_append (hle _ hu)
    word := fun hu => h.word (List.mem_cons_of_mem _ hu)
    proper := fun hu => h.proper (List.mem_cons_of_mem _ hu)
    ordered := hordered
    outside := by
      intro before c after hcs hout
      refine h.outside (t.text.toList ++ before) c after (by rw [hcs, List.append_assoc]) ?_
      rw [Text.byteLength_append, ← Nat.add_assoc, ← hstop]
      refine List.forall_mem_cons.mpr ⟨fun hcovers => ?_, fun u hu => ?_⟩
      · have := hcovers.2
        omega
      · rw [hstop]
        exact hout u hu
    apart := (List.isChain_cons.mp h.apart).2 }

/-- There is no other division than the scanner's. -/
theorem eq_scanFrom (h : Divides offset cs tokens) : tokens = scanFrom offset offset [] cs := by
  induction hn : cs.length using Nat.strong_induction_on generalizing offset cs tokens with
  | _ n ih =>
    cases cs with
    | nil => exact h.eq_nil
    | cons c cs =>
      by_cases hc : isSeparator c
      · rw [scanFrom_separator hc]
        exact ih cs.length (by simp [← hn]) (h.of_separator hc) rfl
      · obtain ⟨t, rest, after, rfl, hcs, hstart⟩ := h.exists_first hc
        rw [hcs] at h hn ⊢
        have ht := h.word List.mem_cons_self
        have hstop := (h.spelled List.mem_cons_self).stop_eq
        have hspan : t.span = ⟨offset, offset + Text.byteLength t.text.toList⟩ := by
          rw [← hstart, ← hstop]
        have hshorter : after.length < n := by
          have := List.length_pos_of_ne_nil (text_ne_nil ht)
          rw [← hn, List.length_append]
          omega
        rw [scanFrom_token ht hspan fun hatom => (h.maximal List.mem_cons_self hatom [] after rfl hstart).2,
          ← ih after.length hshorter (h.tail hstart) rfl]

end Divides

theorem divides_scanFrom {start pos : Nat} {word : List Char} (hword : ∀ c ∈ word, isAtomChar c)
    (hpos : pos = start + Text.byteLength word.reverse) (cs : List Char) :
    Divides start (word.reverse ++ cs) (scanFrom start pos word cs) := by
  induction cs generalizing start pos word with
  | nil =>
    have h := (Divides.nil pos).finished_append hword hpos (by simp [Breaks])
    rwa [List.append_nil (finished start pos word)] at h
  | cons c cs ih =>
    have hnone : ∀ d ∈ ([] : List Char), isAtomChar d := by simp
    have hrest : Divides (pos + c.utf8Size) cs (scanFrom (pos + c.utf8Size) (pos + c.utf8Size) [] cs) :=
      ih hnone rfl
    simp only [scanFrom]
    split
    · next hc =>
      exact (hrest.parenthesis (.inl rfl) (by rw [hc]; rfl)).finished_append hword hpos (by simp [Breaks, isAtomChar, hc])
    · split
      · next hc =>
        exact (hrest.parenthesis (.inr rfl) (by rw [hc]; rfl)).finished_append hword hpos
          (by simp [Breaks, isAtomChar, hc])
      · split
        · next hsep =>
          exact (hrest.separator hsep).finished_append hword hpos (by simp [Breaks, isAtomChar, hsep])
        · next hopen hclose hsep =>
          have hc : isAtomChar c := by simp [isAtomChar, hopen, hclose, hsep]
          have hnext : pos + c.utf8Size = start + Text.byteLength (c :: word).reverse := by
            simp [hpos, Nat.add_assoc]
          simpa using ih (List.forall_mem_cons.mpr ⟨hc, hword⟩) hnext

theorem divides_scan (s : String) : Divides 0 s.toList (scan s) := by
  have hword : ∀ c ∈ ([] : List Char), isAtomChar c := by simp
  exact divides_scanFrom hword rfl s.toList

end Token

/-- The tokens of a text divide it and nothing else does: spans in order between characters, each
    spelled by what is in it, separators outside of them, no atom where another one ends. So an
    atom cannot go on to either side, and whatever is no parenthesis and no separator is in one. -/
theorem tokens_divide_text (s : String) :
    (∀ tokens, Token.Divides 0 s.toList tokens ↔ tokens = Token.scan s) ∧
    (∀ t ∈ Token.scan s, t.kind.IsAtom → ∀ before after, s.toList = before ++ (t.text.toList ++ after) →
      t.span.start = Text.byteLength before → Token.Breaks before.reverse ∧ Token.Breaks after) ∧
    ∀ before c after, s.toList = before ++ c :: after → Token.isAtomChar c →
      ∃ t ∈ Token.scan s, t.kind.IsAtom ∧ t.span.Covers (Text.byteLength before) := by
  have hdivides := Token.divides_scan s
  refine ⟨fun tokens => ⟨fun h => h.eq_scanFrom, ?_⟩, fun t ht hatom before after hcs hstart => ?_,
    fun before c after hcs hc => ?_⟩
  · rintro rfl
    exact hdivides
  · exact hdivides.maximal ht hatom before after hcs (by rw [hstart, Nat.zero_add])
  · obtain ⟨t, ht, hatom, hcovers, -⟩ := hdivides.covered before c after hcs hc
    rw [Nat.zero_add] at hcovers
    exact ⟨t, ht, hatom, hcovers⟩

/-- A no-break space goes on with an atom, and a vertical tab ends one. -/
theorem tokens_divide_text_blanks :
    Token.Divides 0 "é\u00a0(b)\x0bc".toList [⟨.atom "é\u00a0", ⟨0, 4⟩⟩, ⟨.opening, ⟨4, 5⟩⟩,
      ⟨.atom "b", ⟨5, 6⟩⟩, ⟨.closing, ⟨6, 7⟩⟩, ⟨.atom "c", ⟨8, 9⟩⟩] ∧
    (Token.Breaks "é\u00a0(".toList.reverse ∧ Token.Breaks ")\x0bc".toList) ∧
    ∃ t ∈ Token.scan "é\u00a0(b)\x0bc", t.kind.IsAtom ∧ t.span.Covers 2 := by
  obtain ⟨honly, hmaximal, hcovered⟩ := tokens_divide_text "é\u00a0(b)\x0bc"
  exact ⟨(honly _).mpr (by decide),
    hmaximal ⟨.atom "b", ⟨5, 6⟩⟩ (by decide) ⟨"b", rfl⟩ "é\u00a0(".toList ")\x0bc".toList (by decide) (by decide),
    hcovered ['é'] '\u00a0' "(b)\x0bc".toList (by decide) (by decide)⟩

end LineLisp
