/-
  LineLisp.Proofs.Balance — reading goes by the depth of parentheses. All trees of a token
  sequence are read in one pass: opened lists wait on a stack, as many as the tokens are deep,
  and what is finished goes to the innermost of them.
  - `Reader.readAll_eq`: the reader does what that pass does.
  - `Progress.Tracks`: what the stack says about the tokens so far, kept by each token.
  - `reads_exactly_balanced`: the trees are read if the depth never goes negative and ends at
    zero, and they flatten to the tokens; otherwise the error stands at the first closing
    parenthesis without a partner, or at the innermost opening one that is never closed.
-/

import LineLisp.Reader
import LineLisp.Proofs.Scan

namespace LineLisp

/-! ## Trees as sequences -/

/-- What a tree is a sequence of: parentheses, and leaves that are no lists. -/
inductive Lexeme where
  | opening
  | closing
  | leaf (v : Value)

/-- What a token is as a part of a tree. -/
def TokenKind.lexeme : TokenKind → Lexeme
  | opening => .opening
  | closing => .closing
  | atom text => .leaf (.ofAtom text)

namespace Value

mutual

def lexemes : Value → List Lexeme
  | list vs => .opening :: (lexemesAll vs ++ [.closing])
  | v => [.leaf v]

def lexemesAll : List Value → List Lexeme
  | [] => []
  | v :: vs => v.lexemes ++ lexemesAll vs

end

@[simp] theorem lexemesAll_nil : lexemesAll [] = [] := by rw [lexemesAll]

@[simp] theorem lexemesAll_cons (v : Value) (vs : List Value) :
    lexemesAll (v :: vs) = v.lexemes ++ lexemesAll vs := by rw [lexemesAll]

@[simp] theorem lexemesAll_append (vs ws : List Value) :
    lexemesAll (vs ++ ws) = lexemesAll vs ++ lexemesAll ws := by
  induction vs with
  | nil => simp
  | cons v vs ih => simp [ih]

theorem lexemes_list (vs : List Value) : lexemes (.list vs) = .opening :: (lexemesAll vs ++ [.closing]) := by
  rw [lexemes]

theorem lexemes_ofAtom (s : String) : (ofAtom s).lexemes = [.leaf (ofAtom s)] := by
  unfold ofAtom
  split <;> simp [lexemes]

end Value

/-! ## Depth -/

namespace Token

/-- How many more of the first `i` tokens are opening parentheses than closing ones. -/
def depth (tokens : List Token) (i : Nat) : Int :=
  ((tokens.take i).countP (·.kind = .opening) : Int) - (tokens.take i).countP (·.kind = .closing)

/-- What the token adds to the depth. -/
def rise (t : Token) : Int :=
  match t.kind with
  | .opening => 1
  | .closing => -1
  | .atom _ => 0

@[simp] theorem depth_zero (tokens : List Token) : depth tokens 0 = 0 := by simp [depth]

theorem depth_append_of_le {tokens : List Token} {i : Nat} (h : i ≤ tokens.length) (more : List Token) :
    depth (tokens ++ more) i = depth tokens i := by
  rw [depth, depth, List.take_append_of_le_length h]

theorem depth_snoc (tokens : List Token) (t : Token) :
    depth (tokens ++ [t]) (tokens.length + 1) = depth tokens tokens.length + t.rise := by
  have hall : (tokens ++ [t]).take (tokens.length + 1) = tokens ++ [t] := List.take_of_length_le (by simp)
  simp only [depth, hall, List.take_length, List.countP_append, List.countP_singleton, rise]
  cases t.kind <;> simp <;> omega

/-- The depth never goes negative and ends at zero. -/
def Balanced (tokens : List Token) : Prop :=
  (∀ i ≤ tokens.length, 0 ≤ depth tokens i) ∧ depth tokens tokens.length = 0

/-- The token at `i` is deeper than all that stands before it, and the depth goes negative there. -/
def FirstUnmatched (tokens : List Token) (i : Nat) : Prop :=
  depth tokens (i + 1) < 0 ∧ ∀ j ≤ i, 0 ≤ depth tokens j

/-- The token at `i` is an opening parenthesis and the depth does not come back to what it was
    before it. -/
def NeverClosed (tokens : List Token) (i : Nat) : Prop :=
  (∃ t, tokens[i]? = some t ∧ t.kind = .opening) ∧
    ∀ j, i < j → j ≤ tokens.length → depth tokens i < depth tokens j

end Token

/-! ## One pass -/

/-- The lists that are open, the innermost first, and the trees that are finished outside of
    them, the last one first. -/
structure Progress where
  opened : List OpenList
  done : List Value

namespace Progress

/-- A tree is finished. -/
def add (p : Progress) (v : Value) : Progress :=
  match p.opened with
  | [] => { p with done := v :: p.done }
  | l :: rest => { p with opened := { l with elements := v :: l.elements } :: rest }

def step (p : Progress) (t : Token) : Except ParseError Progress :=
  match t.kind with
  | .opening => .ok { p with opened := ⟨t.span, []⟩ :: p.opened }
  | .atom s => .ok (p.add (.ofAtom s))
  | .closing => match p.opened with
    | [] => .error (.unmatchedClose t.span)
    | l :: rest => .ok (add { p with opened := rest } (.list l.elements.reverse))

def run (p : Progress) : List Token → Except ParseError Progress
  | [] => .ok p
  | t :: ts => p.step t >>= fun p' => p'.run ts

/-- What the trees come to when the tokens end. -/
def finish (stop : Nat) (p : Progress) : Except ParseError (List Value) :=
  match p.opened with
  | [] => .ok p.done.reverse
  | l :: _ => .error (.unexpectedEnd (l.span.merge (.point stop)))

def start : Progress := ⟨[], []⟩

end Progress

/-- From lists that are open, or with tokens left, the reader reads one tree of the pass. -/
theorem Reader.run_readWithin (stop : Nat) (done : List Value) {opened : List OpenList} {ts : List Token}
    (h : opened ≠ [] ∨ ts ≠ []) :
    (Progress.run ⟨opened, done⟩ ts >>= Progress.finish stop) = (readWithin stop opened ts).1 >>= fun v =>
      Progress.run ⟨[], v :: done⟩ (readWithin stop opened ts).2 >>= Progress.finish stop := by
  induction ts generalizing opened with
  | nil =>
    cases opened with
    | nil => simp at h
    | cons l rest => rfl
  | cons t ts ih =>
    unfold readWithin
    cases hk : t.kind with
    | opening =>
      simp only [Progress.run, Progress.step, hk]
      exact ih (.inl (List.cons_ne_nil _ _))
    | closing =>
      cases opened with
      | nil => simp [Progress.run, Progress.step, hk, bind, Except.bind]
      | cons l outer =>
        cases outer with
        | nil => simp [Progress.run, Progress.step, hk, bind, Except.bind, Progress.add]
        | cons inner rest =>
          simp only [Progress.run, Progress.step, hk, Progress.add]
          exact ih (.inl (List.cons_ne_nil _ _))
    | atom s =>
      cases opened with
      | nil => simp [Progress.run, Progress.step, hk, bind, Except.bind, Progress.add]
      | cons l rest =>
        simp only [Progress.run, Progress.step, hk, Progress.add]
        exact ih (.inl (List.cons_ne_nil _ _))

theorem Reader.run_read {r : Reader} (h : ¬ r.isExhausted) (done : List Value) :
    (Progress.run ⟨[], done⟩ r.remaining >>= Progress.finish r.stop) = r.read.1 >>= fun v =>
      Progress.run ⟨[], v :: done⟩ r.read.2.remaining >>= Progress.finish r.read.2.stop := by
  rw [isExhausted, List.isEmpty_iff] at h
  exact run_readWithin r.stop done (.inr h)

/-- The reader does what one pass over its tokens does. -/
theorem Reader.readAll_eq (r : Reader) (done : List Value) :
    (Progress.run ⟨[], done⟩ r.remaining >>= Progress.finish r.stop) = r.readAll.map (done.reverse ++ ·) := by
  induction r using Reader.readAll.induct generalizing done with
  | case1 r hr =>
    rw [readAll, dif_pos hr]
    rw [isExhausted, List.isEmpty_iff] at hr
    simp [hr, Progress.run, Progress.finish, Except.map, bind, Except.bind]
  | case2 r hr e he =>
    rw [run_read hr, readAll, dif_neg hr, he]
    rfl
  | case3 r hr tree htree ih =>
    rw [run_read hr, readAll, dif_neg hr, htree]
    refine (ih (tree :: done)).trans ?_
    cases r.read.2.readAll <;> simp [Except.map]

/-! ## What the stack says -/

namespace Progress

/-- The parts of the lists that are open, the innermost first. -/
def openedLexemes : List OpenList → List Lexeme
  | [] => []
  | l :: rest => openedLexemes rest ++ .opening :: Value.lexemesAll l.elements.reverse

/-- The parts of all that was read. -/
def lexemes (p : Progress) : List Lexeme := Value.lexemesAll p.done.reverse ++ openedLexemes p.opened

theorem lexemes_add (p : Progress) (v : Value) : (p.add v).lexemes = p.lexemes ++ v.lexemes := by
  unfold add
  split
  · next h => simp [lexemes, h, openedLexemes]
  · next h => simp [lexemes, h, openedLexemes]

theorem spans_add (p : Progress) (v : Value) : (p.add v).opened.map (·.span) = p.opened.map (·.span) := by
  unfold add
  split
  · next h => simp [h]
  · next h => simp [h]

/-- A token with this span opens a list where the depth is `level`, and the depth stays above
    that to the end of the tokens. -/
def Opens (tokens : List Token) (level : Nat) (span : Span) : Prop :=
  ∃ i t, tokens[i]? = some t ∧ t.kind = .opening ∧ t.span = span ∧ Token.depth tokens i = level ∧
    ∀ j, i < j → j ≤ tokens.length → (level : Int) < Token.depth tokens j

/-- The spans, the innermost first, are those of the opening parentheses of each level. -/
def OpensAll (tokens : List Token) : List Span → Prop
  | [] => True
  | span :: rest => Opens tokens rest.length span ∧ OpensAll tokens rest

/-- What the stack says about the tokens so far: they are the parts of what was read, they have
    never been less deep than zero, they are as deep as there are open lists, and these begin at
    parentheses that are not closed yet. -/
structure Tracks (tokens : List Token) (p : Progress) : Prop where
  lexemes : p.lexemes = tokens.map (·.kind.lexeme)
  nonneg : ∀ i ≤ tokens.length, 0 ≤ Token.depth tokens i
  depth : Token.depth tokens tokens.length = p.opened.length
  opens : OpensAll tokens (p.opened.map (·.span))

theorem tracks_start : Tracks [] start where
  lexemes := by simp [Progress.lexemes, start, openedLexemes]
  nonneg i hi := by simp [Nat.le_zero.mp hi]
  depth := by simp [start]
  opens := trivial

theorem Opens.snoc {tokens : List Token} {t : Token} {level : Nat} {span : Span} (h : Opens tokens level span)
    (hlevel : (level : Int) < Token.depth tokens tokens.length + t.rise) : Opens (tokens ++ [t]) level span := by
  obtain ⟨i, u, hu, hopen, hspan, hdepth, hlater⟩ := h
  obtain ⟨hi, -⟩ := List.getElem?_eq_some_iff.mp hu
  refine ⟨i, u, by rw [List.getElem?_append_left hi, hu], hopen, hspan, ?_, fun j hij hj => ?_⟩
  · rw [Token.depth_append_of_le hi.le, hdepth]
  · by_cases hjlen : j ≤ tokens.length
    · rw [Token.depth_append_of_le hjlen]
      exact hlater j hij hjlen
    · rw [List.length_append, List.length_singleton] at hj
      obtain rfl : j = tokens.length + 1 := by omega
      rw [Token.depth_snoc]
      exact hlevel

/-- Lists stay open as long as the tokens are deeper than their level. -/
theorem OpensAll.snoc {tokens : List Token} {t : Token} {spans : List Span} (h : OpensAll tokens spans)
    (hdepth : (spans.length : Int) ≤ Token.depth tokens tokens.length + t.rise) :
    OpensAll (tokens ++ [t]) spans := by
  induction spans with
  | nil => trivial
  | cons span rest ih =>
    rw [List.length_cons] at hdepth
    exact ⟨h.1.snoc (by omega), ih h.2 (by omega)⟩

theorem Opens.last {tokens : List Token} {t : Token} (ht : t.kind = .opening) {level : Nat}
    (hdepth : Token.depth tokens tokens.length = level) : Opens (tokens ++ [t]) level t.span := by
  refine ⟨tokens.length, t, by simp, ht, rfl, ?_, fun j hij hj => ?_⟩
  · rw [Token.depth_append_of_le (Nat.le_refl _), hdepth]
  · rw [List.length_append, List.length_singleton] at hj
    obtain rfl : j = tokens.length + 1 := by omega
    rw [Token.depth_snoc, hdepth, Token.rise, ht]
    simp

theorem Tracks.nonneg_snoc {tokens : List Token} {p : Progress} (h : Tracks tokens p) {t : Token}
    (ht : 0 ≤ Token.depth tokens tokens.length + t.rise) {i : Nat} (hi : i ≤ (tokens ++ [t]).length) :
    0 ≤ Token.depth (tokens ++ [t]) i := by
  by_cases hle : i ≤ tokens.length
  · rw [Token.depth_append_of_le hle]
    exact h.nonneg i hle
  · rw [List.length_append, List.length_singleton] at hi
    obtain rfl : i = tokens.length + 1 := by omega
    rwa [Token.depth_snoc]

theorem Tracks.step {tokens : List Token} {p p' : Progress} (h : Tracks tokens p) {t : Token}
    (hstep : p.step t = .ok p') : Tracks (tokens ++ [t]) p' := by
  have hdepth := h.depth
  unfold Progress.step at hstep
  split at hstep
  · next hk =>
    obtain rfl := Except.ok.inj hstep
    have hrise : t.rise = 1 := by simp [Token.rise, hk]
    refine ⟨?_, fun i hi => h.nonneg_snoc (by omega) hi, ?_, ?_, ?_⟩
    · rw [List.map_append, ← h.lexemes]
      simp [Progress.lexemes, openedLexemes, hk, TokenKind.lexeme]
    · simp [Token.depth_snoc, hrise, hdepth]
    · exact .last hk (by simp [hdepth])
    · exact h.opens.snoc (by rw [List.length_map]; omega)
  · next s hk =>
    obtain rfl := Except.ok.inj hstep
    have hrise : t.rise = 0 := by simp [Token.rise, hk]
    have hlen : (p.add (.ofAtom s)).opened.length = p.opened.length := by
      simpa using congrArg List.length (spans_add p (.ofAtom s))
    refine ⟨?_, fun i hi => h.nonneg_snoc (by omega) hi, ?_, ?_⟩
    · rw [lexemes_add, h.lexemes, Value.lexemes_ofAtom]
      simp [hk, TokenKind.lexeme]
    · rw [List.length_append, List.length_singleton, Token.depth_snoc, hrise, hdepth, hlen, Int.add_zero]
    · rw [spans_add]
      exact h.opens.snoc (by rw [List.length_map]; omega)
  · next hk =>
    split at hstep
    · cases hstep
    · next l rest hopened =>
      obtain rfl := Except.ok.inj hstep
      have hrise : t.rise = -1 := by simp [Token.rise, hk]
      have hlen : p.opened.length = rest.length + 1 := by simp [hopened]
      have hspans := spans_add { p with opened := rest } (.list l.elements.reverse)
      have hlen' : (add { p with opened := rest } (.list l.elements.reverse)).opened.length = rest.length := by
        simpa using congrArg List.length hspans
      refine ⟨?_, fun i hi => h.nonneg_snoc (by omega) hi, ?_, ?_⟩
      · have hlexemes := h.lexemes
        simp only [Progress.lexemes, hopened, openedLexemes] at hlexemes
        rw [lexemes_add, List.map_append, ← hlexemes, Value.lexemes_list]
        simp [Progress.lexemes, hk, TokenKind.lexeme]
      · rw [List.length_append, List.length_singleton, Token.depth_snoc, hlen', hdepth, hrise]
        omega
      · have hopens := h.opens
        rw [hopened] at hopens
        rw [hspans]
        exact hopens.2.snoc (by rw [List.length_map]; omega)

theorem Tracks.run {tokens : List Token} {p p' : Progress} (h : Tracks tokens p) {ts : List Token}
    (hrun : p.run ts = .ok p') : Tracks (tokens ++ ts) p' := by
  induction ts generalizing tokens p with
  | nil =>
    obtain rfl := Except.ok.inj hrun
    rwa [List.append_nil]
  | cons t ts ih =>
    rw [Progress.run] at hrun
    cases hstep : p.step t with
    | error e => rw [hstep] at hrun; cases hrun
    | ok q =>
      rw [hstep] at hrun
      simpa using ih (h.step hstep) hrun

/-- A pass fails only at a closing parenthesis outside of all lists. -/
theorem run_eq_error {p : Progress} {ts : List Token} {e : ParseError} (h : p.run ts = .error e) :
    ∃ before t after q, ts = before ++ t :: after ∧ p.run before = .ok q ∧ q.opened = [] ∧ t.kind = .closing ∧
      e = .unmatchedClose t.span := by
  induction ts generalizing p with
  | nil => cases h
  | cons t ts ih =>
    rw [run] at h
    cases hstep : p.step t with
    | ok q =>
      rw [hstep] at h
      obtain ⟨before, u, after, q', rfl, hrun, hrest⟩ := ih h
      refine ⟨t :: before, u, after, q', rfl, ?_, hrest⟩
      rw [run, hstep]
      exact hrun
    | error e' =>
      rw [hstep] at h
      obtain rfl : e' = e := by cases h; rfl
      refine ⟨[], t, ts, p, rfl, rfl, ?_⟩
      unfold step at hstep
      split at hstep
      · cases hstep
      · cases hstep
      · next hk =>
        split at hstep
        · next hopened => exact ⟨hopened, hk, by cases hstep; rfl⟩
        · cases hstep

end Progress

/-! ## What is read -/

namespace Reader

variable {tokens : List Token}

/-- The trees of a token sequence, by one pass over it. -/
theorem readAll_ofTokens (tokens : List Token) :
    (ofTokens tokens).readAll = (Progress.start.run tokens >>= Progress.finish (ofTokens tokens).stop) := by
  refine .symm ((readAll_eq (ofTokens tokens) []).trans ?_)
  cases (ofTokens tokens).readAll <;> rfl

/-- Where the pass ends, its stack says all there is to say about the tokens. -/
theorem readAll_of_run_eq_ok {p : Progress} (h : Progress.start.run tokens = .ok p) :
    Progress.Tracks tokens p ∧ (ofTokens tokens).readAll = p.finish (ofTokens tokens).stop := by
  refine ⟨by simpa using Progress.tracks_start.run h, ?_⟩
  rw [readAll_ofTokens, h]
  rfl

/-- A pass that ends outside of all lists has read trees that are made of the tokens. -/
theorem readAll_of_closed {p : Progress} (h : Progress.start.run tokens = .ok p) (hopened : p.opened = []) :
    Token.Balanced tokens ∧ (ofTokens tokens).readAll = .ok p.done.reverse ∧
      Value.lexemesAll p.done.reverse = tokens.map (·.kind.lexeme) := by
  obtain ⟨htracks, hread⟩ := readAll_of_run_eq_ok h
  refine ⟨⟨htracks.nonneg, by simpa [hopened] using htracks.depth⟩, ?_, ?_⟩
  · rw [hread, Progress.finish, hopened]
  · simpa [Progress.lexemes, hopened, Progress.openedLexemes] using htracks.lexemes

/-- Where the pass fails, it is at a closing parenthesis that takes the depth below zero. -/
theorem readAll_of_run_eq_error {e : ParseError} (h : Progress.start.run tokens = .error e) :
    ∃ i t, tokens[i]? = some t ∧ t.kind = .closing ∧ Token.FirstUnmatched tokens i ∧
      (ofTokens tokens).readAll = .error (.unmatchedClose t.span) := by
  obtain ⟨before, t, after, q, rfl, hrun, hopened, hk, rfl⟩ := Progress.run_eq_error h
  have htracks : Progress.Tracks before q := by simpa using Progress.tracks_start.run hrun
  have hzero : Token.depth before before.length = 0 := by simpa [hopened] using htracks.depth
  refine ⟨before.length, t, by simp, hk, ⟨?_, fun j hj => ?_⟩, ?_⟩
  · have hsplit : before ++ t :: after = (before ++ [t]) ++ after := by simp
    rw [hsplit, Token.depth_append_of_le (by simp), Token.depth_snoc, hzero, Token.rise, hk]
    decide
  · rw [Token.depth_append_of_le hj]
    exact htracks.nonneg j hj
  · rw [readAll_ofTokens, h]
    rfl

/-- A pass that ends inside of lists stops in the innermost one, which is never closed. -/
theorem readAll_of_opened (hin : Token.InOrder tokens) {p : Progress} (h : Progress.start.run tokens = .ok p)
    (hopened : p.opened ≠ []) :
    (∀ i ≤ tokens.length, 0 ≤ Token.depth tokens i) ∧ 0 < Token.depth tokens tokens.length ∧
      ∃ i t last, tokens[i]? = some t ∧ Token.NeverClosed tokens i ∧ (∀ j, Token.NeverClosed tokens j → j ≤ i) ∧
        tokens.getLast? = some last ∧
          (ofTokens tokens).readAll = .error (.unexpectedEnd ⟨t.span.start, last.span.stop⟩) := by
  obtain ⟨htracks, hread⟩ := readAll_of_run_eq_ok h
  obtain ⟨l, rest, hl⟩ := List.exists_cons_of_ne_nil hopened
  have hdepth := htracks.depth
  have hopens := htracks.opens
  rw [hl, List.map_cons] at hopens
  rw [hl, List.length_cons] at hdepth
  obtain ⟨i, t, ht, hk, hspan, hlevel, hlater⟩ := hopens.1
  rw [List.length_map] at hlevel hlater
  have hmem : t ∈ tokens := List.mem_of_getElem? ht
  obtain ⟨last, hlast⟩ := Option.ne_none_iff_exists'.mp (mt List.getLast?_eq_none_iff.mp (List.ne_nil_of_mem hmem))
  refine ⟨htracks.nonneg, by omega, i, t, last, ht, ⟨⟨t, ht, hk⟩, fun j hij hj => hlevel ▸ hlater j hij hj⟩,
    fun j hj => ?_, hlast, ?_⟩
  · -- A later one would have to be less deep than the end, and is deeper than this one.
    by_contra hij
    obtain ⟨⟨u, hu, -⟩, hjlater⟩ := hj
    obtain ⟨hjlen, -⟩ := List.getElem?_eq_some_iff.mp hu
    have hend := hjlater tokens.length hjlen (Nat.le_refl _)
    have hfrom := hlater j (by omega) hjlen.le
    omega
  · have hstop : (ofTokens tokens).stop = last.span.stop := by simp [ofTokens, hlast]
    have hle : t.span.stop ≤ last.span.stop := hin.stop_le_getLast hmem hlast
    have hstart : t.span.start ≤ last.span.stop := Nat.le_trans (hin.each hmem) hle
    rw [hread, Progress.finish, hl]
    simp only [← hspan, hstop, Span.merge, Span.point, Nat.min_eq_left hstart, Nat.max_eq_right hle]

end Reader

/-- Trees are read from a text exactly if its parentheses are balanced, and their parts are then its
    tokens. Otherwise the error is at the first closing parenthesis that has no partner, or, if
    each has one, reaches from the last opening one that is never closed to the end. -/
theorem reads_exactly_balanced (s : String) :
    ((∃ trees, (Reader.ofText s).readAll = .ok trees) ↔ Token.Balanced (Token.scan s)) ∧
    (∀ trees, (Reader.ofText s).readAll = .ok trees →
      Value.lexemesAll trees = (Token.scan s).map (·.kind.lexeme)) ∧
    ((∃ i ≤ (Token.scan s).length, Token.depth (Token.scan s) i < 0) →
      ∃ i t, (Token.scan s)[i]? = some t ∧ t.kind = .closing ∧ Token.FirstUnmatched (Token.scan s) i ∧
        (Reader.ofText s).readAll = .error (.unmatchedClose t.span)) ∧
    ((∀ i ≤ (Token.scan s).length, 0 ≤ Token.depth (Token.scan s) i) →
      0 < Token.depth (Token.scan s) (Token.scan s).length →
        ∃ i t last, (Token.scan s)[i]? = some t ∧ Token.NeverClosed (Token.scan s) i ∧
          (∀ j, Token.NeverClosed (Token.scan s) j → j ≤ i) ∧ (Token.scan s).getLast? = some last ∧
            (Reader.ofText s).readAll = .error (.unexpectedEnd ⟨t.span.start, last.span.stop⟩)) := by
  have hin := Token.inOrder_scan s
  unfold Reader.ofText
  generalize Token.scan s = tokens at hin ⊢
  cases hrun : Progress.start.run tokens with
  | error e =>
    obtain ⟨i, t, ht, hk, hfirst, hread⟩ := Reader.readAll_of_run_eq_error hrun
    have hnonneg : ¬ ∀ i ≤ tokens.length, 0 ≤ Token.depth tokens i := fun h =>
      absurd (h (i + 1) (List.getElem?_eq_some_iff.mp ht).1) (Int.not_le.mpr hfirst.1)
    have hnotOk (trees : List Value) : (Reader.ofTokens tokens).readAll ≠ .ok trees := by simp [hread]
    exact ⟨⟨fun ⟨trees, h⟩ => absurd h (hnotOk trees), fun h => absurd h.1 hnonneg⟩,
      fun trees h => absurd h (hnotOk trees), fun _ => ⟨i, t, ht, hk, hfirst, hread⟩, fun h => absurd h hnonneg⟩
  | ok p =>
    by_cases hopened : p.opened = []
    · obtain ⟨hbalanced, hread, hlexemes⟩ := Reader.readAll_of_closed hrun hopened
      refine ⟨⟨fun _ => hbalanced, fun _ => ⟨_, hread⟩⟩, fun trees h => ?_, ?_, fun _ h => ?_⟩
      · rwa [Except.ok.inj (hread.symm.trans h)] at hlexemes
      · rintro ⟨i, hi, h⟩
        exact absurd (hbalanced.1 i hi) (Int.not_le.mpr h)
      · exact absurd hbalanced.2 (Int.ne_of_gt h)
    · obtain ⟨hnonneg, hpos, i, t, last, ht, hnever, hlast, hend, hread⟩ :=
        Reader.readAll_of_opened hin hrun hopened
      have hnotOk (trees : List Value) : (Reader.ofTokens tokens).readAll ≠ .ok trees := by simp [hread]
      refine ⟨⟨fun ⟨trees, h⟩ => absurd h (hnotOk trees), fun h => absurd h.2 (Int.ne_of_gt hpos)⟩,
        fun trees h => absurd h (hnotOk trees), ?_, fun _ _ => ⟨i, t, last, ht, hnever, hlast, hend, hread⟩⟩
      rintro ⟨i, hi, h⟩
      exact absurd (hnonneg i hi) (Int.not_le.mpr h)

/-- The depth of `(a)) (` goes negative, that of `(1 (2` ends at two, and `(a (1)) b` is balanced. -/
theorem reads_exactly_balanced_cases :
    (∃ i t, (Token.scan "(a)) (")[i]? = some t ∧ t.kind = .closing ∧ Token.FirstUnmatched (Token.scan "(a)) (") i ∧
      (Reader.ofText "(a)) (").readAll = .error (.unmatchedClose t.span)) ∧
    (∃ i t last, (Token.scan "(1 (2")[i]? = some t ∧ Token.NeverClosed (Token.scan "(1 (2") i ∧
      (∀ j, Token.NeverClosed (Token.scan "(1 (2") j → j ≤ i) ∧ (Token.scan "(1 (2").getLast? = some last ∧
        (Reader.ofText "(1 (2").readAll = .error (.unexpectedEnd ⟨t.span.start, last.span.stop⟩)) ∧
    ∃ trees, (Reader.ofText "(a (1)) b").readAll = .ok trees ∧
      Value.lexemesAll trees = (Token.scan "(a (1)) b").map (·.kind.lexeme) := by
  obtain ⟨-, -, hstray, -⟩ := reads_exactly_balanced "(a)) ("
  obtain ⟨-, -, -, hopen⟩ := reads_exactly_balanced "(1 (2"
  obtain ⟨hread, hparts, -, -⟩ := reads_exactly_balanced "(a (1)) b"
  obtain ⟨trees, htrees⟩ := hread.mpr (by unfold Token.Balanced; decide)
  exact ⟨hstray ⟨4, by decide, by decide⟩, hopen (by decide) (by decide), trees, htrees, hparts trees htrees⟩

end LineLisp
