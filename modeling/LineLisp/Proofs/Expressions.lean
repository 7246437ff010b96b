/-
  LineLisp.Proofs.Expressions — what one read takes from the tokens. An expression is an atom or
  expressions between parentheses, and no part of its tokens from the first on is one. A read
  takes exactly an expression, or a closing parenthesis, or all there is.
  - `Token.Expression`: the tokens of an expression, and its tree.
  - `Reader.readWithin_expression`: the reader reads an expression to its tree, inside any lists and
    whatever comes after it.
  - `Reader.exists_expression`: only an expression is read to a tree; `Token.Spelled` says what
    stands before it while it is read.
  - `Reader.readWithin_error`: inside of lists a read fails at the end of the tokens alone.
  - `read_takes_one`: so each read of a reader is one of three, and after as many as there are
    tokens none is left.
-/

import LineLisp.Reader
import Mathlib

namespace LineLisp

/-! ## Expressions -/

namespace Token

/-- The tokens are one expression, and this is its tree. -/
inductive Expression : List Token → Value → Prop
  | atom {t : Token} {text : String} : t.kind = .atom text → Expression [t] (.ofAtom text)
  | list {opening closing : Token} {parts : List (List Token × Value)} : opening.kind = .opening →
      (∀ p ∈ parts, Expression p.1 p.2) → closing.kind = .closing →
        Expression (opening :: (parts.flatMap (·.1) ++ [closing])) (.list (parts.map (·.2)))

theorem Expression.ne_nil {p : List Token} {v : Value} (h : Expression p v) : p ≠ [] := by
  cases h <;> exact List.cons_ne_nil _ _

/-- The tokens from the first parenthesis that opened one of the lists on: after each of these
    parentheses stand the expressions that are its elements so far. -/
inductive Spelled : List OpenList → List Token → Prop
  | nil : Spelled [] []
  | cons {l : OpenList} {outer : List OpenList} {before : List Token} {opening : Token}
      {parts : List (List Token × Value)} : Spelled outer before → opening.kind = .opening →
        (∀ p ∈ parts, Expression p.1 p.2) → l.elements = (parts.map (·.2)).reverse →
          Spelled (l :: outer) (before ++ opening :: parts.flatMap (·.1))

/-- One more element of the innermost list. -/
theorem Spelled.add {l : OpenList} {outer : List OpenList} {before p : List Token} {v : Value}
    (h : Spelled (l :: outer) before) (hp : Expression p v) :
    Spelled ({ l with elements := v :: l.elements } :: outer) (before ++ p) := by
  cases h with
  | @cons _ _ before opening parts houter hopening hparts hl =>
    have hmore : ∀ q ∈ parts ++ [(p, v)], Expression q.1 q.2 :=
      List.forall_mem_append.mpr ⟨hparts, List.forall_mem_singleton.mpr hp⟩
    have h := houter.cons (l := { l with elements := v :: l.elements }) hopening hmore (by simp [hl])
    simpa using h

end Token

namespace Reader

open Token

/-! ## Steps of a read -/

/-- The reader after a tree is finished inside the lists that are open. -/
def resume (stop : Nat) (opened : List OpenList) (v : Value) (rest : List Token) :
    Except ParseError Value × List Token :=
  match opened with
  | [] => (.ok v, rest)
  | l :: outer => readWithin stop ({ l with elements := v :: l.elements } :: outer) rest

theorem readWithin_opening {t : Token} (ht : t.kind = .opening) (stop : Nat) (opened : List OpenList)
    (ts : List Token) : readWithin stop opened (t :: ts) = readWithin stop (⟨t.span, []⟩ :: opened) ts := by
  simp [readWithin, ht]

theorem readWithin_closing {t : Token} (ht : t.kind = .closing) (stop : Nat) (l : OpenList)
    (opened : List OpenList) (ts : List Token) :
    readWithin stop (l :: opened) (t :: ts) = resume stop opened (.list l.elements.reverse) ts := by
  cases opened <;> simp [readWithin, ht, resume]

theorem readWithin_atom {t : Token} {s : String} (ht : t.kind = .atom s) (stop : Nat) (opened : List OpenList)
    (ts : List Token) : readWithin stop opened (t :: ts) = resume stop opened (.ofAtom s) ts := by
  cases opened <;> simp [readWithin, ht, resume]

/-! ## Expressions are read -/

/-- Expressions that are read become elements of the innermost list. -/
theorem readWithin_parts {stop : Nat} {parts : List (List Token × Value)}
    (h : ∀ p ∈ parts, ∀ (opened : List OpenList) (rest : List Token),
      readWithin stop opened (p.1 ++ rest) = resume stop opened p.2 rest)
    (l : OpenList) (opened : List OpenList) (rest : List Token) :
    readWithin stop (l :: opened) (parts.flatMap (·.1) ++ rest) =
      readWithin stop ({ l with elements := (parts.map (·.2)).reverse ++ l.elements } :: opened) rest := by
  induction parts generalizing l with
  | nil => rfl
  | cons p parts ih =>
    obtain ⟨hp, hparts⟩ := List.forall_mem_cons.mp h
    rw [List.flatMap_cons, List.append_assoc, hp, resume, ih hparts]
    simp

/-- An expression is read, inside any lists and whatever comes after it. -/
theorem readWithin_expression {p : List Token} {v : Value} (h : Expression p v) (stop : Nat)
    (opened : List OpenList) (rest : List Token) :
    readWithin stop opened (p ++ rest) = resume stop opened v rest := by
  induction h generalizing opened rest with
  | atom ht => rw [List.singleton_append, readWithin_atom ht]
  | list hopening _ hclosing ih =>
    rw [List.cons_append, readWithin_opening hopening, List.append_assoc, readWithin_parts ih,
      List.singleton_append, readWithin_closing hclosing]
    simp

theorem read_expression {r : Reader} {p rest : List Token} {v : Value} (h : Expression p v)
    (hr : r.remaining = p ++ rest) : r.read = (.ok v, { r with remaining := rest }) := by
  rw [read, hr, readWithin_expression h]
  rfl

/-! ## Only expressions are read -/

/-- A tree is read from an expression, of which the lists that are open hold the beginning. -/
theorem exists_expression {stop : Nat} {opened : List OpenList} {before ts rest : List Token} {v : Value}
    (hopened : Spelled opened before) (h : readWithin stop opened ts = (.ok v, rest)) :
    ∃ used, ts = used ++ rest ∧ Expression (before ++ used) v := by
  induction ts generalizing opened before with
  | nil => cases h
  | cons t ts ih =>
    have hnext {opened' : List OpenList} {before' : List Token} (hopened' : Spelled opened' before')
        (hbefore : before' = before ++ [t]) (h : readWithin stop opened' ts = (.ok v, rest)) :
        ∃ used, t :: ts = used ++ rest ∧ Expression (before ++ used) v := by
      obtain ⟨used, rfl, hused⟩ := ih hopened' h
      refine ⟨t :: used, rfl, ?_⟩
      rwa [hbefore, List.append_assoc, List.singleton_append] at hused
    -- A finished expression goes to the innermost list, or is the one that was asked for.
    have hfinished {outer : List OpenList} {first p : List Token} {u : Value} (houter : Spelled outer first)
        (hp : Expression p u) (hbefore : first ++ p = before ++ [t])
        (h : resume stop outer u ts = (.ok v, rest)) :
        ∃ used, t :: ts = used ++ rest ∧ Expression (before ++ used) v := by
      cases houter with
      | nil =>
        obtain ⟨rfl, rfl⟩ : u = v ∧ ts = rest := by simpa [resume] using h
        exact ⟨[t], rfl, hbefore ▸ hp⟩
      | cons houter hopening hparts hl => exact hnext ((houter.cons hopening hparts hl).add hp) hbefore h
    cases hk : t.kind with
    | opening =>
      rw [readWithin_opening hk] at h
      have hempty : Spelled (⟨t.span, []⟩ :: opened) (before ++ [t]) := hopened.cons hk (List.forall_mem_nil _) rfl
      exact hnext hempty rfl h
    | atom s =>
      rw [readWithin_atom hk] at h
      exact hfinished hopened (.atom hk) rfl h
    | closing =>
      cases hopened with
      | nil => simp [readWithin, hk] at h
      | @cons l outer first opening parts houter hopening hparts hl =>
        rw [readWithin_closing hk, hl, List.reverse_reverse] at h
        exact hfinished houter (.list hopening hparts hk) (by simp) h

/-- Inside of lists a read fails only when the tokens end. -/
theorem readWithin_error {stop : Nat} {opened : List OpenList} {ts : List Token} {e : ParseError}
    (hopened : opened ≠ []) (h : (readWithin stop opened ts).1 = .error e) :
    ∃ span, readWithin stop opened ts = (.error (.unexpectedEnd span), []) := by
  induction ts generalizing opened with
  | nil => exact ⟨_, rfl⟩
  | cons t ts ih =>
    have hresume {outer : List OpenList} {u : Value} (h : (resume stop outer u ts).1 = .error e) :
        ∃ span, resume stop outer u ts = (.error (.unexpectedEnd span), []) := by
      cases outer with
      | nil => cases h
      | cons l outer => exact ih (List.cons_ne_nil _ _) h
    cases hk : t.kind with
    | opening =>
      rw [readWithin_opening hk] at h ⊢
      exact ih (List.cons_ne_nil _ _) h
    | atom s =>
      rw [readWithin_atom hk] at h ⊢
      exact hresume h
    | closing =>
      obtain ⟨l, outer, rfl⟩ := List.exists_cons_of_ne_nil hopened
      rw [readWithin_closing hk] at h ⊢
      exact hresume h

/-! ## One read -/

theorem read_closing {r : Reader} {t : Token} {rest : List Token} (ht : t.kind = .closing)
    (hr : r.remaining = t :: rest) : r.read = (.error (.unmatchedClose t.span), { r with remaining := rest }) := by
  rw [read, hr]
  simp [readWithin, ht]

theorem read_of_exhausted {r : Reader} (h : r.isExhausted = true) :
    r.read = (.error (.unexpectedEnd (.point r.stop)), r) := by
  rw [isExhausted, List.isEmpty_iff] at h
  obtain ⟨remaining, stop⟩ := r
  obtain rfl : remaining = [] := h
  rfl

/-- Tokens begin with an expression, or with a closing parenthesis, or a read finds none and takes
    all of them. -/
theorem read_cases {r : Reader} (h : r.isExhausted = false) :
    (∃ p v rest, r.remaining = p ++ rest ∧ Expression p v) ∨
      (∃ t rest, r.remaining = t :: rest ∧ t.kind = .closing) ∨
        ∃ span, r.read = (.error (.unexpectedEnd span), { r with remaining := [] }) := by
  obtain ⟨t, ts, hr⟩ : ∃ t ts, r.remaining = t :: ts := by
    refine List.exists_cons_of_ne_nil fun hnil => ?_
    simp [isExhausted, hnil] at h
  cases hk : t.kind with
  | atom s => exact .inl ⟨[t], _, ts, hr, .atom hk⟩
  | closing => exact .inr (.inl ⟨t, ts, hr, hk⟩)
  | opening =>
    have hread : r.read = ((readWithin r.stop [⟨t.span, []⟩] ts).1,
        { r with remaining := (readWithin r.stop [⟨t.span, []⟩] ts).2 }) := by
      rw [read, hr, readWithin_opening hk]
    cases hresult : readWithin r.stop [⟨t.span, []⟩] ts with
    | mk result rest =>
      cases result with
      | ok v =>
        have hopened : Spelled [⟨t.span, []⟩] [t] := .cons .nil hk (List.forall_mem_nil _) rfl
        obtain ⟨used, rfl, hused⟩ := exists_expression hopened hresult
        exact .inl ⟨t :: used, v, rest, hr, hused⟩
      | error e =>
        obtain ⟨span, herror⟩ := readWithin_error (List.cons_ne_nil _ _) (congrArg Prod.fst hresult)
        rw [herror] at hread
        exact .inr (.inr ⟨span, hread⟩)

/-! ## Reads in a row -/

/-- The reader after a number of reads, whatever they gave. -/
def afterReads : Nat → Reader → Reader
  | 0, r => r
  | n + 1, r => afterReads n r.read.2

theorem stop_afterReads (n : Nat) (r : Reader) : (afterReads n r).stop = r.stop := by
  induction n generalizing r with
  | zero => rfl
  | succ n ih => exact ih r.read.2

/-- Each read takes a token, as long as there is one. -/
theorem length_afterReads_le (n : Nat) (r : Reader) : (afterReads n r).remaining.length ≤ r.remaining.length - n := by
  induction n generalizing r with
  | zero => exact Nat.le_refl _
  | succ n ih =>
    have hle := ih r.read.2
    rw [afterReads]
    cases h : r.isExhausted with
    | true =>
      have hread : r.read.2 = r := by rw [read_of_exhausted h]
      rw [hread] at hle ⊢
      have hnil : r.remaining.length = 0 := List.length_eq_zero_iff.mpr (List.isEmpty_iff.mp h)
      omega
    | false =>
      have hlt := read_remaining_lt h
      omega

end Reader

/-- No expression is the beginning of another one. -/
theorem Token.Expression.eq_of_isPrefix {p q : List Token} {v w : Value} (hp : Expression p v) (hq : Expression q w)
    (h : q <+: p) : q = p := by
  obtain ⟨more, rfl⟩ := h
  have hwhole := Reader.readWithin_expression hp 0 [] []
  have hfirst := Reader.readWithin_expression hq 0 [] more
  rw [List.append_nil, hfirst] at hwhole
  obtain rfl : more = [] := (Prod.mk.inj hwhole).2
  rw [List.append_nil]

/-- A read of a reader that has tokens left, after any number of reads, takes one expression from
    the front and gives its tree, which it would do whatever else followed; or it takes one
    closing parenthesis, or takes all that is left, which does not begin with an expression. A
    reader without tokens stays as it is, and one of `k` tokens has none after `k` reads. -/
theorem read_takes_one (tokens : List Token) (n : Nat) :
    let r := Reader.afterReads n (.ofTokens tokens)
    (r.isExhausted = false →
      (∃ p v rest, r.remaining = p ++ rest ∧ p ≠ [] ∧ Token.Expression p v ∧
        r.read = (.ok v, { r with remaining := rest }) ∧
        (∀ (s : Reader) (more : List Token), s.remaining = p ++ more → s.read = (.ok v, { s with remaining := more })) ∧
        ∀ q, q <+: p → q ≠ p → ∀ w, ¬ Token.Expression q w) ∨
      (∃ t rest, r.remaining = t :: rest ∧ t.kind = .closing ∧
        r.read = (.error (.unmatchedClose t.span), { r with remaining := rest })) ∨
      (∃ span, r.read = (.error (.unexpectedEnd span), { r with remaining := [] })) ∧
        (∀ p, p <+: r.remaining → ∀ v, ¬ Token.Expression p v) ∧
        ∀ t rest, r.remaining = t :: rest → t.kind ≠ .closing) ∧
    (r.isExhausted = true →
      r.read = (.error (.unexpectedEnd (.point ((tokens.getLast?.map (·.span.stop)).getD 0))), r)) ∧
    (tokens.length ≤ n → r.isExhausted = true) := by
  intro r
  have hstop : r.stop = (tokens.getLast?.map (·.span.stop)).getD 0 := Reader.stop_afterReads n _
  refine ⟨fun hmore => ?_, fun hexhausted => ?_, fun hn => ?_⟩
  · rcases Reader.read_cases hmore with ⟨p, v, rest, hr, hp⟩ | ⟨t, rest, hr, ht⟩ | ⟨span, hread⟩
    · refine .inl ⟨p, v, rest, hr, hp.ne_nil, hp, Reader.read_expression hp hr,
        fun s more hs => Reader.read_expression hp hs, fun q hprefix hne w hq => ?_⟩
      exact hne (hp.eq_of_isPrefix hq hprefix)
    · exact .inr (.inl ⟨t, rest, hr, ht, Reader.read_closing ht hr⟩)
    · refine .inr (.inr ⟨⟨span, hread⟩, fun p hprefix v hp => ?_, fun t rest hr ht => ?_⟩)
      · obtain ⟨rest, hr⟩ := hprefix
        cases hread.symm.trans (Reader.read_expression hp hr.symm)
      · cases hread.symm.trans (Reader.read_closing ht hr)
  · rw [← hstop]
    exact Reader.read_of_exhausted hexhausted
  · have hlength : r.remaining.length ≤ tokens.length - n := Reader.length_afterReads_le n _
    rw [Reader.isExhausted, List.isEmpty_iff, ← List.length_eq_zero_iff]
    omega

/-- Of `) (a) (b` the first read takes the closing parenthesis, the second one an expression, the third one
    all that is left, and a fourth one finds nothing. -/
theorem read_takes_one_stray :
    let after n := Reader.afterReads n (.ofTokens (Token.scan ") (a) (b"))
    (∃ t rest, (after 0).remaining = t :: rest ∧ t.kind = .closing ∧
      (after 0).read = (.error (.unmatchedClose t.span), { after 0 with remaining := rest })) ∧
    (∃ p v rest, (after 1).remaining = p ++ rest ∧ p ≠ [] ∧ Token.Expression p v ∧
      (after 1).read = (.ok v, { after 1 with remaining := rest })) ∧
    (∃ span, (after 2).read = (.error (.unexpectedEnd span), { after 2 with remaining := [] })) ∧
    (after 3).read = (.error (.unexpectedEnd ⟨8, 8⟩), after 3) ∧ (after 6).isExhausted = true := by
  intro after
  have hall := read_takes_one (Token.scan ") (a) (b")
  refine ⟨?_, ?_, ?_, (hall 3).2.1 (by decide), (hall 6).2.2 (by decide)⟩
  · rcases (hall 0).1 (by decide) with ⟨p, v, rest, -, -, -, hread, -⟩ | h | ⟨⟨span, hread⟩, -⟩
    · cases hread
    · exact h
    · cases hread
  · rcases (hall 1).1 (by decide) with ⟨p, v, rest, hr, hne, hp, hread, -⟩ | ⟨t, rest, -, -, hread⟩ | ⟨⟨span, hread⟩, -⟩
    · exact ⟨p, v, rest, hr, hne, hp, hread⟩
    · cases hread
    · cases hread
  · rcases (hall 2).1 (by decide) with ⟨p, v, rest, -, -, -, hread, -⟩ | ⟨t, rest, -, -, hread⟩ | ⟨h, -⟩
    · cases hread
    · cases hread
    · exact h

end LineLisp
