/-
  LineLisp.Proofs.Concatenation — texts one after the other. A separator ends an atom, so that the
  tokens of two texts with one in between are those of the first text and then those of the
  second one, moved to where they stand. The reader looks at what it takes alone.
  - `Token.scan_separated`: the tokens of two texts with a space in between.
  - `Reader.trees_shift` and `Reader.readAll_shift`: where tokens stand matters for errors only.
  - `Reader.reads_before`: trees are read from the first tokens as if there were no others.
-/

import LineLisp.Proofs.Scan
import LineLisp.Proofs.TreeByTree

namespace LineLisp

/-! ## Moved tokens -/

/-- The token as it stands a number of bytes further on. -/
def Token.shift (t : Token) (n : Nat) : Token := { t with span := t.span.shift n }

def ParseError.shift : ParseError → Nat → ParseError
  | unexpectedEnd span, n => .unexpectedEnd (span.shift n)
  | unmatchedClose span, n => .unmatchedClose (span.shift n)

def OpenList.shift (l : OpenList) (n : Nat) : OpenList := { l with span := l.span.shift n }

theorem Span.shift_merge (s t : Span) (n : Nat) : (s.merge t).shift n = (s.shift n).merge (t.shift n) := by
  simp only [merge, shift, Nat.add_min_add_right, Nat.add_max_add_right]

namespace Token

theorem finished_shift (n start stop : Nat) (word : List Char) :
    finished (start + n) (stop + n) word = (finished start stop word).map (·.shift n) := by
  cases word <;> rfl

theorem scanFrom_shift (n start pos : Nat) (word cs : List Char) :
    scanFrom (start + n) (pos + n) word cs = (scanFrom start pos word cs).map (·.shift n) := by
  induction cs generalizing start pos word with
  | nil => exact finished_shift n start pos word
  | cons c cs ih =>
    have hnext : pos + n + c.utf8Size = pos + c.utf8Size + n := by omega
    simp only [scanFrom, hnext, ih, finished_shift]
    split
    · simp [Token.shift, Span.shift]
    · split
      · simp [Token.shift, Span.shift]
      · split
        · simp
        · rfl

/-- A separator ends what comes before it. -/
theorem scanFrom_separated {c : Char} (hc : isSeparator c) (start pos : Nat) (word cs ds : List Char) :
    scanFrom start pos word (cs ++ c :: ds) = scanFrom start pos word cs ++
      scanFrom (pos + Text.byteLength cs + c.utf8Size) (pos + Text.byteLength cs + c.utf8Size) [] ds := by
  induction cs generalizing start pos word with
  | nil => simpa [scanFrom] using scanFrom_separator hc start pos word ds
  | cons d cs ih =>
    simp only [List.cons_append, scanFrom, ih, Text.byteLength_cons, Nat.add_assoc]
    split
    · simp
    · split
      · simp
      · split
        · simp
        · rfl

/-- The tokens of two texts with a space in between. -/
theorem scan_separated (a b : String) :
    scan (a ++ " " ++ b) = scan a ++ (scan b).map (·.shift (Text.byteLength a.toList + 1)) := by
  have htext : (a ++ " " ++ b).toList = a.toList ++ ' ' :: b.toList := by simp
  have hspace : ' '.utf8Size = 1 := rfl
  have hshift := scanFrom_shift (Text.byteLength a.toList + 1) 0 0 [] b.toList
  rw [scan, htext, scanFrom_separated (by decide), hspace]
  simpa [scan] using hshift

end Token

namespace Reader

/-! ## Readers of moved tokens -/

theorem readWithin_shift (n stop : Nat) (opened : List OpenList) (ts : List Token) :
    readWithin (stop + n) (opened.map (·.shift n)) (ts.map (·.shift n)) =
      ((readWithin stop opened ts).1.mapError (·.shift n), (readWithin stop opened ts).2.map (·.shift n)) := by
  induction ts generalizing opened with
  | nil =>
    cases opened with
    | nil => rfl
    | cons l rest =>
      have hspan : (l.span.merge (.point stop)).shift n = (l.span.shift n).merge (.point (stop + n)) :=
        Span.shift_merge l.span (.point stop) n
      simp [readWithin, Except.mapError, ParseError.shift, OpenList.shift, hspan]
  | cons t ts ih =>
    rw [List.map_cons]
    unfold readWithin
    simp only [Token.shift]
    cases t.kind with
    | opening => exact ih (⟨t.span, []⟩ :: opened)
    | closing =>
      cases opened with
      | nil => rfl
      | cons l outer =>
        cases outer with
        | nil => rfl
        | cons inner rest => exact ih ({ inner with elements := .list l.elements.reverse :: inner.elements } :: rest)
    | atom s =>
      cases opened with
      | nil => rfl
      | cons l rest => exact ih ({ l with elements := .ofAtom s :: l.elements } :: rest)

/-- The reader of the same tokens further on. -/
def shift (r : Reader) (n : Nat) : Reader := ⟨r.remaining.map (·.shift n), r.stop + n⟩

theorem read_shift (r : Reader) (n : Nat) : (r.shift n).read = (r.read.1.mapError (·.shift n), r.read.2.shift n) := by
  have h := readWithin_shift n r.stop [] r.remaining
  rw [List.map_nil] at h
  simp only [read, shift, h]

theorem isExhausted_shift (r : Reader) (n : Nat) : (r.shift n).isExhausted = r.isExhausted := by
  cases r with
  | mk remaining stop => cases remaining <;> rfl

theorem trees_shift (r : Reader) (n : Nat) : (r.shift n).trees = r.trees := by
  induction r using Reader.trees.induct with
  | case1 r e he =>
    rw [trees_of_error he, trees_of_error (e := e.shift n)]
    rw [read_shift, he]
    rfl
  | case2 r tree htree ih =>
    have hread : (r.shift n).read.1 = .ok tree := by
      rw [read_shift, htree]
      rfl
    rw [trees_of_ok htree, trees_of_ok hread, read_shift]
    exact congrArg (tree :: ·) ih

theorem readAll_shift (r : Reader) (n : Nat) : (r.shift n).readAll = r.readAll.mapError (·.shift n) := by
  induction r using Reader.readAll.induct with
  | case1 r hr =>
    rw [readAll_of_exhausted hr, readAll_of_exhausted (by rw [isExhausted_shift, hr])]
    rfl
  | case2 r hr e he =>
    have hmore : r.isExhausted = false := by simpa using hr
    have hread : (r.shift n).read.1 = .error (e.shift n) := by
      rw [read_shift, he]
      rfl
    rw [readAll_of_error hmore he, readAll_of_error (by rw [isExhausted_shift, hmore]) hread]
    rfl
  | case3 r _ tree htree ih =>
    have hread : (r.shift n).read.1 = .ok tree := by
      rw [read_shift, htree]
      rfl
    rw [readAll_of_ok htree, readAll_of_ok hread, read_shift, ih]
    cases r.read.2.readAll <;> rfl

theorem ofTokens_shift {tokens : List Token} (h : tokens ≠ []) (n : Nat) :
    ofTokens (tokens.map (·.shift n)) = (ofTokens tokens).shift n := by
  cases hlast : tokens.getLast? with
  | none => exact absurd (List.getLast?_eq_none_iff.mp hlast) h
  | some t => simp [ofTokens, shift, List.getLast?_map, hlast, Token.shift, Span.shift]

/-! ## Readers of more tokens -/

theorem readWithin_append {stop : Nat} {opened : List OpenList} {ts : List Token} {tree : Value}
    (h : (readWithin stop opened ts).1 = .ok tree) (stop' : Nat) (us : List Token) :
    readWithin stop' opened (ts ++ us) = (.ok tree, (readWithin stop opened ts).2 ++ us) := by
  induction ts generalizing opened with
  | nil => cases h
  | cons t ts ih =>
    rw [List.cons_append]
    unfold readWithin at h ⊢
    cases hk : t.kind with
    | opening =>
      simp only [hk] at h ⊢
      exact ih h
    | closing =>
      simp only [hk] at h ⊢
      cases opened with
      | nil => cases h
      | cons l outer =>
        cases outer with
        | nil =>
          cases h
          rfl
        | cons inner rest => exact ih h
    | atom s =>
      simp only [hk] at h ⊢
      cases opened with
      | nil =>
        cases h
        rfl
      | cons l rest => exact ih h

/-- The reader of the first one's tokens and then of the second one's. -/
def before (r s : Reader) : Reader := ⟨r.remaining ++ s.remaining, s.stop⟩

theorem read_before {r : Reader} {tree : Value} (h : r.read.1 = .ok tree) (s : Reader) :
    (r.before s).read = (.ok tree, r.read.2.before s) := by
  have hfirst : (readWithin r.stop [] r.remaining).1 = .ok tree := h
  simp only [read, before, readWithin_append hfirst s.stop s.remaining]

theorem before_of_exhausted {r : Reader} (h : r.isExhausted = true) (s : Reader) : r.before s = s := by
  rw [isExhausted, List.isEmpty_iff] at h
  rw [before, h, List.nil_append]

/-- All of the first tokens are read before the others. -/
theorem reads_before {r : Reader} {trees : List Value} (h : r.readAll = .ok trees) (s : Reader) :
    (r.before s).Reads trees s := by
  induction r using Reader.readAll.induct generalizing trees with
  | case1 r hr =>
    obtain rfl : [] = trees := by simpa [readAll_of_exhausted hr] using h
    rw [before_of_exhausted hr]
    exact .nil s
  | case2 r hr e he =>
    rw [readAll_of_error (by simpa using hr) he] at h
    cases h
  | case3 r _ tree htree ih =>
    rw [readAll_of_ok htree] at h
    cases hall : r.read.2.readAll with
    | error e => simp [hall, Except.map] at h
    | ok rest =>
      obtain rfl : tree :: rest = trees := by simpa [hall, Except.map] using h
      have hread := read_before htree s
      refine .cons (congrArg Prod.fst hread) ?_
      rw [hread]
      exact ih hall

theorem ofTokens_append (ts : List Token) {us : List Token} (h : us ≠ []) :
    ofTokens (ts ++ us) = (ofTokens ts).before (ofTokens us) := by
  simp [ofTokens, before, List.getLast?_append_of_ne_nil ts h]

/-- Two texts with a space in between are read one after the other. -/
theorem ofText_separated (a : String) {b : String} (hb : Token.scan b ≠ []) :
    ofText (a ++ " " ++ b) = (ofText a).before ((ofText b).shift (Text.byteLength a.toList + 1)) := by
  rw [ofText, Token.scan_separated, ofTokens_append _ (by simpa using hb), ofTokens_shift hb]
  rfl

end Reader

end LineLisp
