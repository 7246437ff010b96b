/-
  LineLisp.Proofs.Printing — printing and reading again. A tree that was read prints to a text
  whose tokens are those that it was read from, each atom spelled anew, and the text is read as
  the same tree; only infinite floats come back as symbols, and print the same.
  - `Value.Readable.kindsFrom_text`: the tokens of a tree's text are its parts.
  - `Reader.readWithin_lexemes`: the reader reads a tree from its parts, wherever they stand.
  - `prints_as_read`: both together, for one tree and for all trees of a text.
-/

import LineLisp.Proofs.Balance
import LineLisp.Proofs.Expressions
import LineLisp.Proofs.Numeral

namespace LineLisp

/-! ## What comes back -/

namespace Value

mutual

/-- What the text of a tree is read as: the words for infinite numbers are symbols. -/
def reread : Value → Value
  | number (.float (.infinite negative)) => symbol (if negative then "-Infinity" else "Infinity")
  | list vs => list (rereadAll vs)
  | v => v

def rereadAll : List Value → List Value
  | [] => []
  | v :: vs => v.reread :: rereadAll vs

end

theorem rereadAll_eq_map (vs : List Value) : rereadAll vs = vs.map reread := by
  induction vs with
  | nil => rfl
  | cons v vs ih => simp [rereadAll, ih]

theorem reread_list (vs : List Value) : reread (.list vs) = .list (vs.map reread) := by
  rw [reread, rereadAll_eq_map]

theorem lexemesAll_eq_flatMap (vs : List Value) : lexemesAll vs = vs.flatMap lexemes := by
  induction vs with
  | nil => simp
  | cons v vs ih => simp [ih]

/-- What an atom can be. -/
theorem ofAtom_cases (s : String) :
    ofAtom s = .symbol s ∨ (∃ i, ofAtom s = .number (.int i)) ∨
      (∃ negative m e hc, ofAtom s = .number (.float (.finite negative m e hc))) ∨
        ∃ negative, ofAtom s = .number (.float (.infinite negative)) := by
  unfold ofAtom
  split
  · next n hn =>
    rcases Number.ofText?_cases hn with ⟨i, rfl⟩ | ⟨negative, m, e, hc, rfl⟩ | ⟨negative, rfl⟩
    · exact .inr (.inl ⟨i, rfl⟩)
    · exact .inr (.inr (.inl ⟨negative, m, e, hc, rfl⟩))
    · exact .inr (.inr (.inr ⟨negative, rfl⟩))
  · exact .inl rfl

theorem reread_infinite (negative : Bool) :
    reread (.number (.float (.infinite negative))) = .symbol (if negative then "-Infinity" else "Infinity") := rfl

/-- An atom comes back, or it is an infinite number. -/
theorem reread_ofAtom (s : String) :
    (ofAtom s).reread = ofAtom s ∨ ∃ negative, ofAtom s = .number (.float (.infinite negative)) := by
  rcases ofAtom_cases s with h | ⟨i, h⟩ | ⟨negative, m, e, hc, h⟩ | hinfinite
  · exact .inl (by rw [h]; rfl)
  · exact .inl (by rw [h]; rfl)
  · exact .inl (by rw [h]; rfl)
  · exact .inr hinfinite

/-- The text of an atom is again one atom, which is what comes back. -/
theorem ofAtom_text {s : String} (hs : IsWord s.toList) :
    IsWord (ofAtom s).text.toList ∧ ofAtom (ofAtom s).text = (ofAtom s).reread := by
  rcases ofAtom_cases s with h | ⟨i, h⟩ | ⟨negative, m, e, hc, h⟩ | ⟨negative, h⟩
  · have hback : ofAtom (ofAtom s).text = (ofAtom s).reread := by rw [h, text, h]; rfl
    rw [h] at hback ⊢
    exact ⟨hs, hback⟩
  · rw [h, text]
    refine ⟨Number.isWord_text_int i, ?_⟩
    rw [ofAtom, Number.ofText?_int]
    rfl
  · rw [h, text]
    refine ⟨Number.isWord_text_float negative hc, ?_⟩
    rw [ofAtom, Number.ofText?_float]
    rfl
  · rw [h, text]
    refine ⟨Number.isWord_text_infinite negative, ?_⟩
    rw [ofAtom, Number.ofText?_infinite, Number.text_infinite, reread_infinite]

/-- A tree of atoms that a text can have. -/
inductive Readable : Value → Prop
  | atom {s : String} (hs : IsWord s.toList) : Readable (ofAtom s)
  | list {vs : List Value} (h : ∀ v ∈ vs, Readable v) : Readable (.list vs)

theorem Readable.reread {v : Value} (h : v.Readable) : v.reread.Readable := by
  induction h with
  | atom hs =>
    obtain ⟨hword, hback⟩ := ofAtom_text hs
    rw [← hback]
    exact .atom hword
  | list h ih =>
    rw [reread_list]
    exact .list (List.forall_mem_map.mpr ih)

theorem Readable.text_reread {v : Value} (h : v.Readable) : v.reread.text = v.text := by
  induction h with
  | @atom s hs =>
    rcases reread_ofAtom s with h | ⟨negative, h⟩
    · rw [h]
    · rw [h, reread_infinite, Value.text, Value.text, Number.text_infinite]
  | @list vs _ ih =>
    have hmap : (vs.map Value.reread).map Value.text = vs.map Value.text := by
      rw [List.map_map]
      exact List.map_congr_left ih
    rw [reread_list, Value.text, Value.text, texts_eq_map, texts_eq_map, hmap]

/-- A tree without infinite numbers comes back. -/
theorem Readable.reread_eq {v : Value} (h : v.Readable)
    (hfinite : ∀ negative, Lexeme.leaf (.number (.float (.infinite negative))) ∉ v.lexemes) : v.reread = v := by
  induction h with
  | @atom s hs =>
    rcases reread_ofAtom s with h | ⟨negative, h⟩
    · exact h
    · exact absurd (by simp [h, lexemes]) (hfinite negative)
  | @list vs _ ih =>
    have hback : vs.map Value.reread = vs.map id := by
      refine List.map_congr_left fun v hv => ih v hv fun negative hmem => hfinite negative ?_
      rw [lexemes_list, lexemesAll_eq_flatMap]
      exact List.mem_cons_of_mem _ (List.mem_append_left _ (List.mem_flatMap_of_mem hv hmem))
    rw [reread_list, hback, List.map_id]

end Value

/-! ## Spelling -/

/-- The token that the part is written as. -/
def Lexeme.kind : Lexeme → TokenKind
  | opening => .opening
  | closing => .closing
  | leaf v => .atom v.text

/-- The token with its atom as it is printed. -/
def TokenKind.respelled : TokenKind → TokenKind
  | atom text => .atom (Value.ofAtom text).text
  | k => k

theorem TokenKind.kind_lexeme (k : TokenKind) : k.lexeme.kind = k.respelled := by
  cases k <;> rfl

/-- The token is written for a number that is too large. -/
def TokenKind.Overflows : TokenKind → Prop
  | atom text => ∃ negative, Number.ofText? text = some (.float (.infinite negative))
  | _ => False

instance (k : TokenKind) : Decidable k.Overflows :=
  match k with
  | .opening => .isFalse id
  | .closing => .isFalse id
  | .atom text => inferInstanceAs (Decidable (∃ negative, Number.ofText? text = some (.float (.infinite negative))))

theorem TokenKind.exists_of_lexeme_eq_leaf {k : TokenKind} {v : Value} (h : k.lexeme = .leaf v) :
    ∃ text, k = .atom text ∧ .ofAtom text = v := by
  cases k with
  | opening => cases h
  | closing => cases h
  | atom text => exact ⟨text, rfl, Lexeme.leaf.inj h⟩

theorem TokenKind.overflows_of_lexeme {k : TokenKind} {negative : Bool}
    (h : k.lexeme = .leaf (.number (.float (.infinite negative)))) : k.Overflows := by
  obtain ⟨text, rfl, hatom⟩ := exists_of_lexeme_eq_leaf h
  refine ⟨negative, ?_⟩
  unfold Value.ofAtom at hatom
  split at hatom
  · next n hn => rw [hn, Value.number.inj hatom]
  · cases hatom

theorem TokenKind.eq_opening_of_lexeme {k : TokenKind} (h : k.lexeme = .opening) : k = .opening := by
  cases k with
  | opening => rfl
  | closing => cases h
  | atom text => cases h

theorem TokenKind.eq_closing_of_lexeme {k : TokenKind} (h : k.lexeme = .closing) : k = .closing := by
  cases k with
  | opening => cases h
  | closing => rfl
  | atom text => cases h

namespace Value

theorem breaks_separated (cs : List Char) : Token.Breaks (' ' :: cs) := by
  intro c hc
  obtain rfl : ' ' = c := by simpa using hc
  decide

/-- The texts of trees, one space between each two, split into their parts. -/
theorem kindsFrom_texts {vs : List Value} (h : ∀ v ∈ vs, ∀ cs, Token.Breaks cs →
      Token.kindsFrom [] (v.text.toList ++ cs) = v.lexemes.map Lexeme.kind ++ Token.kindsFrom [] cs)
    {cs : List Char} (hcs : Token.Breaks cs) :
    Token.kindsFrom [] ((" ".intercalate (vs.map text)).toList ++ cs) =
      (lexemesAll vs).map Lexeme.kind ++ Token.kindsFrom [] cs := by
  induction vs with
  | nil => simp
  | cons v vs ih =>
    obtain ⟨hv, hvs⟩ := List.forall_mem_cons.mp h
    cases vs with
    | nil => simpa using hv cs hcs
    | cons w ws =>
      have hrest := ih hvs
      rw [List.map_cons] at hrest
      -- The space ends the last atom of the first text and is no token itself.
      have hspace : " ".toList = [' '] := rfl
      rw [List.map_cons, List.map_cons, String.intercalate_cons_cons, String.toList_append, String.toList_append,
        List.append_assoc, List.append_assoc, hspace, List.singleton_append, hv _ (breaks_separated _),
        Token.kindsFrom_separator (by decide), hrest]
      simp [Token.finishedKinds, Token.finished]

/-- The text of a tree splits into its parts. -/
theorem Readable.kindsFrom_text {v : Value} (h : v.Readable) {cs : List Char} (hcs : Token.Breaks cs) :
    Token.kindsFrom [] (v.text.toList ++ cs) = v.lexemes.map Lexeme.kind ++ Token.kindsFrom [] cs := by
  induction h generalizing cs with
  | @atom s hs =>
    rw [Token.kindsFrom_word (ofAtom_text hs).1 hcs, lexemes_ofAtom, String.ofList_toList]
    rfl
  | @list vs _ ih =>
    have hclose : Token.Breaks (')' :: cs) := by
      intro c hc
      obtain rfl : ')' = c := by simpa using hc
      decide
    rw [text, texts_eq_map]
    simp only [String.toList_append, List.append_assoc]
    have hopen : "(".toList = ['('] := rfl
    have hend : ")".toList = [')'] := rfl
    rw [hopen, hend, List.singleton_append, List.singleton_append, Token.kindsFrom_opening,
      kindsFrom_texts (fun v hv cs => ih v hv) hclose, Token.kindsFrom_closing, lexemes_list]
    simp [Token.finishedKinds, Token.finished, Lexeme.kind]

/-- The texts of trees as one text. -/
theorem map_kind_scan_texts {vs : List Value} (h : ∀ v ∈ vs, v.Readable) :
    (Token.scan (" ".intercalate (vs.map text))).map (·.kind) = (lexemesAll vs).map Lexeme.kind := by
  have hbreaks : Token.Breaks [] := fun c hc => by cases hc
  have hkinds := kindsFrom_texts (fun v hv cs hcs => (h v hv).kindsFrom_text hcs) hbreaks
  rw [List.append_nil] at hkinds
  rw [Token.map_kind_scan, hkinds]
  simp [Token.kindsFrom_nil, Token.finishedKinds, Token.finished]

/-- The parts of a tree, spelled and split again, are those of the tree that comes back. -/
theorem Readable.lexeme_kind {v : Value} (h : v.Readable) :
    v.lexemes.map (·.kind.lexeme) = v.reread.lexemes := by
  induction h with
  | @atom s hs =>
    rw [lexemes_ofAtom, ← (ofAtom_text hs).2, lexemes_ofAtom]
    rfl
  | @list vs _ ih =>
    have hparts : (lexemesAll vs).map (·.kind.lexeme) = lexemesAll (vs.map Value.reread) := by
      rw [lexemesAll_eq_flatMap, lexemesAll_eq_flatMap, List.map_flatMap, List.flatMap_map]
      exact List.flatMap_congr ih
    rw [reread_list, lexemes_list, lexemes_list, ← hparts]
    simp [Lexeme.kind, TokenKind.lexeme]

end Value

/-! ## Reading parts -/

namespace Reader

/-- The parts of trees are divided among them. -/
theorem exists_parts {vs : List Value} {used : List Token} (hused : used.map (·.kind.lexeme) = Value.lexemesAll vs) :
    ∃ parts : List (List Token × Value), used = parts.flatMap (·.1) ∧ vs = parts.map (·.2) ∧
      ∀ p ∈ parts, p.1.map (·.kind.lexeme) = p.2.lexemes := by
  induction vs generalizing used with
  | nil =>
    obtain rfl : used = [] := by simpa using hused
    exact ⟨[], rfl, rfl, by simp⟩
  | cons v vs ih =>
    rw [Value.lexemesAll_cons] at hused
    obtain ⟨first, others, rfl, hfirst, hothers⟩ := List.map_eq_append_iff.mp hused
    obtain ⟨parts, rfl, rfl, hparts⟩ := ih hothers
    exact ⟨(first, v) :: parts, rfl, rfl, List.forall_mem_cons.mpr ⟨hfirst, hparts⟩⟩

/-- The parts of a tree are an expression. -/
theorem expression_of_lexemes {v : Value} (h : v.Readable) {used : List Token}
    (hused : used.map (·.kind.lexeme) = v.lexemes) : Token.Expression used v := by
  induction h generalizing used with
  | @atom s hs =>
    rw [Value.lexemes_ofAtom] at hused
    obtain ⟨t, rfl, ht⟩ := List.map_eq_singleton_iff.mp hused
    obtain ⟨text, hkind, hatom⟩ := TokenKind.exists_of_lexeme_eq_leaf ht
    exact hatom ▸ .atom hkind
  | @list vs _ ih =>
    rw [Value.lexemes_list] at hused
    obtain ⟨t, others, rfl, ht, hothers⟩ := List.map_eq_cons_iff.mp hused
    obtain ⟨inner, last, rfl, hinner, hlast⟩ := List.map_eq_append_iff.mp hothers
    obtain ⟨c, rfl, hc⟩ := List.map_eq_singleton_iff.mp hlast
    obtain ⟨parts, rfl, rfl, hparts⟩ := exists_parts hinner
    exact .list (TokenKind.eq_opening_of_lexeme ht) (fun p hp => ih p.2 (List.mem_map_of_mem hp) (hparts p hp))
      (TokenKind.eq_closing_of_lexeme hc)

/-- A tree is read from its parts, inside any lists and whatever comes after it. -/
theorem readWithin_lexemes {v : Value} (h : v.Readable) {stop : Nat} {used : List Token}
    (hused : used.map (·.kind.lexeme) = v.lexemes) (opened : List OpenList) (rest : List Token) :
    readWithin stop opened (used ++ rest) = resume stop opened v rest :=
  readWithin_expression (expression_of_lexemes h hused) stop opened rest

/-- What was read is a tree of the tokens that are used up. -/
theorem readable_of_readWithin {stop : Nat} {opened : List OpenList} {ts rest : List Token} {v : Value}
    (h : readWithin stop opened ts = (.ok v, rest)) (hts : ∀ t ∈ ts, t.kind.WellSpelled)
    (hopened : ∀ l ∈ opened, ∀ u ∈ l.elements, u.Readable) :
    v.Readable ∧ ∃ used, ts = used ++ rest ∧
      Progress.openedLexemes opened ++ used.map (·.kind.lexeme) = v.lexemes := by
  induction ts generalizing opened with
  | nil => cases h
  | cons t ts ih =>
    obtain ⟨ht, hts⟩ := List.forall_mem_cons.mp hts
    -- The rest of the run reads the tree from what is open after the token.
    have hnext {opened' : List OpenList} (h : readWithin stop opened' ts = (.ok v, rest))
        (hopened' : ∀ l ∈ opened', ∀ u ∈ l.elements, u.Readable)
        (hparts : Progress.openedLexemes opened' = Progress.openedLexemes opened ++ [t.kind.lexeme]) :
        v.Readable ∧ ∃ used, t :: ts = used ++ rest ∧
          Progress.openedLexemes opened ++ used.map (·.kind.lexeme) = v.lexemes := by
      obtain ⟨hv, used, rfl, hused⟩ := ih h hts hopened'
      refine ⟨hv, t :: used, rfl, ?_⟩
      rw [← hused, hparts, List.map_cons, List.append_assoc, List.singleton_append]
    -- A finished tree goes to the innermost list, or is the one that was asked for.
    have hfinished {outer : List OpenList} {u : Value} (h : resume stop outer u ts = (.ok v, rest))
        (hu : u.Readable) (houter : ∀ l ∈ outer, ∀ u ∈ l.elements, u.Readable)
        (hparts : Progress.openedLexemes outer ++ u.lexemes =
          Progress.openedLexemes opened ++ [t.kind.lexeme]) :
        v.Readable ∧ ∃ used, t :: ts = used ++ rest ∧
          Progress.openedLexemes opened ++ used.map (·.kind.lexeme) = v.lexemes := by
      cases outer with
      | nil =>
        obtain ⟨rfl, rfl⟩ : u = v ∧ ts = rest := by simpa [resume] using h
        exact ⟨hu, [t], rfl, by simpa [Progress.openedLexemes] using hparts.symm⟩
      | cons l outer =>
        obtain ⟨hl, houter⟩ := List.forall_mem_cons.mp houter
        refine hnext h (List.forall_mem_cons.mpr ⟨List.forall_mem_cons.mpr ⟨hu, hl⟩, houter⟩) ?_
        rw [← hparts]
        simp [Progress.openedLexemes]
    cases hk : t.kind with
    | opening =>
      rw [readWithin_opening hk] at h
      refine hnext h (List.forall_mem_cons.mpr ⟨by simp, hopened⟩) ?_
      simp [Progress.openedLexemes, hk, TokenKind.lexeme]
    | atom s =>
      rw [readWithin_atom hk] at h
      rw [hk] at ht
      exact hfinished h (.atom ht) hopened (by simp [Value.lexemes_ofAtom, hk, TokenKind.lexeme])
    | closing =>
      cases opened with
      | nil => simp [readWithin, hk] at h
      | cons l outer =>
        rw [readWithin_closing hk] at h
        obtain ⟨hl, houter⟩ := List.forall_mem_cons.mp hopened
        refine hfinished h (.list fun u hu => hl u (List.mem_reverse.mp hu)) houter ?_
        simp [Progress.openedLexemes, Value.lexemes_list, hk, TokenKind.lexeme]

theorem exists_of_map_toOption {α β : Type} {result : Except ParseError α} {g : α → β} {b : β}
    (h : result.toOption.map g = some b) : ∃ v, result = .ok v ∧ g v = b := by
  cases result with
  | error e => cases h
  | ok v => exact ⟨v, rfl, Option.some.inj h⟩

/-- All trees are read from their parts. -/
theorem readAll_lexemes {stop : Nat} {vs : List Value} (h : ∀ v ∈ vs, v.Readable) {tokens : List Token}
    (htokens : tokens.map (·.kind.lexeme) = Value.lexemesAll vs) : readAll ⟨tokens, stop⟩ = .ok vs := by
  induction vs generalizing tokens with
  | nil =>
    obtain rfl : tokens = [] := by simpa using htokens
    simp [readAll, isExhausted]
  | cons v vs ih =>
    rw [Value.lexemesAll_cons] at htokens
    obtain ⟨used, rest, rfl, hused, hrest⟩ := List.map_eq_append_iff.mp htokens
    obtain ⟨hv, hvs⟩ := List.forall_mem_cons.mp h
    have hread : read ⟨used ++ rest, stop⟩ = (.ok v, ⟨rest, stop⟩) := by
      simp [read, readWithin_lexemes hv hused, resume]
    have hmore : isExhausted ⟨used ++ rest, stop⟩ = false := isExhausted_of_read_ok (by rw [hread])
    rw [readAll, dif_neg (by simp [hmore]), hread]
    simp only [ih hvs hrest, Except.map]

/-- All trees that were read are trees of the tokens. -/
theorem readable_of_readAll {r : Reader} {vs : List Value} (h : r.readAll = .ok vs)
    (hspelled : ∀ t ∈ r.remaining, t.kind.WellSpelled) :
    (∀ v ∈ vs, v.Readable) ∧ r.remaining.map (·.kind.lexeme) = Value.lexemesAll vs := by
  induction r using readAll.induct generalizing vs with
  | case1 r hr =>
    rw [readAll, dif_pos hr] at h
    obtain rfl := Except.ok.inj h
    rw [isExhausted, List.isEmpty_iff] at hr
    simp [hr]
  | case2 r hr e he =>
    rw [readAll, dif_neg hr, he] at h
    cases h
  | case3 r hr tree htree ih =>
    rw [readAll, dif_neg hr, htree] at h
    cases hrest : r.read.2.readAll with
    | error e => simp [hrest, Except.map] at h
    | ok ws =>
      obtain rfl : tree :: ws = vs := by simpa [hrest, Except.map] using h
      have hread : readWithin r.stop [] r.remaining = (.ok tree, r.read.2.remaining) := by
        rw [← htree]
        rfl
      obtain ⟨htree, used, hsplit, hused⟩ := readable_of_readWithin hread hspelled (by simp)
      rw [hsplit] at hspelled
      obtain ⟨hws, hparts⟩ := ih hrest fun t ht => hspelled t (List.mem_append_right _ ht)
      refine ⟨List.forall_mem_cons.mpr ⟨htree, hws⟩, ?_⟩
      rw [hsplit, List.map_append, hparts, Value.lexemesAll_cons, ← hused]
      rfl

end Reader

namespace Value

/-- The tokens of the texts of trees are those the trees were read from, spelled anew, and what
    they are read as comes back. -/
theorem printed {vs : List Value} (h : ∀ v ∈ vs, v.Readable) {used : List Token}
    (hused : used.map (·.kind.lexeme) = lexemesAll vs) :
    (Token.scan (" ".intercalate (vs.map text))).map (·.kind) = used.map (·.kind.respelled) ∧
      (Token.scan (" ".intercalate (vs.map text))).map (·.kind.lexeme) = lexemesAll (vs.map reread) ∧
      (vs.map reread).map text = vs.map text ∧
      ((∀ t ∈ used, ¬ t.kind.Overflows) → vs.map reread = vs) := by
  have hkinds := map_kind_scan_texts h
  refine ⟨?_, ?_, ?_, fun hfinite => ?_⟩
  · rw [hkinds, ← hused, List.map_map]
    exact List.map_congr_left fun t _ => t.kind.kind_lexeme
  · have hlexemes := congrArg (List.map TokenKind.lexeme) hkinds
    rw [List.map_map, List.map_map] at hlexemes
    refine hlexemes.trans ?_
    rw [lexemesAll_eq_flatMap, lexemesAll_eq_flatMap, List.map_flatMap, List.flatMap_map]
    exact List.flatMap_congr fun v hv => (h v hv).lexeme_kind
  · rw [List.map_map]
    exact List.map_congr_left fun v hv => (h v hv).text_reread
  · have hback : vs.map reread = vs.map id := by
      refine List.map_congr_left fun v hv => (h v hv).reread_eq fun negative hmem => ?_
      rw [lexemesAll_eq_flatMap] at hused
      have hmem := List.mem_flatMap_of_mem hv hmem
      rw [← hused] at hmem
      obtain ⟨t, ht, hleaf⟩ := List.mem_map.mp hmem
      exact hfinite t ht (TokenKind.overflows_of_lexeme hleaf)
    rw [hback, List.map_id]

end Value

/-- A tree that was read prints to a text that is read as the tree again, up to the end, but for
    numbers that were too large, which come back as symbols; what comes back prints the same, and
    the printed tokens are those that were read, spelled anew. So do all trees of a text. -/
theorem prints_as_read (s : String) :
    (∀ v, Reader.readFirst s = .ok v →
      (Reader.ofText v.text).read = (.ok v.reread, ⟨[], (Reader.ofText v.text).stop⟩) ∧
      v.reread.text = v.text ∧
      ∃ used, Token.scan s = used ++ (Reader.ofText s).read.2.remaining ∧
        (Token.scan v.text).map (·.kind) = used.map (·.kind.respelled) ∧
        ((∀ t ∈ used, ¬ t.kind.Overflows) → v.reread = v)) ∧
    (∀ vs, (Reader.ofText s).readAll = .ok vs →
      let printed := " ".intercalate (vs.map Value.text)
      (Reader.ofText printed).readAll = .ok (vs.map Value.reread) ∧
      " ".intercalate ((vs.map Value.reread).map Value.text) = printed ∧
      (Token.scan printed).map (·.kind) = (Token.scan s).map (·.kind.respelled) ∧
      ((∀ t ∈ Token.scan s, ¬ t.kind.Overflows) → vs.map Value.reread = vs)) := by
  have hspelled : ∀ t ∈ Token.scan s, t.kind.WellSpelled := fun t => Token.wellSpelled_of_mem_scan
  refine ⟨fun v hv => ?_, fun vs hvs => ?_⟩
  · have hread : Reader.readWithin (Reader.ofText s).stop [] (Token.scan s) =
        (.ok v, (Reader.ofText s).read.2.remaining) := by
      rw [← hv]
      rfl
    obtain ⟨hv, used, hsplit, hused⟩ := Reader.readable_of_readWithin hread hspelled (by simp)
    have hused : used.map (·.kind.lexeme) = Value.lexemesAll [v] := by simpa [Progress.openedLexemes] using hused
    obtain ⟨hkinds, hlexemes, htext, hfinite⟩ := Value.printed (List.forall_mem_singleton.mpr hv) hused
    simp only [List.map_cons, List.map_nil, String.intercalate_singleton, List.cons.injEq, and_true] at hkinds hlexemes htext hfinite
    refine ⟨?_, htext, used, hsplit, hkinds, hfinite⟩
    have hback : (Token.scan v.text).map (·.kind.lexeme) = v.reread.lexemes := by simpa using hlexemes
    have hread : Reader.readWithin (Reader.ofText v.text).stop [] (Token.scan v.text ++ []) = (.ok v.reread, []) :=
      Reader.readWithin_lexemes hv.reread hback [] []
    have hremaining : (Reader.ofText v.text).remaining = Token.scan v.text := rfl
    rw [List.append_nil] at hread
    simp [Reader.read, hremaining, hread]
  · obtain ⟨hvs, hused⟩ := Reader.readable_of_readAll hvs hspelled
    obtain ⟨hkinds, hlexemes, htext, hfinite⟩ := Value.printed hvs hused
    have hback : ∀ v ∈ vs.map Value.reread, v.Readable := List.forall_mem_map.mpr fun v hv => (hvs v hv).reread
    refine ⟨Reader.readAll_lexemes hback hlexemes, ?_, hkinds, hfinite⟩
    rw [htext]

/-- A number that is too large comes back as a symbol, and one that is not as itself. -/
theorem prints_as_read_overflow :
    (∃ v, Reader.readFirst "(a +1 (1e99 2.50) #x) tail" = .ok v ∧ v.text = "(a 1 (Infinity 2.5) #x)" ∧
      (Reader.ofText v.text).read.1 = .ok v.reread ∧ v.reread.text = v.text) ∧
    ∃ vs, (Reader.ofText "+1 (2.50)").readAll = .ok vs ∧ " ".intercalate (vs.map Value.text) = "1 (2.5)" ∧
      (Reader.ofText "1 (2.5)").readAll = .ok vs := by
  constructor
  · have hread : ((Reader.readFirst "(a +1 (1e99 2.50) #x) tail").toOption.map Value.text) =
        some "(a 1 (Infinity 2.5) #x)" := by decide +kernel
    obtain ⟨v, hv, htext⟩ := Reader.exists_of_map_toOption hread
    obtain ⟨hback, hsame, -⟩ := (prints_as_read _).1 v hv
    exact ⟨v, hv, htext, by rw [hback], hsame⟩
  · have hread : ((Reader.ofText "+1 (2.50)").readAll.toOption.map fun vs => " ".intercalate (vs.map Value.text)) =
        some "1 (2.5)" := by
      rw [Reader.ofText, Reader.readAll_ofTokens]
      decide +kernel
    obtain ⟨vs, hvs, htext⟩ := Reader.exists_of_map_toOption hread
    obtain ⟨hback, -, -, hfinite⟩ := (prints_as_read _).2 vs hvs
    rw [htext, hfinite (by decide +kernel)] at hback
    exact ⟨vs, hvs, htext, hback⟩

end LineLisp
