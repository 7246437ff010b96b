/-
  LineLisp.Proofs.Echo — what the echo of a line tells. The tokens stand in it with a comma and a
  space in between, and atoms may hold commas and brackets, also at their ends; but no token holds
  a space. So the spaces divide the echo, and before each of them stands one comma too many.
  - `Token.decode_render`: the kinds and texts of tokens are read back from their echo.
  - `echo_determines_tokens`: two lines have the same echo just if their tokens are alike.
-/

import LineLisp.Proofs.Segmentation

namespace LineLisp

namespace TokenKind

/-- What kind of token the characters spell. -/
def ofSpelling : List Char → TokenKind
  | ['('] => .opening
  | [')'] => .closing
  | cs => .atom (String.ofList cs)

/-- A word is not mistaken for a parenthesis. -/
theorem ofSpelling_text {k : TokenKind} (hk : k.WellSpelled) : ofSpelling k.text.toList = k := by
  cases k with
  | opening => rfl
  | closing => rfl
  | atom word =>
    have hopen : word.toList ≠ ['('] := fun h => absurd (hk.2 '(' (by simp [h])) (by decide)
    have hclose : word.toList ≠ [')'] := fun h => absurd (hk.2 ')' (by simp [h])) (by decide)
    rw [text, ofSpelling, String.ofList_toList]
    · exact hopen
    · exact hclose

end TokenKind

namespace Token

/-! ## Reading an echo -/

/-- The spellings in what stands between the brackets of an echo, which are taken for ended by a
    comma each, and then divided by the spaces. -/
def spellings (inner : List Char) : List (List Char) :=
  (((inner ++ [',']).splitOn ' ').map List.dropLast).filter (· ≠ [])

/-- The kinds of the tokens of which this is the echo. -/
def decode (echo : String) : List TokenKind :=
  (spellings echo.toList.tail.dropLast).map TokenKind.ofSpelling

/-- With a comma after the last of them as well, words are divided by spaces. -/
theorem intercalate_append_comma {words : List (List Char)} (hne : words ≠ []) :
    [',', ' '].intercalate words ++ [','] = [' '].intercalate (words.map (· ++ [','])) := by
  induction words with
  | nil => exact absurd rfl hne
  | cons w words ih =>
    cases words with
    | nil => simp
    | cons v words =>
      have hrest := ih (List.cons_ne_nil v words)
      rw [List.map_cons] at hrest
      simp [List.intercalate_cons_cons, ← hrest]

/-- Spellings without spaces are found again. -/
theorem spellings_intercalate {words : List (List Char)} (hspace : ∀ w ∈ words, ' ' ∉ w)
    (hne : ∀ w ∈ words, w ≠ []) : spellings ([',', ' '].intercalate words) = words := by
  cases words with
  | nil => decide
  | cons w words =>
    have hcomma : ∀ v ∈ (w :: words).map (· ++ [',']), ' ' ∉ v := by
      intro v hv
      obtain ⟨u, hu, rfl⟩ := List.mem_map.mp hv
      simp [hspace u hu]
    have hcut (vs : List (List Char)) : (vs.map (· ++ [','])).map List.dropLast = vs := by
      simp [List.map_map, Function.comp_def]
    rw [spellings, intercalate_append_comma (List.cons_ne_nil w words),
      List.splitOn_intercalate ' ' hcomma (by simp), hcut]
    exact List.filter_eq_self.mpr fun v hv => decide_eq_true (hne v hv)

/-- The kinds and texts of tokens are read back from their echo. -/
theorem decode_render {tokens : List Token} (h : ∀ t ∈ tokens, t.kind.WellSpelled) :
    decode (render tokens) = tokens.map (·.kind) := by
  have hinner : (render tokens).toList.tail.dropLast =
      [',', ' '].intercalate (tokens.map fun t => t.text.toList) := by
    simp [render, List.map_map, Function.comp_def]
  have hspace : ∀ w ∈ tokens.map fun t => t.text.toList, ' ' ∉ w := by
    intro w hw
    obtain ⟨t, ht, rfl⟩ := List.mem_map.mp hw
    exact fun hmem => absurd (not_isSeparator_of_mem (h t ht) hmem) (by decide)
  have hne : ∀ w ∈ tokens.map fun t => t.text.toList, w ≠ [] := by
    intro w hw
    obtain ⟨t, ht, rfl⟩ := List.mem_map.mp hw
    exact text_ne_nil (h t ht)
  rw [decode, hinner, spellings_intercalate hspace hne, List.map_map]
  exact List.map_congr_left fun t ht => TokenKind.ofSpelling_text (h t ht)

example : decode "[a,b,, ), ]]" = [.atom "a,b,", .closing, .atom "]"] := by decide +kernel

/-- Tokens of the same kinds have the same echo, wherever they stand. -/
theorem render_congr {tokens tokens' : List Token} (h : tokens.map (·.kind) = tokens'.map (·.kind)) :
    render tokens = render tokens' := by
  have htext (ts : List Token) : ts.map text = (ts.map (·.kind)).map TokenKind.text := by
    rw [List.map_map]
    rfl
  rw [render, render, htext, htext, h]

end Token

/-- The echo of a line determines its tokens: two lines have the same echo just if their tokens have
    the same kinds and texts, one after the other. -/
theorem echo_determines_tokens (s t : String) :
    Token.render (Token.scan s) = Token.render (Token.scan t) ↔
      (Token.scan s).map (·.kind) = (Token.scan t).map (·.kind) := by
  constructor
  · intro h
    rw [← Token.decode_render fun u hu => Token.wellSpelled_of_mem_scan (s := s) hu, h]
    exact Token.decode_render fun u hu => Token.wellSpelled_of_mem_scan hu
  · exact Token.render_congr

end LineLisp
