/-
  LineLisp.Proofs.Underline — what the picture of a failed line marks. The parts of a line that
  errors are about are given in bytes, and the picture takes them for numbers of characters, so
  that it is right about characters of one byte alone.
  - `Token.exists_placed`: a token stands in its text from one character to another.
  - `Line.exists_about`: every error of a line is about some characters of it: a closing
    parenthesis without a partner, the text from an opening one that is never closed to the last
    token, or the whole line.
  - `Diagnostic.shows_iff`: the picture shows the line and marks a part of it exactly if all
    characters up to the end of the part are of one byte.
  - `report_shows_iff`: so it is with every line and every error; `report_marks_nothing` is a line
    with another character, of which not even the text is shown.
-/

import LineLisp.Proofs.Balance
import LineLisp.Proofs.TreeByTree

namespace LineLisp

/-! ## Bytes and characters -/

namespace Text

theorem length_le_byteLength (cs : List Char) : cs.length ≤ byteLength cs := by
  induction cs with
  | nil => exact Nat.le_refl 0
  | cons c cs ih =>
    have := c.utf8Size_pos
    rw [List.length_cons, byteLength_cons]
    omega

theorem byteLength_eq_length_iff {cs : List Char} : byteLength cs = cs.length ↔ ∀ c ∈ cs, c.utf8Size = 1 := by
  induction cs with
  | nil => simp
  | cons c cs ih =>
    have hc := c.utf8Size_pos
    have hcs := length_le_byteLength cs
    rw [List.forall_mem_cons, ← ih, byteLength_cons, List.length_cons]
    omega

theorem byteLength_take_le (cs : List Char) {i j : Nat} (h : i ≤ j) :
    byteLength (cs.take i) ≤ byteLength (cs.take j) := by
  obtain ⟨rest, hrest⟩ := List.take_prefix_take_left h (l := cs)
  rw [← hrest, byteLength_append]
  exact Nat.le_add_right _ _

end Text

/-! ## Places of tokens -/

namespace Token

/-- The token is spelled by the characters of a text from the `i`th up to the `j`th. -/
def Placed (cs : List Char) (t : Token) (i j : Nat) : Prop :=
  ∃ before after, cs = before ++ (t.text.toList ++ after) ∧ before.length = i ∧ i + t.text.toList.length = j ∧
    t.span = ⟨Text.byteLength before, Text.byteLength before + Text.byteLength t.text.toList⟩

variable {cs : List Char} {t : Token} {i j : Nat}

theorem Placed.start_eq (h : Placed cs t i j) : t.span.start = Text.byteLength (cs.take i) := by
  obtain ⟨before, after, rfl, rfl, -, hspan⟩ := h
  rw [hspan, List.take_left]

theorem Placed.stop_eq (h : Placed cs t i j) : t.span.stop = Text.byteLength (cs.take j) := by
  obtain ⟨before, after, rfl, rfl, rfl, hspan⟩ := h
  rw [hspan, ← List.append_assoc, ← List.length_append, List.take_left, Text.byteLength_append]

theorem Placed.le_length (h : Placed cs t i j) : j ≤ cs.length := by
  obtain ⟨before, after, rfl, rfl, rfl, -⟩ := h
  simp only [List.length_append]
  omega

theorem Placed.of_closing (h : Placed cs t i j) (ht : t.kind = .closing) : j = i + 1 ∧ cs[i]? = some ')' := by
  have htext : t.text.toList = [')'] := by rw [text, ht]; rfl
  obtain ⟨before, after, rfl, rfl, rfl, -⟩ := h
  rw [htext]
  exact ⟨rfl, by simp⟩

theorem Placed.of_opening (h : Placed cs t i j) (ht : t.kind = .opening) : cs[i]? = some '(' := by
  have htext : t.text.toList = ['('] := by rw [text, ht]; rfl
  obtain ⟨before, after, rfl, rfl, rfl, -⟩ := h
  rw [htext]
  simp

theorem Placed.start_lt_stop (h : Placed cs t i j) (ht : t.kind = .opening) : t.span.start < t.span.stop := by
  have htext : t.text.toList = ['('] := by rw [text, ht]; rfl
  obtain ⟨before, after, -, -, -, hspan⟩ := h
  rw [hspan, htext]
  exact Nat.lt_add_of_pos_right (Char.utf8Size_pos '(')

theorem exists_placed_append (before after : List Char)
    (hspan : t.span = ⟨Text.byteLength before, Text.byteLength before + Text.byteLength t.text.toList⟩) :
    ∃ i j, Placed (before ++ (t.text.toList ++ after)) t i j :=
  ⟨_, _, before, after, rfl, rfl, rfl, hspan⟩

theorem exists_placed_parenthesis {kind : TokenKind} {c : Char} (hkind : kind.text.toList = [c])
    (before after : List Char) : ∃ i j, Placed (before ++ c :: after)
      ⟨kind, ⟨Text.byteLength before, Text.byteLength before + c.utf8Size⟩⟩ i j := by
  have htext : text ⟨kind, ⟨Text.byteLength before, Text.byteLength before + c.utf8Size⟩⟩ = kind.text := rfl
  have h := exists_placed_append before after
    (t := ⟨kind, ⟨Text.byteLength before, Text.byteLength before + c.utf8Size⟩⟩)
  rw [htext, hkind] at h
  exact h (by simp)

theorem exists_placed_of_mem_finished {done word cs : List Char} {start pos : Nat}
    (hstart : start = Text.byteLength done) (hpos : pos = Text.byteLength (done ++ word.reverse))
    (h : t ∈ finished start pos word) :
    ∃ i j, Placed (done ++ (word.reverse ++ cs)) t i j := by
  obtain ⟨-, rfl⟩ := mem_finished h
  have htext : text ⟨.atom (String.ofList word.reverse), ⟨start, pos⟩⟩ = String.ofList word.reverse := rfl
  have h := exists_placed_append done cs (t := ⟨.atom (String.ofList word.reverse), ⟨start, pos⟩⟩)
  rw [htext, String.toList_ofList] at h
  exact h (by rw [hstart, hpos, Text.byteLength_append])

/-- The tokens of the characters after a first part, and after those, last one first, of an atom,
    stand in the whole. -/
theorem exists_placed_of_mem_scanFrom (done word : List Char) {start pos : Nat}
    (hstart : start = Text.byteLength done) (hpos : pos = Text.byteLength (done ++ word.reverse))
    (h : t ∈ scanFrom start pos word cs) :
    ∃ i j, Placed (done ++ (word.reverse ++ cs)) t i j := by
  induction cs generalizing start pos done word with
  | nil => exact exists_placed_of_mem_finished hstart hpos h
  | cons c cs ih =>
    have hnext : pos + c.utf8Size = Text.byteLength (done ++ word.reverse ++ [c]) := by simp [hpos, Nat.add_assoc]
    have rest (h : t ∈ scanFrom (pos + c.utf8Size) (pos + c.utf8Size) [] cs) :
        ∃ i j, Placed (done ++ (word.reverse ++ c :: cs)) t i j := by
      simpa using ih (done ++ word.reverse ++ [c]) [] hnext (by simpa using hnext) h
    have parenthesis {kind : TokenKind} (hkind : kind.text.toList = [c])
        (h : t ∈ finished start pos word ++ ⟨kind, ⟨pos, pos + c.utf8Size⟩⟩ ::
          scanFrom (pos + c.utf8Size) (pos + c.utf8Size) [] cs) :
        ∃ i j, Placed (done ++ (word.reverse ++ c :: cs)) t i j := by
      rcases List.mem_append.mp h with h | h
      · exact exists_placed_of_mem_finished hstart hpos h
      · rcases List.mem_cons.mp h with rfl | h
        · simpa [hpos] using exists_placed_parenthesis hkind (done ++ word.reverse) cs
        · exact rest h
    simp only [scanFrom] at h
    split at h
    · next hc => exact parenthesis (by rw [hc]; rfl) h
    · split at h
      · next hc => exact parenthesis (by rw [hc]; rfl) h
      · split at h
        · rcases List.mem_append.mp h with h | h
          · exact exists_placed_of_mem_finished hstart hpos h
          · exact rest h
        · simpa using ih done (c :: word) hstart (by simpa using hnext) h

/-- A token of a text stands in it. -/
theorem exists_placed {s : String} (h : t ∈ scan s) : ∃ i j, Placed s.toList t i j := by
  simpa using exists_placed_of_mem_scanFrom [] [] rfl rfl h

end Token

/-! ## Pictures -/

namespace Diagnostic

/-- The first `n` characters of a line, with spaces after its end. -/
def padded (cs : List Char) (n : Nat) : List Char := cs.take n ++ List.replicate (n - cs.length) ' '

/-- The column in which the `k`th character of a line is drawn. -/
def column (cs : List Char) (k : Nat) : Nat := ((padded cs k).zipIdx.map fun x => width x.2 x.1).sum

/-- In the row below the line there is a mark where its `k`th character is drawn. -/
def Marks (rows : List String) (shown : List Char) (k : Nat) : Prop :=
  ∃ row mark, rows[3]? = some ("   │ " ++ row) ∧ row.toList[column shown k]? = some mark ∧ (mark = '─' ∨ mark = '┬')

/-- The rows show a line under a heading with the place of its `i`th character, and mark the
    characters from that one up to the `j`th, and no others. -/
structure Shows (rows : List String) (cs : List Char) (i j : Nat) : Prop where
  heading : rows[0]? = some s!"   ╭─[ {source}:1:{i + 1} ]"
  line : rows[2]? = some (" 1 │ " ++ String.ofList (drawn (Text.trimEnd cs)))
  marks {k : Nat} : k < cs.length → (Marks rows (Text.trimEnd cs) k ↔ i ≤ k ∧ k < j)

theorem width_pos (column : Nat) (c : Char) : 0 < width column c := by
  unfold width
  split <;> omega

theorem length_padded (cs : List Char) (n : Nat) : (padded cs n).length = n := by
  simp only [padded, List.length_append, List.length_take, List.length_replicate]
  omega

theorem take_append_replicate (cs : List Char) (n : Nat) : (cs ++ List.replicate n ' ').take n = padded cs n := by
  rw [List.take_append, List.take_replicate, Nat.min_eq_left (Nat.sub_le _ _), padded]

theorem padded_eq_append {cs : List Char} {k n : Nat} (h : k ≤ n) :
    padded cs n = padded cs k ++ (padded cs n).drop k := by
  have htake : (padded cs n).take k = padded cs k := by
    simp only [padded, List.take_append, List.take_take, List.take_replicate, List.length_take, Nat.min_eq_left h]
    congr 2
    omega
  rw [← htake, List.take_append_drop]

variable {cs : List Char} {stop k : Nat} {mark : Nat → Char × Char}

/-- The cell of a row that belongs to a character. -/
def cell (mark : Nat → Char × Char) (x : Char × Nat) : List Char :=
  (mark x.2).1 :: List.replicate (width x.2 x.1 - 1) (mark x.2).2

theorem row_eq : row cs stop mark = (padded cs (stop + 2)).zipIdx.flatMap (cell mark) := by
  rw [row, take_append_replicate]
  rfl

theorem length_cells (cs : List Char) (k : Nat) (mark : Nat → Char × Char) :
    ((padded cs k).zipIdx.flatMap (cell mark)).length = column cs k := by
  rw [List.length_flatMap, column]
  congr 1
  refine List.map_congr_left fun x _ => ?_
  have := width_pos x.2 x.1
  simp only [cell, List.length_cons, List.length_replicate]
  omega

/-- A row is made of the cells before a character and those from it on. -/
theorem row_eq_append (h : k ≤ stop + 2) : row cs stop mark =
    (padded cs k).zipIdx.flatMap (cell mark) ++ (((padded cs (stop + 2)).drop k).zipIdx k).flatMap (cell mark) := by
  rw [row_eq, padded_eq_append h, List.zipIdx_append, List.flatMap_append, length_padded, Nat.zero_add,
    ← padded_eq_append h]

theorem row_getElem? (h : k < stop + 2) : (row cs stop mark)[column cs k]? = some (mark k).1 := by
  have hk : k < (padded cs (stop + 2)).length := by rwa [length_padded]
  rw [row_eq_append h.le, List.getElem?_append_right (by rw [length_cells]), length_cells, Nat.sub_self,
    List.drop_eq_getElem_cons hk]
  rfl

theorem row_getElem?_eq_none (h : stop + 2 ≤ k) : (row cs stop mark)[column cs k]? = none := by
  rw [List.getElem?_eq_none_iff, row_eq, length_cells]
  simp only [column]
  rw [padded_eq_append h, List.zipIdx_append, List.map_append, List.sum_append]
  exact Nat.le_add_right _ _

theorem underline_mark_iff {part : Span} :
    ((Mark.underline part k).1 = '─' ∨ (Mark.underline part k).1 = '┬') ↔ part.start ≤ k ∧ k < part.stop := by
  unfold Mark.underline
  by_cases hin : part.start ≤ k ∧ k < part.stop
  · simp only [hin, and_self, decide_true, Bool.and_self, if_true, iff_true]
    split <;> simp
  · have hout : (decide (part.start ≤ k) && decide (k < part.stop)) = false := by simpa using hin
    simp only [hout, hin, iff_false]
    split <;> decide

/-- The whole picture is drawn of a part that does not end beyond the line. -/
theorem picture_of_le {d : Diagnostic} (hstart : d.span.start ≤ cs.length) (hstop : d.span.stop ≤ cs.length) :
    d.picture cs = [s!"   ╭─[ {source}:1:{d.span.start + 1} ]", "   │",
      " 1 │ " ++ String.ofList (drawn (Text.trimEnd cs)),
      "   │ " ++ String.ofList (row (Text.trimEnd cs) d.span.stop (Mark.underline d.span)),
      "   │ " ++ String.ofList (row (Text.trimEnd cs) d.span.stop (Mark.stroke d.span)) ++ " " ++ d.note, "───╯"] := by
  unfold picture
  rw [if_neg (by omega), if_neg (by omega)]
  rfl

/-- The line is shown of no other part. -/
theorem le_of_picture {d : Diagnostic}
    (h : (d.picture cs)[2]? = some (" 1 │ " ++ String.ofList (drawn (Text.trimEnd cs)))) :
    d.span.start ≤ cs.length ∧ d.span.stop ≤ cs.length := by
  simp only [picture] at h
  split at h
  · cases h
  · next hfar =>
    split at h
    · have hrow : "   │ " = " 1 │ " ++ String.ofList (drawn (Text.trimEnd cs)) := Option.some.inj h
      have := congrArg (fun s => s.toList[1]?) hrow
      simp [String.toList_append] at this
    · omega

theorem marks_iff {rows : List String} {shown cells : List Char}
    (h : rows[3]? = some ("   │ " ++ String.ofList cells)) :
    Marks rows shown k ↔ ∃ mark, cells[column shown k]? = some mark ∧ (mark = '─' ∨ mark = '┬') := by
  constructor
  · rintro ⟨row, mark, hrow, hmark⟩
    have heq : row = String.ofList cells := by
      have := congrArg String.toList (Option.some.inj (hrow.symm.trans h))
      rw [String.toList_append, String.toList_append, List.append_cancel_left_eq] at this
      exact String.toList_inj.mp this
    rw [heq, String.toList_ofList] at hmark
    exact ⟨mark, hmark⟩
  · rintro ⟨mark, hmark⟩
    exact ⟨_, mark, h, by rwa [String.toList_ofList]⟩

theorem marks_picture_iff {d : Diagnostic} (hstart : d.span.start ≤ cs.length) (hstop : d.span.stop ≤ cs.length) :
    Marks (d.picture cs) (Text.trimEnd cs) k ↔ d.span.start ≤ k ∧ k < d.span.stop := by
  have hrow : (d.picture cs)[3]? =
      some ("   │ " ++ String.ofList (row (Text.trimEnd cs) d.span.stop (Mark.underline d.span))) := by
    rw [picture_of_le hstart hstop]
    rfl
  rw [marks_iff hrow]
  by_cases hk : k < d.span.stop + 2
  · rw [row_getElem? hk]
    simp only [Option.some.injEq, exists_eq_left']
    exact underline_mark_iff
  · rw [row_getElem?_eq_none (Nat.le_of_not_lt hk)]
    simp
    omega

/-- The picture of a part of a line that is given in bytes shows the line and marks that part
    exactly if all characters up to its end are of one byte. -/
theorem shows_iff {d : Diagnostic} {i j : Nat} (hij : i < j) (hj : j ≤ cs.length)
    (hstart : d.span.start = Text.byteLength (cs.take i)) (hstop : d.span.stop = Text.byteLength (cs.take j)) :
    Shows (d.picture cs) cs i j ↔ ∀ c ∈ cs.take j, c.utf8Size = 1 := by
  have hi : i ≤ d.span.start := by
    have := Text.length_le_byteLength (cs.take i)
    rw [List.length_take] at this
    omega
  have hj' : j ≤ d.span.stop := by
    have := Text.length_le_byteLength (cs.take j)
    rw [List.length_take] at this
    omega
  have hlength : (cs.take j).length = j := by rw [List.length_take, Nat.min_eq_left hj]
  rw [← Text.byteLength_eq_length_iff, ← hstop, hlength]
  constructor
  · intro h
    obtain ⟨hle, hle'⟩ := le_of_picture h.line
    have hmarks {k : Nat} (hk : k < cs.length) := (marks_picture_iff hle hle').symm.trans (h.marks hk)
    have hfirst := (hmarks (k := i) (by omega)).mpr ⟨Nat.le_refl i, hij⟩
    -- A part that ended later would have the character at `j` marked.
    by_contra hne
    have := (hmarks (k := j) (by omega)).mp ⟨by omega, by omega⟩
    omega
  · intro h
    have hones : ∀ c ∈ cs.take j, c.utf8Size = 1 := Text.byteLength_eq_length_iff.mp (by rw [← hstop, hlength, h])
    have hones' : ∀ c ∈ cs.take i, c.utf8Size = 1 := fun c hc =>
      hones c (List.take_subset_take_left cs hij.le hc)
    have hstart' : d.span.start = i := by
      rw [hstart, Text.byteLength_eq_length_iff.mpr hones', List.length_take]
      omega
    have hle : d.span.start ≤ cs.length := by omega
    have hle' : d.span.stop ≤ cs.length := by omega
    refine ⟨?_, ?_, fun _ => ?_⟩
    · rw [picture_of_le hle hle', hstart']
      rfl
    · rw [picture_of_le hle hle']
      rfl
    · rw [marks_picture_iff hle hle', hstart', h]

end Diagnostic

/-! ## Lines -/

/-- The error of a line is about its characters from the `i`th up to the `j`th. -/
inductive LineError.About (line : String) : LineError → Nat → Nat → Prop
  /-- The first closing parenthesis without a partner. -/
  | stray {n i : Nat} {t : Token} : (Token.scan line)[n]? = some t → Token.FirstUnmatched (Token.scan line) n →
      t.Placed line.toList i (i + 1) → line.toList[i]? = some ')' →
        About line (.parse (.unmatchedClose t.span)) i (i + 1)
  /-- From the last opening parenthesis that is never closed to the end of the last token. -/
  | unclosed {n i i' j' j : Nat} {t last : Token} : (Token.scan line)[n]? = some t →
      Token.NeverClosed (Token.scan line) n → (∀ n', Token.NeverClosed (Token.scan line) n' → n' ≤ n) →
        (Token.scan line).getLast? = some last → t.Placed line.toList i i' → line.toList[i]? = some '(' →
          last.Placed line.toList j' j → About line (.parse (.unexpectedEnd ⟨t.span.start, last.span.stop⟩)) i j
  /-- The whole line. -/
  | evaluation (e : EvalError) : About line (.evaluation e) 0 line.toList.length

theorem Token.isBlankChar_of_isSeparator {c : Char} (h : isSeparator c = true) : Text.isBlankChar c = true := by
  simp only [isSeparator, Bool.or_eq_true, decide_eq_true_eq] at h
  rcases h with ((((rfl | rfl) | rfl) | rfl) | rfl) | rfl <;> decide

theorem Token.eq_nil_of_finished {start stop : Nat} {word : List Char} (h : finished start stop word = []) :
    word = [] := by
  cases word with
  | nil => rfl
  | cons c cs => cases h

/-- Where there are no tokens there are only separators. -/
theorem Token.isSeparator_of_scanFrom {start pos : Nat} {word cs : List Char} (h : scanFrom start pos word cs = []) :
    word = [] ∧ ∀ c ∈ cs, isSeparator c = true := by
  induction cs generalizing start pos word with
  | nil => exact ⟨eq_nil_of_finished h, by simp⟩
  | cons c cs ih =>
    simp only [scanFrom] at h
    split at h
    · simp at h
    · split at h
      · simp at h
      · split at h
        · next hc =>
          obtain ⟨hword, hrest⟩ := List.append_eq_nil_iff.mp h
          exact ⟨eq_nil_of_finished hword, List.forall_mem_cons.mpr ⟨hc, (ih hrest).2⟩⟩
        · exact absurd (ih h).1 (List.cons_ne_nil _ _)

namespace Line

variable {settings : Settings} {line : String} {m m' : Machine} {e : LineError}

theorem not_isBlank_of_action (h : action line = .evaluate) : Text.isBlank line = false := by
  unfold action at h
  split at h
  · cases h
  · split at h
    · cases h
    · next hblank => simpa using hblank

theorem scan_ne_nil (h : action line = .evaluate) : Token.scan line ≠ [] := by
  intro hscan
  have hblank : Text.isBlank line = true := by
    refine List.all_eq_true.mpr fun c hc => ?_
    exact Token.isBlankChar_of_isSeparator ((Token.isSeparator_of_scanFrom hscan).2 c hc)
  rw [not_isBlank_of_action h] at hblank
  cases hblank

/-- Every error of a line is about some characters of it. -/
theorem exists_about (haction : action line = .evaluate) (hrun : run settings line m = .error (.failed e) m') :
    ∃ i j, e.About line i j := by
  cases e with
  | evaluation e => exact ⟨_, _, .evaluation e⟩
  | parse e =>
    rcases parseError_of_run hrun with hread | ⟨hread, -⟩
    · have hin := Token.inOrder_scan line
      unfold Reader.ofText at hread
      cases hpass : Progress.start.run (Token.scan line) with
      | error e' =>
        obtain ⟨n, t, ht, hk, hfirst, hread'⟩ := Reader.readAll_of_run_eq_error hpass
        obtain rfl := Except.error.inj (hread.symm.trans hread')
        obtain ⟨i, j, hplaced⟩ := Token.exists_placed (List.mem_of_getElem? ht)
        obtain ⟨rfl, hchar⟩ := hplaced.of_closing hk
        exact ⟨_, _, .stray ht hfirst hplaced hchar⟩
      | ok p =>
        by_cases hopened : p.opened = []
        · obtain ⟨-, hread', -⟩ := Reader.readAll_of_closed hpass hopened
          cases hread.symm.trans hread'
        · obtain ⟨-, -, n, t, last, ht, hnever, hlast, hend, hread'⟩ := Reader.readAll_of_opened hin hpass hopened
          obtain rfl := Except.error.inj (hread.symm.trans hread')
          obtain ⟨i, i', hplaced⟩ := Token.exists_placed (List.mem_of_getElem? ht)
          obtain ⟨j', j, hplaced'⟩ := Token.exists_placed (List.mem_of_getLast? hend)
          obtain ⟨t', ht', hk⟩ := hnever.1
          obtain rfl := Option.some.inj (ht.symm.trans ht')
          exact ⟨_, _, .unclosed ht hnever hlast hend hplaced (hplaced.of_opening hk) hplaced'⟩
    · rw [Reader.readAll_eq_nil_iff, Reader.isExhausted, List.isEmpty_iff] at hread
      exact absurd hread (scan_ne_nil haction)

theorem report_of_error (hrun : run settings line m = .error (.failed e) m') :
    (report settings line m).1 = (Diagnostic.ofError line e).render line := by
  rw [report, hrun]

end Line

namespace LineError

open Diagnostic

variable {line : String} {e : LineError} {i j : Nat}

theorem span_ofEvalError (e : EvalError) (span : Span) : (ofEvalError e span).span = span := by
  cases e <;> rfl

/-- The span of the diagnostic has those characters that the error is about. -/
theorem About.span_eq (h : e.About line i j) : (ofError line e).span =
    ⟨Text.byteLength (line.toList.take i), Text.byteLength (line.toList.take j)⟩ := by
  cases h with
  | stray _ _ hplaced _ =>
    rw [← hplaced.start_eq, ← hplaced.stop_eq]
    rfl
  | unclosed _ _ _ _ hplaced _ hplaced' =>
    rw [← hplaced.start_eq, ← hplaced'.stop_eq]
    rfl
  | evaluation e =>
    rw [List.take_length]
    exact span_ofEvalError e _

theorem About.lt (h : e.About line i j) (hblank : Text.isBlank line = false) : i < j ∧ j ≤ line.toList.length := by
  cases h with
  | stray _ _ hplaced _ => exact ⟨Nat.lt_succ_self _, hplaced.le_length⟩
  | @unclosed n i i' j' j t last ht hnever _ hlast hplaced _ hplaced' =>
    refine ⟨?_, hplaced'.le_length⟩
    have hstop : t.span.stop ≤ last.span.stop :=
      (Token.inOrder_scan line).stop_le_getLast (List.mem_of_getElem? ht) hlast
    obtain ⟨t', ht', hk⟩ := hnever.1
    obtain rfl := Option.some.inj (ht.symm.trans ht')
    have hstart := hplaced.start_lt_stop hk
    rw [hplaced'.stop_eq] at hstop
    rw [hplaced.start_eq] at hstart
    by_contra hij
    have := Text.byteLength_take_le line.toList (Nat.le_of_not_lt hij)
    omega
  | evaluation e =>
    refine ⟨List.length_pos_iff.mpr fun hnil => ?_, Nat.le_refl _⟩
    rw [Text.isBlank, hnil] at hblank
    cases hblank

end LineError

/-- The report of a line that fails shows the line, marks what the error is about and nothing else,
    and has its place in the heading, exactly if no character of the line up to the end of that
    part takes more than one byte. -/
theorem report_shows_iff (settings : Settings) {line : String} {m m' : Machine} {e : LineError}
    (haction : Line.action line = .evaluate) (hrun : Line.run settings line m = .error (.failed e) m') :
    let d := Diagnostic.ofError line e
    let rows := d.picture line.toList
    (Line.report settings line m).1 = String.join ((("Error: " ++ d.message) :: rows).map (· ++ "\n")) ∧
      ∃ i j, e.About line i j ∧ i < j ∧ j ≤ line.toList.length ∧
        d.span = ⟨Text.byteLength (line.toList.take i), Text.byteLength (line.toList.take j)⟩ ∧
          (Diagnostic.Shows rows line.toList i j ↔ ∀ c ∈ line.toList.take j, c.utf8Size = 1) := by
  intro d rows
  obtain ⟨i, j, habout⟩ := Line.exists_about haction hrun
  obtain ⟨hij, hj⟩ := habout.lt (Line.not_isBlank_of_action haction)
  have hspan := habout.span_eq
  refine ⟨Line.report_of_error hrun, i, j, habout, hij, hj, hspan, ?_⟩
  exact Diagnostic.shows_iff hij hj (congrArg Span.start hspan) (congrArg Span.stop hspan)

/-- In the line `1) é` all is well: the character of two bytes comes after the part. -/
theorem report_shows_iff_stray :
    Line.action "1) é" = .evaluate ∧
    (∃ m', Line.run ⟨true, some 1⟩ "1) é" (.initial none) = .error (.failed (.parse (.unmatchedClose ⟨1, 2⟩))) m') ∧
    Diagnostic.Shows ((Diagnostic.ofError "1) é" (.parse (.unmatchedClose ⟨1, 2⟩))).picture "1) é".toList)
      "1) é".toList 1 2 := by
  have haction : Line.action "1) é" = .evaluate := by decide
  have hrun (heap : Heap) : Line.run ⟨true, some 1⟩ "1) é" ⟨heap, 0, .empty none, #[]⟩ =
      .error (.failed (.parse (.unmatchedClose ⟨1, 2⟩)))
        ⟨heap, 0, ⟨#["[1, ), é]", "1", "1"], none⟩, #[.tokensRead 3]⟩ := by cbv
  obtain ⟨-, i, j, -, hij, hj, hspan, hshows⟩ := report_shows_iff ⟨true, some 1⟩ haction (hrun .initial)
  have place : ∀ k ≤ "1) é".toList.length, ∀ n < 3, n = Text.byteLength ("1) é".toList.take k) → k = n := by decide
  obtain rfl := place i (by omega) 1 (by decide) (congrArg Span.start hspan)
  obtain rfl := place j hj 2 (by decide) (congrArg Span.stop hspan)
  exact ⟨haction, ⟨_, hrun .initial⟩, hshows.mpr (Text.byteLength_eq_length_iff.mp (by decide))⟩

/-- Of the line `()é`, which has a byte more than it has characters, nothing is shown. -/
theorem report_shows_nothing :
    Line.action "()é" = .evaluate ∧
    (∃ m', Line.run .standard "()é" (.initial none) = .error (.failed (.evaluation .emptyForm)) m') ∧
    (Line.report .standard "()é" (.initial none)).1 = "Error: Empty form\n   ╭─[ REPL:1:1 ]\n   │\n   │ \n───╯\n" ∧
    LineError.About "()é" (.evaluation .emptyForm) 0 3 ∧
    ¬ Diagnostic.Shows ((Diagnostic.ofError "()é" (.evaluation .emptyForm)).picture "()é".toList) "()é".toList 0 3 := by
  have hread : (Reader.ofTokens (Token.scan "()é")).read.1 = .ok (.list []) := by cbv
  have hbegins : Line.Begins .standard "()é" (.initial none) ⟨.list [], Heap.globalScope, _⟩ :=
    .tree (.start (Eval.emit_of_room rfl _)) hread (Eval.emit_of_room rfl _)
  have hrun := hbegins.fails (e := .emptyForm) rfl
  refine ⟨by decide, ⟨_, hrun⟩, ?_, .evaluation .emptyForm, fun h => ?_⟩
  · rw [Line.report_of_error hrun]
    decide
  · have hline := (Diagnostic.le_of_picture h.line).2
    revert hline
    decide

end LineLisp
