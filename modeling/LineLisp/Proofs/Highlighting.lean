/-
  LineLisp.Proofs.Highlighting — what the red parentheses of a line say about reading it. The
  scan for colours takes characters and goes on after a parenthesis without a partner; the
  reader takes tokens and stops there. Until then the parentheses on the stack of the one are
  those of the lists that the other has open.
  - `Highlight.line_eq_cells`: a line with its colours is its characters, each painted by itself.
  - `Highlight.located_scan`: what a scan finds are parentheses of the line, in order.
  - `highlight_tells_reading`: a line is read if nothing in it is red; otherwise the error begins
    at the first red closing parenthesis, or, if there is none, at the last red opening one.
-/

import LineLisp.Highlight
import LineLisp.Proofs.Balance

namespace LineLisp

/-! ## Offsets -/

namespace Text

/-- The characters, each with the byte offset at which it stands, from one offset on. -/
def offsetsFrom (offset : Nat) : List Char → List (Nat × Char)
  | [] => []
  | c :: cs => (offset, c) :: offsetsFrom (offset + c.utf8Size) cs

theorem offsetsFrom_append (offset : Nat) (cs ds : List Char) :
    offsetsFrom offset (cs ++ ds) = offsetsFrom offset cs ++ offsetsFrom (offset + byteLength cs) ds := by
  induction cs generalizing offset with
  | nil => rfl
  | cons c cs ih => simp [offsetsFrom, ih, Nat.add_assoc]

theorem map_snd_offsetsFrom (offset : Nat) (cs : List Char) : (offsetsFrom offset cs).map (·.2) = cs := by
  induction cs generalizing offset with
  | nil => rfl
  | cons c cs ih => rw [offsetsFrom, List.map_cons, ih]

theorem lt_of_mem_offsetsFrom {offset i : Nat} {c : Char} {cs : List Char} (h : (i, c) ∈ offsetsFrom offset cs) :
    offset ≤ i ∧ i < offset + byteLength cs := by
  induction cs generalizing offset with
  | nil => cases h
  | cons d ds ih =>
    have hsize := d.utf8Size_pos
    rw [byteLength_cons]
    rcases List.mem_cons.mp h with heq | h
    · obtain ⟨rfl, -⟩ := Prod.mk.inj heq
      omega
    · have := ih h
      omega

/-- One character stands at an offset. -/
theorem eq_of_mem_offsetsFrom {offset i : Nat} {c d : Char} {cs : List Char} (hc : (i, c) ∈ offsetsFrom offset cs)
    (hd : (i, d) ∈ offsetsFrom offset cs) : c = d := by
  induction cs generalizing offset with
  | nil => cases hc
  | cons e es ih =>
    have hsize := e.utf8Size_pos
    rcases List.mem_cons.mp hc with hce | hc
    · rcases List.mem_cons.mp hd with hde | hd
      · rw [(Prod.mk.inj hce).2, (Prod.mk.inj hde).2]
      · have := (lt_of_mem_offsetsFrom hd).1
        have := (Prod.mk.inj hce).1
        omega
    · rcases List.mem_cons.mp hd with hde | hd
      · have := (lt_of_mem_offsetsFrom hc).1
        have := (Prod.mk.inj hde).1
        omega
      · exact ih hc hd

end Text

namespace Highlight

/-! ## Painted characters -/

/-- A character of a line, where it stands, and the colour that it gets. -/
structure Cell where
  offset : Nat
  char : Char
  colour : Option Colour

/-- The characters of a line with their colours, for a cursor at a byte offset. -/
def cells (s : String) (cursor : Nat) : List Cell :=
  (Text.offsetsFrom 0 s.toList).map fun (i, c) => ⟨i, c, colour? (scan cursor s.toList) i⟩

theorem paintFrom_eq (found : Found) (offset : Nat) (cs : List Char) :
    paintFrom found offset cs = (Text.offsetsFrom offset cs).flatMap fun (i, c) => paint c (colour? found i) := by
  induction cs generalizing offset with
  | nil => rfl
  | cons c cs ih => simp [paintFrom, Text.offsetsFrom, ih]

theorem line_eq_cells (s : String) (cursor : Nat) :
    line s cursor = String.ofList ((cells s cursor).flatMap fun cell => paint cell.char cell.colour) := by
  rw [line, paintFrom_eq, cells, List.flatMap_map]

/-- The character at the offset is painted red. -/
def Red (s : String) (cursor offset : Nat) (c : Char) : Prop := ⟨offset, c, some .red⟩ ∈ cells s cursor

theorem colour?_eq_red_iff {found : Found} {i : Nat} :
    colour? found i = some .red ↔ i ∈ found.opened ∨ i ∈ found.closed := by
  unfold colour?
  split
  · next h => simpa using h
  · next h =>
    refine ⟨fun hred => ?_, fun h' => absurd h' h⟩
    split at hred
    · split at hred <;> cases hred
    · cases hred

theorem mem_cells_iff {s : String} {cursor i : Nat} {c : Char} {colour : Option Colour} :
    ⟨i, c, colour⟩ ∈ cells s cursor ↔
      (i, c) ∈ Text.offsetsFrom 0 s.toList ∧ colour? (scan cursor s.toList) i = colour := by
  rw [cells, List.mem_map]
  constructor
  · rintro ⟨⟨j, d⟩, hmem, heq⟩
    obtain ⟨rfl, rfl, hcolour⟩ := Cell.mk.inj heq
    exact ⟨hmem, hcolour⟩
  · rintro ⟨hmem, rfl⟩
    exact ⟨(i, c), hmem, rfl⟩

theorem red_iff {s : String} {cursor i : Nat} {c : Char} :
    Red s cursor i c ↔ (i, c) ∈ Text.offsetsFrom 0 s.toList ∧
      (i ∈ (scan cursor s.toList).opened ∨ i ∈ (scan cursor s.toList).closed) := by
  rw [Red, mem_cells_iff, colour?_eq_red_iff]

/-! ## What a scan finds -/

/-- What was found are parentheses among the characters seen, those of one kind from the last one to
    the first. -/
structure Located (seen : List (Nat × Char)) (found : Found) : Prop where
  opened {i : Nat} : i ∈ found.opened → (i, '(') ∈ seen
  closed {i : Nat} : i ∈ found.closed → (i, ')') ∈ seen
  openedSorted : found.opened.Pairwise (· > ·)
  closedSorted : found.closed.Pairwise (· > ·)

theorem located_nothing : Located [] nothing where
  opened h := absurd h List.not_mem_nil
  closed h := absurd h List.not_mem_nil
  openedSorted := .nil
  closedSorted := .nil

theorem Located.step {seen : List (Nat × Char)} {found : Found} (h : Located seen found) {pos : Nat}
    (hseen : ∀ i c, (i, c) ∈ seen → i < pos) (cursor : Nat) (c : Char) :
    Located (seen ++ [(pos, c)]) (step cursor pos found c) := by
  have hopened {i : Nat} (hi : i ∈ found.opened) : (i, '(') ∈ seen ++ [(pos, c)] :=
    List.mem_append_left _ (h.opened hi)
  have hclosed {i : Nat} (hi : i ∈ found.closed) : (i, ')') ∈ seen ++ [(pos, c)] :=
    List.mem_append_left _ (h.closed hi)
  unfold Highlight.step
  split
  · next hc =>
    refine ⟨fun hi => ?_, hclosed, .cons (fun i hi => hseen i _ (h.opened hi)) h.openedSorted, h.closedSorted⟩
    rcases List.mem_cons.mp hi with rfl | hi
    · simp [hc]
    · exact hopened hi
  · split
    · next hc =>
      split
      · refine ⟨hopened, fun hi => ?_, h.openedSorted, .cons (fun i hi => hseen i _ (h.closed hi)) h.closedSorted⟩
        rcases List.mem_cons.mp hi with rfl | hi
        · simp [hc]
        · exact hclosed hi
      · next start rest hfound =>
        have hsorted := h.openedSorted
        rw [hfound] at hsorted
        exact ⟨fun hi => hopened (by rw [hfound]; exact List.mem_cons_of_mem _ hi), hclosed, hsorted.of_cons,
          h.closedSorted⟩
    · exact ⟨hopened, hclosed, h.openedSorted, h.closedSorted⟩

theorem located_scanFrom (cursor : Nat) {before : List Char} {found : Found}
    (h : Located (Text.offsetsFrom 0 before) found) (cs : List Char) :
    Located (Text.offsetsFrom 0 (before ++ cs)) (scanFrom cursor (Text.byteLength before) found cs) := by
  induction cs generalizing before found with
  | nil => simpa [scanFrom] using h
  | cons c cs ih =>
    have hseen (i : Nat) (d : Char) (hi : (i, d) ∈ Text.offsetsFrom 0 before) : i < Text.byteLength before := by
      simpa using (Text.lt_of_mem_offsetsFrom hi).2
    have hstep := h.step hseen cursor c
    have hmore : Text.offsetsFrom 0 before ++ [(Text.byteLength before, c)] = Text.offsetsFrom 0 (before ++ [c]) := by
      simp [Text.offsetsFrom_append, Text.offsetsFrom]
    rw [hmore] at hstep
    simpa [scanFrom] using ih hstep

/-- What a scan of a line finds are parentheses of the line. -/
theorem located_scan (cursor : Nat) (cs : List Char) : Located (Text.offsetsFrom 0 cs) (scan cursor cs) := by
  have hstart : Located (Text.offsetsFrom 0 []) nothing := located_nothing
  exact located_scanFrom cursor hstart cs

theorem red_opening_iff {s : String} {cursor i : Nat} : Red s cursor i '(' ↔ i ∈ (scan cursor s.toList).opened := by
  have hlocated := located_scan cursor s.toList
  refine red_iff.trans ⟨fun ⟨hmem, hred⟩ => hred.resolve_right fun hclosed => ?_, fun h => ⟨hlocated.opened h, .inl h⟩⟩
  exact absurd (Text.eq_of_mem_offsetsFrom hmem (hlocated.closed hclosed)) (by decide)

theorem red_closing_iff {s : String} {cursor i : Nat} : Red s cursor i ')' ↔ i ∈ (scan cursor s.toList).closed := by
  have hlocated := located_scan cursor s.toList
  refine red_iff.trans ⟨fun ⟨hmem, hred⟩ => hred.resolve_left fun hopened => ?_, fun h => ⟨hlocated.closed h, .inr h⟩⟩
  exact absurd (Text.eq_of_mem_offsetsFrom hmem (hlocated.opened hopened)) (by decide)

/-- Only parentheses are red. -/
theorem Red.parenthesis {s : String} {cursor i : Nat} {c : Char} (h : Red s cursor i c) : c = '(' ∨ c = ')' := by
  have hlocated := located_scan cursor s.toList
  obtain ⟨hmem, hopened | hclosed⟩ := red_iff.mp h
  · exact .inl (Text.eq_of_mem_offsetsFrom hmem (hlocated.opened hopened))
  · exact .inr (Text.eq_of_mem_offsetsFrom hmem (hlocated.closed hclosed))

/-! ## The scan beside the reader -/

/-- Where the lists begin that are open, the innermost first. -/
def starts (p : Progress) : List Nat := p.opened.map (·.span.start)

theorem starts_add (p : Progress) (v : Value) : starts (p.add v) = starts p := by
  have hspans := congrArg (List.map Span.start) (Progress.spans_add p v)
  rwa [List.map_map, List.map_map] at hspans

/-- An atom changes nothing about the lists that are open. -/
theorem run_finished (p : Progress) (start stop : Nat) (word : List Char) : ∃ q : Progress,
    starts q = starts p ∧ ∀ ts, p.run (Token.finished start stop word ++ ts) = q.run ts := by
  cases word with
  | nil => exact ⟨p, rfl, fun _ => rfl⟩
  | cons c cs => exact ⟨_, starts_add p _, fun _ => rfl⟩

/-- Closing parentheses without a partner are not forgotten. -/
theorem closed_scanFrom (cursor pos : Nat) (found : Found) (cs : List Char) :
    found.closed <:+ (scanFrom cursor pos found cs).closed := by
  induction cs generalizing pos found with
  | nil => exact List.suffix_rfl
  | cons c cs ih =>
    refine List.IsSuffix.trans ?_ (ih _ _)
    unfold step
    split
    · exact List.suffix_rfl
    · split
      · split
        · exact List.suffix_cons _ _
        · exact List.suffix_rfl
      · exact List.suffix_rfl

/-- What a scan goes on to find, beside what the pass over the same tokens comes to: the stack is
    that of the lists that are open; or if the pass fails, then at the first closing parenthesis
    that is found. -/
def Accords (before after : Found) : Except ParseError Progress → Prop
  | .ok p => after.opened = starts p ∧ after.closed = before.closed
  | .error e => ∃ span, e = .unmatchedClose span ∧ span.start :: before.closed <:+ after.closed

theorem accords_scanFrom (cursor : Nat) {p : Progress} {found : Found} (h : found.opened = starts p)
    (start pos : Nat) (word cs : List Char) :
    Accords found (scanFrom cursor pos found cs) (p.run (Token.scanFrom start pos word cs)) := by
  induction cs generalizing p found start pos word with
  | nil =>
    obtain ⟨q, hq, hrun⟩ := run_finished p start pos word
    rw [Token.scanFrom, ← List.append_nil (Token.finished start pos word), hrun]
    exact ⟨h.trans hq.symm, rfl⟩
  | cons c cs ih =>
    -- The atom before the character, if there is one, is no list.
    obtain ⟨q, hq, hrun⟩ := run_finished p start pos word
    have hfound : found.opened = starts q := h.trans hq.symm
    simp only [Token.scanFrom, scanFrom, step]
    split
    · rw [hrun]
      exact ih (p := { q with opened := ⟨⟨pos, pos + c.utf8Size⟩, []⟩ :: q.opened }) (congrArg (pos :: ·) hfound) _ _ _
    · split
      · rw [hrun, Progress.run]
        simp only [Progress.step]
        cases hopened : q.opened with
        | nil =>
          have hnone : found.opened = [] := by rw [hfound, starts, hopened, List.map_nil]
          simp only [hnone]
          exact ⟨⟨pos, pos + c.utf8Size⟩, rfl, closed_scanFrom cursor _ ⟨[], pos :: found.closed, found.atCursor⟩ cs⟩
        | cons l rest =>
          have hsome : found.opened = l.span.start :: starts { q with opened := rest } := by
            rw [hfound, starts, hopened, List.map_cons, starts]
          simp only [hsome]
          exact ih (p := Progress.add { q with opened := rest } _) (starts_add { q with opened := rest } _).symm _ _ _
      · split
        · rw [hrun]
          exact ih hfound _ _ _
        · exact ih h _ _ _

theorem accords_scan (s : String) (cursor : Nat) :
    Accords nothing (scan cursor s.toList) (Progress.start.run (Token.scan s)) :=
  accords_scanFrom cursor rfl 0 0 [] s.toList

end Highlight

/-- Where the tokens end inside of lists, the error begins with the innermost one. -/
theorem Reader.readAll_of_innermost {tokens : List Token} (hin : Token.InOrder tokens) {p : Progress}
    (h : Progress.start.run tokens = .ok p) {l : OpenList} {rest : List OpenList} (hl : p.opened = l :: rest) :
    ∃ span, (ofTokens tokens).readAll = .error (.unexpectedEnd span) ∧ span.start = l.span.start := by
  obtain ⟨htracks, hread⟩ := readAll_of_run_eq_ok h
  have hopens := htracks.opens
  rw [hl, List.map_cons] at hopens
  obtain ⟨i, t, ht, -, hspan, -⟩ := hopens.1
  have hmem : t ∈ tokens := List.mem_of_getElem? ht
  obtain ⟨last, hlast⟩ := Option.ne_none_iff_exists'.mp (mt List.getLast?_eq_none_iff.mp (List.ne_nil_of_mem hmem))
  have hstop : (ofTokens tokens).stop = last.span.stop := by simp [ofTokens, hlast]
  have hle : l.span.start ≤ (ofTokens tokens).stop := by
    rw [hstop, ← hspan]
    exact Nat.le_trans (hin.each hmem) (hin.stop_le_getLast hmem hlast)
  refine ⟨l.span.merge (.point (ofTokens tokens).stop), ?_, Nat.min_eq_left hle⟩
  rw [hread, Progress.finish, hl]

open Highlight

section Reading

variable {s : String} (cursor : Nat)

/-- Where the pass over the tokens fails, it is at the first red closing parenthesis. -/
theorem readAll_of_stray {e : ParseError} (h : Progress.start.run (Token.scan s) = .error e) :
    ∃ span, (Reader.ofText s).readAll = .error (.unmatchedClose span) ∧
      IsLeast {i | Red s cursor i ')'} span.start := by
  have haccords := accords_scan s cursor
  rw [h] at haccords
  obtain ⟨span, rfl, later, hclosed⟩ := haccords
  have hsorted := (located_scan cursor s.toList).closedSorted
  rw [← hclosed] at hsorted
  refine ⟨span, ?_, red_closing_iff.mpr (by simp [← hclosed]), fun i hi => ?_⟩
  · rw [Reader.ofText, Reader.readAll_ofTokens, h]
    rfl
  · have hi := red_closing_iff.mp hi
    rw [← hclosed] at hi
    rcases List.mem_append.mp hi with hi | hi
    · exact Nat.le_of_lt ((List.pairwise_append.mp hsorted).2.2 i hi _ List.mem_cons_self)
    · exact Nat.le_of_eq (List.mem_singleton.mp hi).symm

variable {p : Progress} (h : Progress.start.run (Token.scan s) = .ok p)

include h

/-- Where the pass goes through, only opening parentheses are red, those of the lists that are open. -/
theorem red_iff_of_run {i : Nat} {c : Char} : Red s cursor i c ↔ c = '(' ∧ i ∈ starts p := by
  have haccords := accords_scan s cursor
  rw [h] at haccords
  obtain ⟨hopened, hclosed⟩ := haccords
  rw [← hopened]
  refine ⟨fun hred => ?_, fun ⟨hc, hi⟩ => hc ▸ red_opening_iff.mpr hi⟩
  rcases hred.parenthesis with rfl | rfl
  · exact ⟨rfl, red_opening_iff.mp hred⟩
  · have hi := red_closing_iff.mp hred
    rw [hclosed] at hi
    cases hi

/-- Where it ends inside of lists, the innermost one begins at the last red parenthesis. -/
theorem readAll_of_unclosed (hopened : p.opened ≠ []) :
    ∃ span, (Reader.ofText s).readAll = .error (.unexpectedEnd span) ∧
      IsGreatest {i | ∃ c, Red s cursor i c} span.start := by
  have hred (i : Nat) (c : Char) : Red s cursor i c ↔ c = '(' ∧ i ∈ starts p := red_iff_of_run cursor h
  obtain ⟨l, rest, hl⟩ := List.exists_cons_of_ne_nil hopened
  obtain ⟨span, hread, hspan⟩ := Reader.readAll_of_innermost (Token.inOrder_scan s) h hl
  have hstarts : starts p = span.start :: rest.map (·.span.start) := by rw [starts, hl, List.map_cons, hspan]
  have hsorted : (starts p).Pairwise (· > ·) := by
    have haccords := accords_scan s cursor
    rw [h] at haccords
    exact haccords.1 ▸ (located_scan cursor s.toList).openedSorted
  refine ⟨span, hread, ⟨'(', (hred _ _).mpr ⟨rfl, by simp [hstarts]⟩⟩, fun i ⟨c, hi⟩ => ?_⟩
  have hi := ((hred i c).mp hi).2
  rw [hstarts] at hi hsorted
  rcases List.mem_cons.mp hi with rfl | hi
  · exact Nat.le_refl _
  · exact Nat.le_of_lt (List.rel_of_pairwise_cons hsorted hi)

end Reading

/-- A line with its colours is its characters, each painted by itself. All of its trees are read
    exactly if none is red. If a closing parenthesis is red, the error is one without a partner, the
    first of the red ones; if only opening ones are, the error is the end of the line, and begins
    at the last of them. -/
theorem highlight_tells_reading (s : String) (cursor : Nat) :
    line s cursor = String.ofList ((cells s cursor).flatMap fun cell => paint cell.char cell.colour) ∧
    ((∃ trees, (Reader.ofText s).readAll = .ok trees) ↔ ∀ i c, ¬ Red s cursor i c) ∧
    ((∃ span, (Reader.ofText s).readAll = .error (.unmatchedClose span)) ↔ ∃ i, Red s cursor i ')') ∧
    (∀ span, (Reader.ofText s).readAll = .error (.unmatchedClose span) →
      IsLeast {i | Red s cursor i ')'} span.start) ∧
    ((∃ span, (Reader.ofText s).readAll = .error (.unexpectedEnd span)) ↔
      (∃ i c, Red s cursor i c) ∧ ∀ i c, Red s cursor i c → c = '(') ∧
    ∀ span, (Reader.ofText s).readAll = .error (.unexpectedEnd span) →
      IsGreatest {i | ∃ c, Red s cursor i c} span.start := by
  refine ⟨line_eq_cells s cursor, ?_⟩
  cases hrun : Progress.start.run (Token.scan s) with
  | error e =>
    obtain ⟨span, hread, hleast⟩ := readAll_of_stray cursor hrun
    have hred : Red s cursor span.start ')' := hleast.1
    have hsome : ¬ ∀ i c, ¬ Red s cursor i c := fun h => h _ _ hred
    have hnotOpening : ¬ ∀ i c, Red s cursor i c → c = '(' := fun h => absurd (h _ _ hred) (by decide)
    rw [hread]
    refine ⟨by simp [hsome], ⟨fun _ => ⟨_, hred⟩, fun _ => ⟨span, rfl⟩⟩, ?_, by simp [hnotOpening], by simp⟩
    rintro _ ⟨⟩
    exact hleast
  | ok p =>
    have hred (i : Nat) (c : Char) : Red s cursor i c ↔ c = '(' ∧ i ∈ starts p := red_iff_of_run cursor hrun
    have hnoClosing : ¬ ∃ i, Red s cursor i ')' := by simp [hred]
    have hopening : ∀ i c, Red s cursor i c → c = '(' := fun i c h => ((hred i c).mp h).1
    by_cases hopened : p.opened = []
    · have hread : (Reader.ofText s).readAll = .ok p.done.reverse := (Reader.readAll_of_closed hrun hopened).2.1
      have hnone (i : Nat) (c : Char) : ¬ Red s cursor i c := by simp [hred, starts, hopened]
      rw [hread]
      exact ⟨by simp [hnone], by simp [hnone], by simp, by simp [hnone], by simp⟩
    · obtain ⟨span, hread, hgreatest⟩ := readAll_of_unclosed cursor hrun hopened
      obtain ⟨c, hlast⟩ : ∃ c, Red s cursor span.start c := hgreatest.1
      have hsome : ¬ ∀ i c, ¬ Red s cursor i c := fun h => h _ _ hlast
      rw [hread]
      refine ⟨by simp [hsome], by simp [hnoClosing], by simp, ⟨fun _ => ⟨⟨_, _, hlast⟩, hopening⟩, fun _ => ⟨span, rfl⟩⟩, ?_⟩
      rintro _ ⟨⟩
      exact hgreatest

/-- Of `é)(` the second parenthesis is red besides the first one, which is the error; of `(é) ((`
    the last one is; and in `(é)` none is. -/
theorem highlight_tells_reading_cases :
    IsLeast {i | Red "é)(" 0 i ')'} 2 ∧ IsGreatest {i | ∃ c, Red "(é) ((" 4 i c} 6 ∧ ∀ i c, ¬ Red "(é)" 4 i c := by
  obtain ⟨-, -, -, hstray, -⟩ := highlight_tells_reading "é)(" 0
  obtain ⟨-, -, -, -, -, hunclosed⟩ := highlight_tells_reading "(é) ((" 4
  obtain ⟨-, hread, -⟩ := highlight_tells_reading "(é)" 4
  refine ⟨hstray ⟨2, 3⟩ ?_, hunclosed ⟨6, 7⟩ ?_, hread.mp ⟨[.list [.symbol "é"]], ?_⟩⟩
  · cbv
  · cbv
  · cbv

end LineLisp
