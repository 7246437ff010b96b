/-
  LineLisp.Proofs.Colouring — which parentheses of a line are coloured. A closing parenthesis has
  for its partner the nearest opening one before it that is not an earlier one's. The scan holds
  those that may still become partners, the nearest first, so that it finds the partner on top;
  and of the pairs at the cursor it remembers the last one that was closed.
  - `Pairs`: the parentheses that are partners, by that rule alone.
  - `Tracks.step` and `tracks_scan`: what the scan holds at each character of a line.
  - `shown_line`: on a terminal a line with its codes is the line in the colours of its cells.
  - `colours_pairs`: red are the parentheses without a partner, and blue are the two of the last
    pair at the cursor.
-/

import LineLisp.Proofs.Highlighting

namespace LineLisp.Highlight

/-! ## Partners -/

/-- Of the characters at their offsets, the closing parenthesis at `stop` has the opening one at
    `start` for its partner: it is before it, no earlier closing one has it, and those opening ones
    that are nearer are the partners of earlier closing ones. -/
def Pairs (text : List (Nat × Char)) (start stop : Nat) : Prop :=
  (start, '(') ∈ text ∧ (stop, ')') ∈ text ∧ start < stop ∧ (∀ j, (_ : j < stop) → ¬ Pairs text start j) ∧
    ∀ i, start < i → i < stop → (i, '(') ∈ text → ∃ j, ∃ _ : j < stop, Pairs text i j
termination_by stop

section Partners

variable {text : List (Nat × Char)} {start stop : Nat}

theorem Pairs.opening (h : Pairs text start stop) : (start, '(') ∈ text := by
  rw [Pairs] at h
  exact h.1

theorem Pairs.closing (h : Pairs text start stop) : (stop, ')') ∈ text := by
  rw [Pairs] at h
  exact h.2.1

theorem Pairs.lt (h : Pairs text start stop) : start < stop := by
  rw [Pairs] at h
  exact h.2.2.1

/-- The opening parenthesis before an offset has no partner before it. -/
def Open (text : List (Nat × Char)) (offset i : Nat) : Prop :=
  (i, '(') ∈ text ∧ i < offset ∧ ∀ j < offset, ¬ Pairs text i j

/-- A closing parenthesis has the last one for its partner that is open before it. -/
theorem pairs_iff (hclosing : (stop, ')') ∈ text) :
    Pairs text start stop ↔ Open text stop start ∧ ∀ i, Open text stop i → i ≤ start := by
  rw [Pairs]
  constructor
  · rintro ⟨hopening, -, hlt, hfree, hnearer⟩
    refine ⟨⟨hopening, hlt, hfree⟩, fun i ⟨hi, hilt, hifree⟩ => Nat.le_of_not_lt fun hgt => ?_⟩
    obtain ⟨j, hj, hpair⟩ := hnearer i hgt hilt hi
    exact hifree j hj hpair
  · rintro ⟨⟨hopening, hlt, hfree⟩, hlast⟩
    refine ⟨hopening, hclosing, hlt, hfree, fun i hgt hilt hi => ?_⟩
    by_contra hnone
    refine Nat.not_lt.mpr (hlast i ⟨hi, hilt, fun j hj hpair => hnone ⟨j, hj, hpair⟩⟩) hgt

end Partners

/-! ## The scan -/

/-- The pair has an end at the cursor or just before it. -/
def Touched (cursor start stop : Nat) : Prop :=
  (start = cursor ∨ start + 1 = cursor) ∨ (stop = cursor ∨ stop + 1 = cursor)

theorem touches_eq_true_iff {cursor start stop : Nat} :
    (touches cursor stop || touches cursor start) = true ↔ Touched cursor start stop := by
  simp [touches, Touched, or_comm]

/-- Of the pairs that are closed before an offset it is the last one at the cursor, if there is any. -/
def LastTouched (text : List (Nat × Char)) (cursor offset : Nat) : Option (Nat × Nat) → Prop
  | none => ∀ i j, j < offset → Pairs text i j → ¬ Touched cursor i j
  | some (start, stop) => stop < offset ∧ Pairs text start stop ∧ Touched cursor start stop ∧
      ∀ i j, j < offset → Pairs text i j → Touched cursor i j → j ≤ stop

/-- What was found in the characters before an offset: the opening parentheses that are open there,
    the nearest first, the closing ones without a partner, and the pair at the cursor. -/
structure Tracks (text : List (Nat × Char)) (cursor offset : Nat) (found : Found) : Prop where
  opened {i : Nat} : i ∈ found.opened ↔ Open text offset i
  sorted : found.opened.Pairwise (· > ·)
  closed {j : Nat} : j ∈ found.closed ↔ (j, ')') ∈ text ∧ j < offset ∧ ∀ i, ¬ Pairs text i j
  atCursor : LastTouched text cursor offset found.atCursor

theorem tracks_nothing (text : List (Nat × Char)) (cursor : Nat) : Tracks text cursor 0 nothing where
  opened := by simp [nothing, Open]
  sorted := .nil
  closed := by simp [nothing]
  atCursor _ _ hj := absurd hj (Nat.not_lt_zero _)

/-- The partner of a closing parenthesis is on top of the stack. -/
theorem Tracks.pairs_iff_head {text : List (Nat × Char)} {cursor stop : Nat} {found : Found}
    (h : Tracks text cursor stop found) (hclosing : (stop, ')') ∈ text) {i : Nat} :
    Pairs text i stop ↔ found.opened.head? = some i := by
  have hsorted := h.sorted
  rw [pairs_iff hclosing]
  simp only [← h.opened]
  cases hopened : found.opened with
  | nil => simp
  | cons start rest =>
    rw [hopened] at hsorted
    have hrest {j : Nat} (hj : j ∈ rest) : j < start := List.rel_of_pairwise_cons hsorted hj
    rw [List.head?_cons, Option.some.injEq]
    constructor
    · rintro ⟨hi, hlast⟩
      rcases List.mem_cons.mp hi with rfl | hi
      · rfl
      · exact absurd (hlast start List.mem_cons_self) (Nat.not_le.mpr (hrest hi))
    · rintro rfl
      exact ⟨List.mem_cons_self, fun j hj => (List.mem_cons.mp hj).elim Nat.le_of_eq fun hj => Nat.le_of_lt (hrest hj)⟩

/-- The character stands at an offset, and no other one before the next. -/
structure StandsAt (text : List (Nat × Char)) (pos : Nat) (c : Char) (next : Nat) : Prop where
  mem : (pos, c) ∈ text
  lt : pos < next
  before {i : Nat} {d : Char} : (i, d) ∈ text → i < next → i < pos ∨ i = pos ∧ d = c

theorem standsAt (before : List Char) (c : Char) (after : List Char) :
    StandsAt (Text.offsetsFrom 0 (before ++ c :: after)) (Text.byteLength before) c
      (Text.byteLength before + c.utf8Size) where
  mem := by simp [Text.offsetsFrom_append, Text.offsetsFrom]
  lt := Nat.lt_add_of_pos_right c.utf8Size_pos
  before {i d} hd hlt := by
    rw [Text.offsetsFrom_append, Nat.zero_add] at hd
    rcases List.mem_append.mp hd with hd | hd
    · have := (Text.lt_of_mem_offsetsFrom hd).2
      exact .inl (by omega)
    · rcases List.mem_cons.mp hd with hd | hd
      · exact .inr (Prod.mk.inj hd)
      · have := (Text.lt_of_mem_offsetsFrom hd).1
        omega

namespace StandsAt

variable {text : List (Nat × Char)} {pos next : Nat} {c : Char} (h : StandsAt text pos c next)

include h

theorem closing {start : Nat} (hpair : Pairs text start pos) : c = ')' := by
  rcases h.before hpair.closing h.lt with hlt | ⟨-, hc⟩
  · exact absurd hlt (Nat.lt_irrefl pos)
  · exact hc.symm

/-- A pair is closed before the next character if it is before this one, or by it. -/
theorem forall_pairs_iff {P : Nat → Nat → Prop} : (∀ i j, j < next → Pairs text i j → P i j) ↔
    (∀ i j, j < pos → Pairs text i j → P i j) ∧ ∀ i, Pairs text i pos → P i pos := by
  constructor
  · exact fun hall => ⟨fun i j hj => hall i j (Nat.lt_trans hj h.lt), fun i => hall i pos h.lt⟩
  · rintro ⟨hbefore, hhere⟩ i j hj hpair
    rcases h.before hpair.closing hj with hj | ⟨rfl, -⟩
    · exact hbefore i j hj hpair
    · exact hhere i hpair

/-- What is open after the character was open before it, or is the character, and has not found a
    partner in it. -/
theorem open_iff {i : Nat} :
    Open text next i ↔ (Open text pos i ∨ i = pos ∧ c = '(') ∧ ¬ Pairs text i pos := by
  constructor
  · rintro ⟨hi, hlt, hfree⟩
    refine ⟨?_, hfree pos h.lt⟩
    rcases h.before hi hlt with hi' | ⟨rfl, hc⟩
    · exact .inl ⟨hi, hi', fun j hj => hfree j (Nat.lt_trans hj h.lt)⟩
    · exact .inr ⟨rfl, hc.symm⟩
  · rintro ⟨⟨hi, hlt, hfree⟩ | ⟨rfl, rfl⟩, hhere⟩
    · refine ⟨hi, Nat.lt_trans hlt h.lt, fun j hj hpair => ?_⟩
      rcases h.before hpair.closing hj with hj | ⟨rfl, -⟩
      · exact hfree j hj hpair
      · exact hhere hpair
    · refine ⟨h.mem, h.lt, fun j hj hpair => ?_⟩
      rcases h.before hpair.closing hj with hj | ⟨rfl, -⟩
      · exact absurd hpair.lt (Nat.lt_asymm hj)
      · exact hhere hpair

/-- Without a partner are after the character those before it, and the character itself if it closes
    nothing. -/
theorem closed_iff {j : Nat} : (j, ')') ∈ text ∧ j < next ∧ (∀ i, ¬ Pairs text i j) ↔
    ((j, ')') ∈ text ∧ j < pos ∧ ∀ i, ¬ Pairs text i j) ∨ (j = pos ∧ c = ')' ∧ ∀ i, ¬ Pairs text i pos) := by
  constructor
  · rintro ⟨hj, hlt, hfree⟩
    rcases h.before hj hlt with hlt | ⟨rfl, hc⟩
    · exact .inl ⟨hj, hlt, hfree⟩
    · exact .inr ⟨rfl, hc.symm, hfree⟩
  · rintro (⟨hj, hlt, hfree⟩ | ⟨rfl, rfl, hfree⟩)
    · exact ⟨hj, Nat.lt_trans hlt h.lt, hfree⟩
    · exact ⟨h.mem, h.lt, hfree⟩

/-- Where the character closes no pair at the cursor, the last one of those is the same. -/
theorem lastTouched_iff {cursor : Nat} (hnone : ∀ i, Pairs text i pos → ¬ Touched cursor i pos)
    {pair : Option (Nat × Nat)} : LastTouched text cursor next pair ↔ LastTouched text cursor pos pair := by
  cases pair with
  | none => exact h.forall_pairs_iff.trans (and_iff_left hnone)
  | some pair =>
    obtain ⟨start, stop⟩ := pair
    have hlater : (∀ i, Pairs text i pos → Touched cursor i pos → pos ≤ stop) :=
      fun i hpair htouched => absurd htouched (hnone i hpair)
    simp only [LastTouched, h.forall_pairs_iff, and_iff_left hlater]
    refine and_congr_left fun ⟨hpair, htouched, _⟩ => ⟨fun hlt => ?_, fun hlt => Nat.lt_trans hlt h.lt⟩
    rcases h.before hpair.closing hlt with hlt | ⟨rfl, -⟩
    · exact hlt
    · exact absurd htouched (hnone start hpair)

end StandsAt

section Step

variable {text : List (Nat × Char)} {cursor pos next : Nat} {found : Found} {c : Char}

/-- A character that closes nothing is all that there is to add. -/
theorem Tracks.of_no_pair (h : Tracks text cursor pos found) (hc : StandsAt text pos c next)
    (hnone : ∀ i, ¬ Pairs text i pos) {found' : Found}
    (hopened : ∀ i, i ∈ found'.opened ↔ i ∈ found.opened ∨ i = pos ∧ c = '(')
    (hsorted : found'.opened.Pairwise (· > ·))
    (hclosed : ∀ j, j ∈ found'.closed ↔ j ∈ found.closed ∨ j = pos ∧ c = ')')
    (hcursor : found'.atCursor = found.atCursor) : Tracks text cursor next found' where
  opened := by simp [hopened, hc.open_iff, h.opened, hnone]
  sorted := hsorted
  closed := by simp [hclosed, hc.closed_iff, h.closed, hnone]
  atCursor := by
    rw [hcursor]
    exact (hc.lastTouched_iff fun i hpair => absurd hpair (hnone i)).mpr h.atCursor

/-- A parenthesis that closes one takes it off the stack. -/
theorem Tracks.of_pair (h : Tracks text cursor pos found) (hc : StandsAt text pos ')' next) {start : Nat}
    {rest : List Nat} (hopened : found.opened = start :: rest) :
    Tracks text cursor next { found with
      opened := rest
      atCursor := if touches cursor pos || touches cursor start then some (start, pos) else found.atCursor } := by
  have hpair {i : Nat} : Pairs text i pos ↔ start = i := by simp [h.pairs_iff_head hc.mem, hopened]
  have hsorted := h.sorted
  rw [hopened] at hsorted
  constructor
  case opened =>
    intro i
    have hi : i = start ∨ i ∈ rest ↔ Open text pos i := by rw [← h.opened, hopened, List.mem_cons]
    have hne (hi : i ∈ rest) : start ≠ i := Nat.ne_of_gt (List.rel_of_pairwise_cons hsorted hi)
    simp only [hc.open_iff, ← hi, hpair, Char.reduceEq, and_false, or_false]
    exact ⟨fun hi => ⟨.inr hi, hne hi⟩, fun ⟨hi, hne⟩ => hi.resolve_left fun h => hne h.symm⟩
  case sorted => exact hsorted.of_cons
  case closed =>
    intro j
    simp [hc.closed_iff, h.closed, hpair]
  case atCursor =>
    dsimp only
    split
    · next htouches =>
      refine ⟨hc.lt, hpair.mpr rfl, touches_eq_true_iff.mp htouches, fun i j hj hpair _ => ?_⟩
      rcases hc.before hpair.closing hj with hj | ⟨rfl, -⟩
      · exact Nat.le_of_lt hj
      · exact Nat.le_refl _
    · next htouches =>
      refine (hc.lastTouched_iff fun i hi => ?_).mpr h.atCursor
      rwa [← hpair.mp hi, ← touches_eq_true_iff]

theorem Tracks.step (h : Tracks text cursor pos found) (hc : StandsAt text pos c next) :
    Tracks text cursor next (step cursor pos found c) := by
  have hnone (hclosing : c ≠ ')') (i : Nat) : ¬ Pairs text i pos := fun hpair => hclosing (hc.closing hpair)
  unfold Highlight.step
  split
  · next hopening =>
    subst hopening
    refine h.of_no_pair hc (hnone (by decide)) (by simp [or_comm]) ?_ (by simp) rfl
    exact .cons (fun i hi => (h.opened.mp hi).2.1) h.sorted
  · split
    · next hopening hclosing =>
      subst hclosing
      split
      · next hopened =>
        refine h.of_no_pair hc (fun i => ?_) (by simp) h.sorted (by simp [or_comm]) rfl
        simp [h.pairs_iff_head hc.mem, hopened]
      · next start rest hopened => exact h.of_pair hc hopened
    · next hopening hclosing =>
      exact h.of_no_pair hc (hnone hclosing) (by simp [hopening]) h.sorted (by simp [hclosing]) rfl

end Step

theorem tracks_scanFrom {cursor : Nat} {before cs : List Char} {found : Found}
    (h : Tracks (Text.offsetsFrom 0 (before ++ cs)) cursor (Text.byteLength before) found) :
    Tracks (Text.offsetsFrom 0 (before ++ cs)) cursor (Text.byteLength (before ++ cs))
      (scanFrom cursor (Text.byteLength before) found cs) := by
  induction cs generalizing before found with
  | nil => simpa [scanFrom] using h
  | cons c cs ih =>
    have hnext : Text.byteLength (before ++ [c]) = Text.byteLength before + c.utf8Size := by simp
    have hstep := h.step (standsAt before c cs)
    rw [← hnext, ← List.singleton_append, ← List.append_assoc] at hstep
    simpa [scanFrom, hnext] using ih hstep

/-- What a scan of a whole line finds. -/
theorem tracks_scan (cursor : Nat) (cs : List Char) :
    Tracks (Text.offsetsFrom 0 cs) cursor (Text.byteLength cs) (scan cursor cs) :=
  have hnothing : Tracks (Text.offsetsFrom 0 ([] ++ cs)) cursor (Text.byteLength []) nothing := tracks_nothing _ cursor
  tracks_scanFrom hnothing

/-! ## The painted line -/

/-- What a terminal shows of characters with codes among them: the other characters, each in the
    colour that the last code before it sets. -/
def shown (colour : Option Colour) : List Char → List (Char × Option Colour)
  | '\x1b' :: '[' :: '1' :: ';' :: '3' :: '1' :: 'm' :: cs => shown (some .red) cs
  | '\x1b' :: '[' :: '1' :: ';' :: '3' :: '4' :: 'm' :: cs => shown (some .blue) cs
  | '\x1b' :: '[' :: '0' :: 'm' :: cs => shown none cs
  | c :: cs => (c, colour) :: shown colour cs
  | [] => []

/-- The text without the codes in it. -/
def withoutCodes (s : String) : String := String.ofList ((shown none s.toList).map (·.1))

theorem shown_cons {c : Char} (hc : c ≠ '\x1b') (colour : Option Colour) (cs : List Char) :
    shown colour (c :: cs) = (c, colour) :: shown colour cs := by
  rw [shown]
  · rintro _ rfl
    exact absurd rfl hc
  · rintro _ rfl
    exact absurd rfl hc
  · rintro _ rfl
    exact absurd rfl hc

/-- A painted character is shown in its colour, and what follows it in none. -/
theorem shown_paint {c : Char} (hc : c ≠ '\x1b') (colour : Option Colour) (cs : List Char) :
    shown none (paint c colour ++ cs) = (c, colour) :: shown none cs := by
  cases colour with
  | none => exact shown_cons hc none cs
  | some colour =>
    have hafter : shown (some colour) (c :: (plainCode.toList ++ cs)) = (c, some colour) :: shown none cs :=
      shown_cons hc _ _
    cases colour <;> exact hafter

theorem shown_line {s : String} (hs : '\x1b' ∉ s.toList) (cursor : Nat) :
    shown none (line s cursor).toList = (cells s cursor).map fun cell => (cell.char, cell.colour) := by
  have hcells (cells : List Cell) (h : ∀ cell ∈ cells, cell.char ≠ '\x1b') :
      shown none (cells.flatMap fun cell => paint cell.char cell.colour) =
        cells.map fun cell => (cell.char, cell.colour) := by
    induction cells with
    | nil => rfl
    | cons cell cells ih =>
      obtain ⟨hcell, h⟩ := List.forall_mem_cons.mp h
      rw [List.flatMap_cons, shown_paint hcell, ih h, List.map_cons]
  rw [line_eq_cells, String.toList_ofList]
  refine hcells _ fun ⟨i, c, colour⟩ hcell hc => hs ?_
  have hmem := (mem_cells_iff.mp hcell).1
  rw [← Text.map_snd_offsetsFrom 0 s.toList]
  exact List.mem_map.mpr ⟨(i, c), hmem, hc⟩

/-- The character at the offset is painted blue. -/
def Blue (s : String) (cursor offset : Nat) (c : Char) : Prop := ⟨offset, c, some .blue⟩ ∈ cells s cursor

theorem colour?_eq_blue_iff {found : Found} {i : Nat} :
    colour? found i = some .blue ↔ ¬ (i ∈ found.opened ∨ i ∈ found.closed) ∧
      ∃ start stop, found.atCursor = some (start, stop) ∧ (i = start ∨ i = stop) := by
  unfold colour?
  split
  · next h => simp [h]
  · next h =>
    cases found.atCursor with
    | none => simp
    | some pair =>
      obtain ⟨start, stop⟩ := pair
      simp [h, or_iff_not_imp_left]

section Line

variable {s : String} {cursor : Nat}

theorem lt_byteLength {cs : List Char} {i : Nat} {c : Char} (h : (i, c) ∈ Text.offsetsFrom 0 cs) :
    i < Text.byteLength cs := by
  simpa using (Text.lt_of_mem_offsetsFrom h).2

/-- Red are the parentheses without a partner. -/
theorem red_iff_without_partner {i : Nat} {c : Char} : Red s cursor i c ↔
    (i, c) ∈ Text.offsetsFrom 0 s.toList ∧
      (c = '(' ∧ (∀ j, ¬ Pairs (Text.offsetsFrom 0 s.toList) i j) ∨
        c = ')' ∧ ∀ j, ¬ Pairs (Text.offsetsFrom 0 s.toList) j i) := by
  have htracks := tracks_scan cursor s.toList
  constructor
  · intro hred
    refine ⟨(red_iff.mp hred).1, ?_⟩
    rcases hred.parenthesis with rfl | rfl
    · obtain ⟨-, -, hfree⟩ := htracks.opened.mp (red_opening_iff.mp hred)
      exact .inl ⟨rfl, fun j hpair => hfree j (lt_byteLength hpair.closing) hpair⟩
    · obtain ⟨-, -, hfree⟩ := htracks.closed.mp (red_closing_iff.mp hred)
      exact .inr ⟨rfl, hfree⟩
  · rintro ⟨hmem, ⟨rfl, hfree⟩ | ⟨rfl, hfree⟩⟩
    · exact red_opening_iff.mpr (htracks.opened.mpr ⟨hmem, lt_byteLength hmem, fun j _ => hfree j⟩)
    · exact red_closing_iff.mpr (htracks.closed.mpr ⟨hmem, lt_byteLength hmem, hfree⟩)

theorem blue_iff {i : Nat} {c : Char} : Blue s cursor i c ↔ (i, c) ∈ Text.offsetsFrom 0 s.toList ∧
    ¬ Red s cursor i c ∧ ∃ start stop, (scan cursor s.toList).atCursor = some (start, stop) ∧ (i = start ∨ i = stop) := by
  rw [Blue, mem_cells_iff, colour?_eq_blue_iff, red_iff]
  exact and_congr_right fun hmem => and_congr_left' (by simp [hmem])

/-- The two of a pair are not red, and so they are blue if it is the one that is remembered. -/
theorem blue_iff_of_pair {start stop : Nat} (hpair : Pairs (Text.offsetsFrom 0 s.toList) start stop)
    (hcursor : (scan cursor s.toList).atCursor = some (start, stop)) {i : Nat} {c : Char} :
    Blue s cursor i c ↔ i = start ∧ c = '(' ∨ i = stop ∧ c = ')' := by
  rw [blue_iff, red_iff_without_partner, hcursor]
  constructor
  · rintro ⟨hmem, -, _, _, ⟨⟩, rfl | rfl⟩
    · exact .inl ⟨rfl, Text.eq_of_mem_offsetsFrom hmem hpair.opening⟩
    · exact .inr ⟨rfl, Text.eq_of_mem_offsetsFrom hmem hpair.closing⟩
  · rintro (⟨rfl, rfl⟩ | ⟨rfl, rfl⟩)
    · refine ⟨hpair.opening, ?_, _, _, rfl, .inl rfl⟩
      rintro ⟨-, ⟨-, hfree⟩ | ⟨⟨⟩, -⟩⟩
      exact hfree _ hpair
    · refine ⟨hpair.closing, ?_, _, _, rfl, .inr rfl⟩
      rintro ⟨-, ⟨⟨⟩, -⟩ | ⟨-, hfree⟩⟩
      exact hfree _ hpair

end Line

/-- A line without escape characters is shown as its characters in their colours; without the codes it
    is the line. Red are the parentheses that have no partner. Blue are the two of a pair that has an
    end at the cursor or just before it, and of several such pairs the one that is closed last; if
    there is none, nothing is blue. Nothing is both. -/
theorem colours_pairs {s : String} (hs : '\x1b' ∉ s.toList) (cursor : Nat) :
    let text := Text.offsetsFrom 0 s.toList
    shown none (line s cursor).toList = ((cells s cursor).map fun cell => (cell.char, cell.colour)) ∧
    withoutCodes (line s cursor) = s ∧
    (∀ i c, Red s cursor i c ↔ (i, c) ∈ text ∧
      (c = '(' ∧ (∀ j, ¬ Pairs text i j) ∨ c = ')' ∧ ∀ j, ¬ Pairs text j i)) ∧
    ((∀ start stop, Pairs text start stop → ¬ Touched cursor start stop) ∧ (∀ i c, ¬ Blue s cursor i c) ∨
      ∃ start stop, Pairs text start stop ∧ Touched cursor start stop ∧
        (∀ i j, Pairs text i j → Touched cursor i j → j ≤ stop) ∧
        ∀ i c, Blue s cursor i c ↔ i = start ∧ c = '(' ∨ i = stop ∧ c = ')') ∧
    ∀ i c, ¬ (Red s cursor i c ∧ Blue s cursor i c) := by
  intro text
  have hshown := shown_line hs cursor
  refine ⟨hshown, ?_, fun i c => red_iff_without_partner, ?_, fun i c ⟨hred, hblue⟩ => (blue_iff.mp hblue).2.1 hred⟩
  · have hchars : (cells s cursor).map (fun cell => cell.char) = s.toList := by
      rw [cells, List.map_map]
      exact Text.map_snd_offsetsFrom 0 s.toList
    rw [withoutCodes, hshown, List.map_map]
    exact (congrArg String.ofList hchars).trans String.ofList_toList
  · have hlast := (tracks_scan cursor s.toList).atCursor
    cases hcursor : (scan cursor s.toList).atCursor with
    | none =>
      rw [hcursor] at hlast
      refine .inl ⟨fun i j hpair => hlast i j (lt_byteLength hpair.closing) hpair, fun i c hblue => ?_⟩
      obtain ⟨-, -, _, _, hsome, -⟩ := blue_iff.mp hblue
      rw [hcursor] at hsome
      cases hsome
    | some pair =>
      obtain ⟨start, stop⟩ := pair
      rw [hcursor] at hlast
      obtain ⟨-, hpair, htouched, hlatest⟩ := hlast
      exact .inr ⟨start, stop, hpair, htouched, fun i j hp => hlatest i j (lt_byteLength hp.closing) hp,
        fun i c => blue_iff_of_pair hpair hcursor⟩

/-- Between the two pairs of `(a)(é)) (` the cursor touches both, and the second one is blue; the
    parentheses after them are red. -/
theorem colours_pairs_adjacent :
    let text := Text.offsetsFrom 0 "(a)(é)) (".toList
    '\x1b' ∉ "(a)(é)) (".toList ∧ withoutCodes (line "(a)(é)) (" 3) = "(a)(é)) (" ∧
      Pairs text 3 6 ∧ (∀ i c, Blue "(a)(é)) (" 3 i c ↔ i = 3 ∧ c = '(' ∨ i = 6 ∧ c = ')') ∧
      (∀ j, ¬ Pairs text j 7) ∧ ∀ j, ¬ Pairs text 9 j := by
  have hs : '\x1b' ∉ "(a)(é)) (".toList := by decide
  have hstart : Blue "(a)(é)) (" 3 3 '(' := mem_cells_iff.mpr ⟨by decide +kernel, by cbv⟩
  have hstop : Blue "(a)(é)) (" 3 6 ')' := mem_cells_iff.mpr ⟨by decide +kernel, by cbv⟩
  have hclosing : Red "(a)(é)) (" 3 7 ')' := mem_cells_iff.mpr ⟨by decide +kernel, by cbv⟩
  have hopening : Red "(a)(é)) (" 3 9 '(' := mem_cells_iff.mpr ⟨by decide +kernel, by cbv⟩
  obtain ⟨-, hcodes, hred, ⟨-, hnone⟩ | ⟨start, stop, hpair, -, -, hblue⟩, -⟩ := colours_pairs hs 3
  · exact absurd hstart (hnone 3 '(')
  · obtain rfl : 3 = start := by simpa using (hblue 3 '(').mp hstart
    obtain rfl : 6 = stop := by simpa using (hblue 6 ')').mp hstop
    exact ⟨hs, hcodes, hpair, hblue, by simpa using ((hred 7 ')').mp hclosing).2,
      by simpa using ((hred 9 '(').mp hopening).2⟩

end LineLisp.Highlight
