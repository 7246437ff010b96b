/-
  LineLisp.Proofs.ErrorPlaces — where the errors of a session are shown. A line that is evaluated
  is not blank, so it has a token, and an error in reading it is about one of its parentheses.
  - `LineError.About.pointsAt`: the span of such an error begins and ends between characters, is not
    empty, and has a closing parenthesis by itself in it, or the text from an opening one to the
    last character of the last token.
  - `Console.failures`: the lines of a session that fail, each with its error; `session_failures`
    says that their diagnostics are all that a session writes to the standard error.
  - `shown_errors_have_places`: so the error of a line without tokens is never shown, and no other
    error in reading is shown without a parenthesis.
-/

import LineLisp.Proofs.Segmentation
import LineLisp.Proofs.Sessions
import LineLisp.Proofs.Underline

namespace LineLisp

/-! ## Parts of a line -/

/-- The characters of a line from the `i`th up to the `j`th are read in the span of their bytes. -/
theorem Text.spells_take_drop (cs : List Char) {i j : Nat} (h : i ≤ j) :
    Spells 0 cs ⟨byteLength (cs.take i), byteLength (cs.take j)⟩ ((cs.take j).drop i) := by
  have hfirst : cs.take i ++ (cs.take j).drop i = cs.take j := by
    have hsplit := List.take_append_drop i (cs.take j)
    rwa [List.take_take, Nat.min_eq_left h] at hsplit
  refine ⟨cs.take i, cs.drop j, ?_, (Nat.zero_add _).symm, ?_⟩
  · rw [← List.append_assoc, hfirst, List.take_append_drop]
  · rw [← byteLength_append, hfirst]

theorem Text.Spells.stop_le {cs word : List Char} {span : Span} (h : Spells 0 cs span word) :
    span.stop ≤ byteLength cs := by
  obtain ⟨before, after, rfl, hstart, hstop⟩ := h
  simp only [byteLength_append]
  omega

/-- What is read in a span is what a cut at its end has more than a cut at its beginning. -/
theorem Text.Spells.takeBytes_append_eq {cs word : List Char} {span : Span} (h : Spells 0 cs span word) :
    takeBytes span.start cs ++ word = takeBytes span.stop cs := by
  obtain ⟨before, after, rfl, hstart, hstop⟩ := h
  rw [hstop, hstart, Nat.zero_add, takeBytes_append, ← byteLength_append, ← List.append_assoc, takeBytes_append]

/-- An error in reading a line is about these characters of it: a closing parenthesis, or all from an
    opening one to the last character of the last token. -/
structure ParseError.PointsAt (line : String) (e : ParseError) (part : List Char) : Prop where
  /-- Both ends of the span lie between characters. -/
  spelled : Text.Spells 0 line.toList e.span part
  start_lt : e.span.start < e.span.stop
  stop_le : e.span.stop ≤ Text.byteLength line.toList
  closing {span : Span} : e = .unmatchedClose span → part = [')']
  opening {span : Span} : e = .unexpectedEnd span → part.head? = some '('
  last {span : Span} : e = .unexpectedEnd span → ∃ t c, (Token.scan line).getLast? = some t ∧
    t.text.toList.getLast? = some c ∧ part.getLast? = some c ∧ span.stop = t.span.stop

/-- The characters up to the end of a token end as the token does. -/
theorem Token.Placed.getLast?_take {cs : List Char} {t : Token} {i j : Nat} (h : t.Placed cs i j)
    (ht : t.text.toList ≠ []) : (cs.take j).getLast? = t.text.toList.getLast? := by
  obtain ⟨before, after, rfl, rfl, rfl, -⟩ := h
  rw [← List.append_assoc, ← List.length_append, List.take_left, List.getLast?_append_of_ne_nil _ ht]

theorem LineError.About.pointsAt {line : String} {e : ParseError} {i j : Nat} (h : (parse e).About line i j)
    (hblank : Text.isBlank line = false) : e.PointsAt line ((line.toList.take j).drop i) := by
  obtain ⟨hij, hj⟩ := h.lt hblank
  have hspan : e.span = ⟨Text.byteLength (line.toList.take i), Text.byteLength (line.toList.take j)⟩ := by
    refine .trans ?_ h.span_eq
    cases e <;> rfl
  have hspelled := hspan ▸ Text.spells_take_drop line.toList hij.le
  have hlength : (line.toList.take j).length = j := by rw [List.length_take, Nat.min_eq_left hj]
  have hhead : ((line.toList.take j).drop i).head? = line.toList[i]? := by
    rw [List.head?_drop, List.getElem?_take, if_pos hij]
  have hnonempty : (line.toList.take j).drop i ≠ [] := by
    rw [ne_eq, List.drop_eq_nil_iff, hlength]
    omega
  refine ⟨hspelled, hspelled.start_lt_stop hnonempty, hspelled.stop_le, fun heq => ?_, fun heq => ?_, fun heq => ?_⟩
  · subst heq
    cases h with
    | stray _ _ _ hchar =>
      -- It is one character long.
      obtain ⟨c, rest, hpart⟩ := List.exists_cons_of_ne_nil hnonempty
      have hrest : rest = [] := by
        have hcount := congrArg List.length hpart
        rw [List.length_drop, hlength, List.length_cons] at hcount
        exact List.length_eq_zero_iff.mp (by omega)
      rw [hpart, hrest]
      rw [hpart, hchar] at hhead
      rw [Option.some.inj hhead]
  · subst heq
    cases h with
    | unclosed _ _ _ _ _ hchar _ => rw [hhead, hchar]
  · subst heq
    cases h with
    | @unclosed n i i' j' j t last _ _ _ hend _ _ hplaced =>
      have htext := Token.text_ne_nil (Token.wellSpelled_of_mem_scan (List.mem_of_getLast? hend))
      obtain ⟨c, hc⟩ := Option.ne_none_iff_exists'.mp (mt List.getLast?_eq_none_iff.mp htext)
      refine ⟨last, c, hend, hc, ?_, rfl⟩
      rw [List.getLast?_drop, hlength, if_neg (by omega), hplaced.getLast?_take htext, hc]

/-- An error in reading a line that is evaluated is about a part of it. -/
theorem Line.exists_pointsAt {settings : Settings} {line : String} {m m' : Machine} {e : ParseError}
    (haction : action line = .evaluate) (hrun : run settings line m = .error (.failed (.parse e)) m') :
    ∃ part, e.PointsAt line part := by
  obtain ⟨i, j, habout⟩ := exists_about haction hrun
  exact ⟨_, habout.pointsAt (not_isBlank_of_action haction)⟩

/-- It is never the error of a line without tokens. -/
theorem ParseError.PointsAt.ne_unexpectedEnd {line : String} {e : ParseError} {part : List Char}
    (h : e.PointsAt line part) (n : Nat) : e ≠ .unexpectedEnd (.point n) := by
  rintro rfl
  exact Nat.lt_irrefl n h.start_lt

/-! ## Sessions -/

namespace Console

variable {settings : Settings}

/-- The error that a line fails with, if it is evaluated and fails. -/
def error? (settings : Settings) (m : Machine) (line : String) : Option LineError :=
  match Line.action line with
  | .evaluate => match Line.run settings line m with
    | .error (.failed e) _ => some e
    | _ => none
  | _ => none

/-- The lines that are read and fail, each with its error. -/
def failures (settings : Settings) (m : Machine) : List String → List (String × LineError)
  | [] => []
  | line :: rest => (error? settings m line).toList.map (line, ·) ++
      (turn settings m line).2.elim [] fun m' => failures settings m' rest

/-- What is shown of a line that failed. -/
def diagnostic (failure : String × LineError) : String := (Diagnostic.ofError failure.1 failure.2).render failure.1

theorem error?_eq_some_iff {m : Machine} {line : String} {e : LineError} : error? settings m line = some e ↔
    Line.action line = .evaluate ∧ ∃ m', Line.run settings line m = .error (.failed e) m' := by
  constructor
  · intro h
    unfold error? at h
    split at h
    · next haction =>
      split at h
      · next e' m' hrun =>
        obtain rfl := Option.some.inj h
        exact ⟨haction, m', hrun⟩
      · cases h
    · cases h
  · rintro ⟨haction, m', hrun⟩
    simp only [error?, haction, hrun]

theorem turn_stderr (settings : Settings) (m : Machine) (line : String) : (turn settings m line).1.stderr =
    String.join ((error? settings m line).toList.map fun e => diagnostic (line, e)) := by
  unfold turn error?
  cases Line.action line with
  | quit => rfl
  | skip => rfl
  | evaluate =>
    simp only [Line.report]
    cases Line.run settings line m with
    | ok _ m' => rfl
    | error e m' =>
      cases e with
      | failed e => simp [diagnostic]
      | unfinished => rfl

/-- The diagnostics of the lines that fail are all that the lines write to the standard error. -/
theorem session_failures (settings : Settings) (m : Machine) (lines : List String) :
    String.join ((outputs settings m lines).map (·.stderr)) =
      String.join ((failures settings m lines).map diagnostic) := by
  induction lines generalizing m with
  | nil => rfl
  | cons line rest ih =>
    have hfirst := turn_stderr settings m line
    simp only [outputs, failures, List.map_cons, List.map_append, List.map_map, String.join_cons, String.join_append]
    rw [hfirst]
    cases (turn settings m line).2 with
    | none => rfl
    | some m' => exact congrArg _ (ih m')

/-- Each of them is a line that is evaluated and fails with that error in the state it finds. -/
theorem exists_of_mem_failures {m : Machine} {lines : List String} {line : String} {e : LineError}
    (h : (line, e) ∈ failures settings m lines) : line ∈ lines ∧ Line.action line = .evaluate ∧
      ∃ m₁ m', Line.run settings line m₁ = .error (.failed e) m' := by
  induction lines generalizing m with
  | nil => cases h
  | cons first rest ih =>
    rcases List.mem_append.mp h with h | h
    · obtain ⟨e', he', heq⟩ := List.mem_map.mp h
      cases heq
      obtain ⟨haction, m', hrun⟩ := error?_eq_some_iff.mp (Option.mem_toList.mp he')
      exact ⟨List.mem_cons_self, haction, m, m', hrun⟩
    · cases hnext : (turn settings m first).2 with
      | none =>
        rw [hnext] at h
        cases h
      | some m' =>
        rw [hnext] at h
        obtain ⟨hmem, hfails⟩ := ih h
        exact ⟨List.mem_cons_of_mem _ hmem, hfails⟩

end Console

open Console

/-- A line that is evaluated has tokens, and each error in reading it is about a part of it that is a
    closing parenthesis or begins with an opening one. What a process that starts writes to the
    standard error are the diagnostics of such lines, and the error of a history that cannot be kept;
    so the error of a line without tokens is never among them. A process that does not start runs no
    line. -/
theorem shown_errors_have_places :
    (∀ line, Line.action line = .evaluate → Token.scan line ≠ [] ∧
      ∀ settings m m' e, Line.run settings line m = .error (.failed (.parse e)) m' → ∃ part, e.PointsAt line part) ∧
    (∀ host program texts input fe settings path, Program.start program texts = .ok (fe, settings, path) →
      let lines := (Text.lines input).map (fe.received (Host.edited host))
      let failed := failures settings (.initial none) lines
      (host.execute program texts input).written.stderr = String.join (failed.map diagnostic) ++
        (host.kept path lines).error.elim "" (fun e => "Error: " ++ e.fields ++ "\n") ∧
      ∀ line e, (line, e) ∈ failed → line ∈ lines ∧ Line.action line = .evaluate ∧
        e ≠ .parse (.unexpectedEnd ⟨0, 0⟩) ∧ ∀ e', e = .parse e' → ∃ part, e'.PointsAt line part) ∧
    ∀ host program texts input e, Program.start program texts = .error e →
      Host.execute host program texts input = .refused e := by
  refine ⟨fun line haction => ⟨Line.scan_ne_nil haction, fun _ _ _ _ => Line.exists_pointsAt haction⟩, ?_, ?_⟩
  · intro host program texts input fe settings path hstart lines failed
    refine ⟨by rw [stderr_of_start hstart rfl, session_failures], fun line e hmem => ?_⟩
    obtain ⟨hline, haction, m, m', hrun⟩ := exists_of_mem_failures hmem
    refine ⟨hline, haction, ?_, ?_⟩
    · rintro rfl
      obtain ⟨part, hpart⟩ := Line.exists_pointsAt haction hrun
      exact hpart.ne_unexpectedEnd 0 rfl
    · rintro e' rfl
      exact Line.exists_pointsAt haction hrun
  · intro host program texts input e hstart
    rw [Host.execute, hstart]

/-- The list at the end of the line `(1 é) ((2) ß` is never closed: there are characters of two bytes before
    its part and in it. -/
theorem shown_errors_have_places_unclosed :
    let line := "(1 é) ((2) ß"
    let e := ParseError.unexpectedEnd ⟨7, 14⟩
    (∃ m', Line.run ⟨true, some 1⟩ line (.initial none) = .error (.failed (.parse e)) m') ∧
    e.PointsAt line ['(', '(', '2', ')', ' ', 'ß'] ∧
    ((Host.inDirectory fun _ => none).execute .plain (only .maxDepth "1") "(1 é) ((2) ß\n").written.stderr =
      diagnostic (line, .parse e) := by
  intro line e
  have haction : Line.action line = .evaluate := by decide
  have hrun (heap : Heap) : Line.run ⟨true, some 1⟩ line ⟨heap, 0, .empty none, #[]⟩ = .error (.failed (.parse e))
      ⟨heap, 0, ⟨#["[(, 1, é, ), (, (, 2, ), ß]", "(1 é)", "nil"], none⟩, #[.tokensRead 9, .inertForm "1"]⟩ := by cbv
  obtain ⟨m', hfails⟩ : ∃ m', Line.run ⟨true, some 1⟩ line (.initial none) = .error (.failed (.parse e)) m' :=
    ⟨_, hrun .initial⟩
  obtain ⟨hline, hprocess, -⟩ := shown_errors_have_places
  obtain ⟨part, hpart⟩ := (hline line haction).2 _ _ _ e hfails
  obtain rfl : part = ['(', '(', '2', ')', ' ', 'ß'] := by
    have hbefore : Text.takeBytes e.span.start line.toList = ['(', '1', ' ', 'é', ')', ' '] := by decide
    have hcut := hpart.spelled.takeBytes_append_eq
    rw [hbefore] at hcut
    exact List.append_cancel_left (hcut.trans (by decide))
  have hlines (edited : String → String) :
      (Text.lines "(1 é) ((2) ß\n").map (FrontEnd.plain.received edited) = [line] :=
    (List.map_id _).trans (by decide +kernel)
  have hfailed : failures ⟨true, some 1⟩ (.initial none) [line] = [(line, .parse e)] := by
    rw [failures, error?_eq_some_iff.mpr ⟨haction, _, hfails⟩]
    cases (turn ⟨true, some 1⟩ (.initial none) line).2 <;> rfl
  obtain ⟨hstderr, -⟩ := hprocess (.inDirectory fun _ => none) .plain _ "(1 é) ((2) ß\n" _ _ _
    (start_plain load_only_maxDepth)
  rw [hlines, hfailed, Host.kept_none] at hstderr
  exact ⟨⟨_, hfails⟩, hpart, hstderr.trans (by simp [Saved.nothing])⟩

end LineLisp
