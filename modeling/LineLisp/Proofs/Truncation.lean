/-
  LineLisp.Proofs.Truncation — a computation beside itself with a sink that takes only so many
  lines more. With room for all lines that it writes it does the same; otherwise it fails in
  the machine in which it attempts to write the first line that there is no room for.
  - `Truncates.bind`: what holds of two computations holds of one after the other.
-/

import LineLisp.Proofs.Outcome

namespace LineLisp

/-! ## Room -/

/-- The sink after more lines, none of which takes up room. -/
def Sink.plus (s : Sink) (lines : List String) : Sink := ⟨s.lines ++ lines, s.room⟩

theorem Sink.plus_nil (s : Sink) : s.plus [] = s := by
  simp [plus]

theorem Sink.plus_plus (s : Sink) (ls ls' : List String) : (s.plus ls).plus ls' = s.plus (ls ++ ls') := by
  unfold plus
  congr 1
  exact Array.ext' (by simp)

theorem Sink.write_eq_plus {s : Sink} (h : s.room = none) (line : String) : s.write line = s.plus [line] := by
  simp [write, plus, h]

/-- The machine with a sink that takes so many lines more. -/
def Machine.withRoom (m : Machine) (room : Option Nat) : Machine := { m with sink := { m.sink with room } }

def Outcome.withRoom {ε α : Type} (room : Option Nat) (r : Outcome ε α) : Outcome ε α :=
  r.onMachine (·.withRoom room)

@[simp] theorem Outcome.withRoom_ok {ε α : Type} (room : Option Nat) (a : α) (m : Machine) :
    withRoom room (.ok a m : Outcome ε α) = .ok a (m.withRoom room) := rfl
@[simp] theorem Outcome.withRoom_error {ε α : Type} (room : Option Nat) (e : Stop ε) (m : Machine) :
    withRoom room (.error e m : Outcome ε α) = .error e (m.withRoom room) := rfl

/-! ## Truncation -/

variable {ε α β : Type}

/-- From a machine whose sink never fails the computation writes some lines. If there is room for
    all of them it does the same and has taken up that room. Otherwise it fails when it attempts,
    as `attempts` says, to write the first of the others, and the machine is the one of that
    attempt, at the depth of the beginning. -/
def Truncates (full : ε) (attempts : String → Machine → Prop) (m : Machine) (x : Run ε α) : Prop :=
  ∃ lines : List String, (Outcome.machine (x m)).sink = m.sink.plus lines ∧ (Outcome.machine (x m)).depth = m.depth ∧
    ∀ k, (lines.length ≤ k →
        x (m.withRoom (some k)) = Outcome.withRoom (some (k - lines.length)) (x m)) ∧
      ∀ line, lines[k]? = some line → ∃ m₁, attempts line m₁ ∧ m₁.sink = m.sink.plus (lines.take k) ∧
        x (m.withRoom (some k)) = .error (.failed full) { m₁.withRoom (some 0) with depth := m.depth }

namespace Truncates

variable {full : ε} {A B : String → Machine → Prop} {m : Machine} {x : Run ε α}

theorem mono (hAB : ∀ line m₁, A line m₁ → B line m₁) (h : Truncates full A m x) : Truncates full B m x := by
  obtain ⟨lines, hsink, hdepth, hk⟩ := h
  refine ⟨lines, hsink, hdepth, fun k => ⟨(hk k).1, fun line hline => ?_⟩⟩
  obtain ⟨m₁, hA, hm₁, hcut⟩ := (hk k).2 line hline
  exact ⟨m₁, hAB line m₁ hA, hm₁, hcut⟩

/-- What leaves the sink alone is not truncated. -/
theorem silent (hsink : (Outcome.machine (x m)).sink = m.sink) (hdepth : (Outcome.machine (x m)).depth = m.depth)
    (hroom : ∀ room, x (m.withRoom room) = Outcome.withRoom room (x m)) : Truncates full A m x := by
  refine ⟨[], by rw [hsink, Sink.plus_nil], hdepth, fun k => ⟨fun _ => hroom _, fun line hline => ?_⟩⟩
  cases hline

theorem pure (a : α) : Truncates full A m (pure a : Run ε α) := silent rfl rfl fun _ => rfl

theorem fail (e : ε) : Truncates full A m (Run.fail e : Run ε α) := silent rfl rfl fun _ => rfl

theorem unfinished : Truncates full A m (Run.unfinished : Run ε α) := silent rfl rfl fun _ => rfl

theorem note (event : LogEvent) : Truncates full A m (Run.note event : Run ε Unit) := silent rfl rfl fun _ => rfl

theorem sink_eq {lines : List String} (hm : m.sink.room = none) {m' : Machine} (h : m'.sink = m.sink.plus lines) :
    m'.sink.room = none := by
  rw [h]
  exact hm

theorem bind {f : α → Run ε β} (hm : m.sink.room = none) (hx : Truncates full A m x)
    (hf : ∀ a m', x m = .ok a m' → m'.sink.room = none → Truncates full A m' (f a)) :
    Truncates full A m (x >>= f) := by
  obtain ⟨ls, hsink, hdepth, hk⟩ := hx
  cases hxm : x m with
  | error e m' =>
    simp only [hxm, Outcome.machine_error, Outcome.withRoom_error] at hsink hdepth hk
    have hbind : (x >>= f) m = .error e m' := Run.bind_of_error hxm f
    refine ⟨ls, by rw [hbind]; exact hsink, by rw [hbind]; exact hdepth, fun k => ⟨fun hle => ?_, fun line hline => ?_⟩⟩
    · rw [hbind]
      exact Run.bind_of_error ((hk k).1 hle) f
    · obtain ⟨m₁, hA, hm₁, hcut⟩ := (hk k).2 line hline
      exact ⟨m₁, hA, hm₁, Run.bind_of_error hcut f⟩
  | ok a m' =>
    simp only [hxm, Outcome.machine_ok, Outcome.withRoom_ok] at hsink hdepth hk
    obtain ⟨ls', hsink', hdepth', hk'⟩ := hf a m' hxm (sink_eq hm hsink)
    have hbind : (x >>= f) m = f a m' := Run.bind_of_ok hxm f
    refine ⟨ls ++ ls', ?_, ?_, fun k => ⟨fun hle => ?_, fun line hline => ?_⟩⟩
    · rw [hbind, hsink', hsink, Sink.plus_plus]
    · rw [hbind, hdepth', hdepth]
    · rw [List.length_append] at hle ⊢
      rw [hbind, Run.bind_of_ok ((hk k).1 (by omega)), (hk' (k - ls.length)).1 (by omega), Nat.sub_sub]
    · by_cases hlt : k < ls.length
      · rw [List.getElem?_append_left hlt] at hline
        obtain ⟨m₁, hA, hm₁, hcut⟩ := (hk k).2 line hline
        refine ⟨m₁, hA, ?_, Run.bind_of_error hcut f⟩
        rw [List.take_append_of_le_length (Nat.le_of_lt hlt), hm₁]
      · have hle : ls.length ≤ k := Nat.le_of_not_lt hlt
        rw [List.getElem?_append_right hle] at hline
        obtain ⟨m₁, hA, hm₁, hcut⟩ := (hk' (k - ls.length)).2 line hline
        refine ⟨m₁, hA, ?_, ?_⟩
        · rw [hm₁, hsink, Sink.plus_plus, List.take_append, List.take_of_length_le hle]
        · rw [Run.bind_of_ok ((hk k).1 hle), hcut, hdepth]

/-- The renaming of errors renames the one of the full sink. -/
theorem mapError {ε' : Type} (f : ε → ε') (h : Truncates full A m x) :
    Truncates (f full) A m (Run.mapError f x) := by
  obtain ⟨ls, hsink, hdepth, hk⟩ := h
  refine ⟨ls, by rw [Run.machine_mapError]; exact hsink, by rw [Run.machine_mapError]; exact hdepth,
    fun k => ⟨fun hle => ?_, fun line hline => ?_⟩⟩
  · have hx := (hk k).1 hle
    unfold Run.mapError
    rw [hx]
    cases x m with
    | ok a m' => rfl
    | error e m' => cases e <;> rfl
  · obtain ⟨m₁, hA, hm₁, hcut⟩ := (hk k).2 line hline
    exact ⟨m₁, hA, hm₁, Run.mapError_of_failed f hcut⟩

theorem emit {A : String → Machine → Prop} {m : Machine} (hm : m.sink.room = none) {line : String} (hA : A line m) :
    Truncates .sinkFull A m (Eval.emit line) := by
  have hroom {room : Option Nat} (h : room ≠ some 0) : (m.withRoom room).sink.isFull = false := by
    exact decide_eq_false h
  have hfree : Eval.emit line m = .ok () { m with sink := m.sink.write line } :=
    Eval.emit_of_room (by simp [Sink.isFull, hm]) line
  refine ⟨[line], ?_, by rw [hfree]; rfl, fun k => ⟨fun hle => ?_, fun l hl => ?_⟩⟩
  · rw [hfree]
    exact Sink.write_eq_plus hm line
  · have hk : k ≠ 0 := by
      rintro rfl
      cases hle
    rw [hfree, Eval.emit_of_room (hroom (by simpa using hk))]
    rfl
  · have hk : k = 0 := by
      have := (List.getElem?_eq_some_iff.mp hl).1
      simp only [List.length_singleton] at this
      omega
    subst hk
    obtain rfl : line = l := by simpa using hl
    refine ⟨m, hA, (Sink.plus_nil _).symm, ?_⟩
    rw [Eval.emit_of_full (by simp [Sink.isFull, Machine.withRoom])]
    rfl

end Truncates

end LineLisp
