/-
  LineLisp.Span — ranges of a source text, in bytes of its UTF-8 form. A span starts at
  `start` and ends before `stop`. `merge` is the least span that covers two others.
-/

namespace LineLisp

structure Span where
  start : Nat
  stop : Nat
  deriving DecidableEq, Repr, Inhabited

namespace Span

/-- The empty span at an offset. -/
def point (offset : Nat) : Span := ⟨offset, offset⟩

/-- The least span that covers both. -/
def merge (s t : Span) : Span := ⟨min s.start t.start, max s.stop t.stop⟩

/-- The span moved right by a number of bytes. -/
def shift (s : Span) (n : Nat) : Span := ⟨s.start + n, s.stop + n⟩

def text (s : Span) : String := s!"{s.start}..{s.stop}"

theorem merge_comm (s t : Span) : s.merge t = t.merge s := by
  simp only [merge, Nat.min_comm, Nat.max_comm]

end Span

end LineLisp
