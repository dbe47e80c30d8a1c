/-!
# Spans

A `Span` is a half-open range of byte offsets.  Spans that come from outside may be inverted;
nothing here assumes that the start is not past the end.
-/

namespace RubyLint

/-- The bytes from `start` up to, not including, `stop`. -/
structure Span where
  start : Nat
  stop : Nat
deriving DecidableEq, Inhabited

namespace Span

def empty (offset : Nat) : Span := ⟨offset, offset⟩

/-- The number of bytes; zero for an inverted span. -/
def length (s : Span) : Nat := s.stop - s.start

def isEmpty (s : Span) : Bool := s.start == s.stop

/-- The other span lies entirely inside this one. -/
def contains (s t : Span) : Bool := decide (s.start ≤ t.start) && decide (t.stop ≤ s.stop)

/-- The spans conflict when both are edited.  Two empty spans overlap at the same offset; otherwise
each has to start before the other ends, so an empty span overlaps a span strictly around it. -/
def overlaps (s t : Span) : Bool :=
  if s.isEmpty && t.isEmpty then s.start == t.start
  else decide (s.start < t.stop) && decide (t.start < s.stop)

/-- The smallest span around both. -/
def join (s t : Span) : Span := ⟨min s.start t.start, max s.stop t.stop⟩

/-- From the start of one span to the end of another; empty if that end comes first. -/
def upTo (s t : Span) : Span := ⟨s.start, max t.stop s.start⟩

/-- The order by start, then by end. -/
def before (s t : Span) : Bool :=
  decide (s.start < t.start) || (s.start == t.start && decide (s.stop < t.stop))

/-- Not after the other span in the order by start, then by end. -/
def notAfter (s t : Span) : Bool := !t.before s

/-- The two offsets with two dots between them. -/
def text (s : Span) : String := s!"{s.start}..{s.stop}"

theorem contains_iff {s t : Span} : s.contains t = true ↔ s.start ≤ t.start ∧ t.stop ≤ s.stop := by
  simp [contains]

theorem contains_refl (s : Span) : s.contains s = true := by simp [contains]

theorem contains_trans {s t u : Span} (h : s.contains t = true) (k : t.contains u = true) :
    s.contains u = true := by
  rw [contains_iff] at *; omega

theorem overlaps_comm (s t : Span) : s.overlaps t = t.overlaps s := by
  unfold overlaps
  rw [Bool.and_comm s.isEmpty, Bool.and_comm (decide (s.start < t.stop))]
  split
  · exact Bool.beq_comm
  · rfl

end Span

end RubyLint
