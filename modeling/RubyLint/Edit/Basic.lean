import RubyLint.Span
import RubyLint.Text.Bytes

/-!
# Edits

An `Edit` replaces a span of a text.  An empty replacement deletes, and an edit of an empty span
inserts.  `Edit.conflicts` says when two edits cannot be made together, `Edit.fault?` what is wrong
with an edit of a given text.
-/

namespace RubyLint

/-- Replaces the bytes of a span. -/
structure Edit where
  span : Span
  replacement : String
deriving DecidableEq, Inhabited

/-- Why edits cannot be collected or made. -/
inductive EditError where
  | overlap (existing new : Span)
  | offsetOutOfBounds (offset length : Nat)
  | inverted (start stop : Nat)
  | insideCharacter (offset : Nat)
deriving DecidableEq

def EditError.message : EditError → String
  | .overlap existing new => s!"edit {new.text} overlaps edit {existing.text}"
  | .offsetOutOfBounds offset length =>
    s!"byte offset {offset} is out of bounds for source of length {length}"
  | .inverted start stop => s!"edit start {start} is greater than end {stop}"
  | .insideCharacter offset => s!"byte offset {offset} is not on a UTF-8 character boundary"

namespace Edit

/-- Puts a text in front of the byte at an offset. -/
def insert (offset : Nat) (text : String) : Edit := ⟨Span.empty offset, text⟩

def remove (span : Span) : Edit := ⟨span, ""⟩

/-- The edit deletes nothing. -/
def isInsertion (e : Edit) : Bool := e.span.isEmpty

/-- The offset lies inside the span and at neither of its ends. -/
def strictlyInside (offset : Nat) (s : Span) : Bool :=
  decide (s.start < offset) && decide (offset < s.stop)

/-- The edits cannot be made together.  An insertion is in conflict only with another insertion at
its offset and with an edit whose span lies strictly around it. -/
def conflicts (e f : Edit) : Bool :=
  match e.isInsertion, f.isInsertion with
  | true, true => e.span.start == f.span.start
  | true, false => strictlyInside e.span.start f.span
  | false, true => strictlyInside f.span.start e.span
  | false, false => e.span.overlaps f.span

theorem conflicts_comm (e f : Edit) : e.conflicts f = f.conflicts e := by
  unfold conflicts
  cases e.isInsertion <;> cases f.isInsertion <;> simp [Span.overlaps_comm e.span, Bool.beq_comm]

/-- What is wrong with the edit for the given text: the first end out of bounds, ends in the wrong
order, or the first end inside a character. -/
def fault? (e : Edit) (source : List Char) : Option EditError :=
  let length := Text.byteLength source
  if length < e.span.start then some (.offsetOutOfBounds e.span.start length)
  else if length < e.span.stop then some (.offsetOutOfBounds e.span.stop length)
  else if e.span.stop < e.span.start then some (.inverted e.span.start e.span.stop)
  else if !Text.isBoundary source e.span.start then some (.insideCharacter e.span.start)
  else if !Text.isBoundary source e.span.stop then some (.insideCharacter e.span.stop)
  else none

end Edit

end RubyLint
