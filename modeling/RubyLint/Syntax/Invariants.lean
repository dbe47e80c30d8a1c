import RubyLint.Syntax.Node

/-!
# Well-placed spans

A tree is well placed when every node lies inside its parent, knows that parent, and shares no
byte with a sibling.  `SyntaxTree.violation?` finds the first violation in the order of the table;
siblings are compared in the order of their offsets, since a modifier form keeps its condition in
front of the body.
-/

namespace RubyLint

inductive Violation where
  | outside (child : Kind) (childSpan : Span) (parent : Kind) (parentSpan : Span)
  | stale (child : Kind) (childSpan : Span)
  | overlap (child : Kind) (childSpan : Span)
deriving DecidableEq

namespace Violation

def message : Violation → String
  | .outside child childSpan parent parentSpan =>
    s!"{child.name} at {childSpan.text} is not inside parent {parent.name} at {parentSpan.text}"
  | .stale child childSpan => s!"{child.name} at {childSpan.text} has a stale parent link"
  | .overlap child childSpan =>
    s!"{child.name} at {childSpan.text} overlaps its previous sibling"

end Violation

namespace Node

variable {t : SyntaxTree}

/-- What is wrong between the node and one of its children. -/
def placeViolation? (n m : Node t) : Option Violation :=
  if !n.span.contains m.span then some (.outside m.kind m.span n.kind n.span)
  else if m.parent? ≠ some n then some (.stale m.kind m.span)
  else none

/-- The first pair of neighbours of which the second starts before the first ends. -/
def overlapIn? : List (Node t) → Option Violation
  | m :: k :: rest =>
    if k.span.start < m.span.stop then some (.overlap k.kind k.span) else overlapIn? (k :: rest)
  | _ => none

/-- The node children in the order of their spans. -/
def childNodesByOffset (n : Node t) : List (Node t) :=
  n.childNodes.mergeSort fun m k => m.span.notAfter k.span

def violation? (n : Node t) : Option Violation :=
  match n.childNodes.findSome? n.placeViolation? with
  | some v => some v
  | none => overlapIn? n.childNodesByOffset

end Node

/-- The first violation in the order of the table. -/
def SyntaxTree.violation? (t : SyntaxTree) : Option Violation :=
  t.allNodes.findSome? Node.violation?

end RubyLint
