import RubyLint.Edit.Basic
import RubyLint.Syntax.Node

/-!
# Corrections

A `Correction` lists the edits that mend one offense, in the order in which they were asked for.
Conflicts among them only matter when they are collected into a set.
-/

namespace RubyLint

/-- The edits that mend an offense. -/
structure Correction where
  edits : List Edit
deriving DecidableEq, Inhabited

namespace Correction

def empty : Correction := ⟨[]⟩

def isEmpty (c : Correction) : Bool := c.edits.isEmpty

def replace (c : Correction) (span : Span) (text : String) : Correction :=
  ⟨c.edits ++ [⟨span, text⟩]⟩

def remove (c : Correction) (span : Span) : Correction := c.replace span ""

def insertBefore (c : Correction) (span : Span) (text : String) : Correction :=
  c.replace (Span.empty span.start) text

def insertAfter (c : Correction) (span : Span) (text : String) : Correction :=
  c.replace (Span.empty span.stop) text

/-- Exchanges the texts of two nodes; nothing comes of it when one of them has no text. -/
def swap {t : SyntaxTree} (c : Correction) (n m : Node t) : Option Correction := do
  let second ← m.source?
  let first ← n.source?
  return (c.replace n.span second).replace m.span first

end Correction

end RubyLint
