import RubyLint.Literal.StringBody
import RubyLint.Number.Digits
import RubyLint.Ruby.Concrete
import RubyLint.Syntax.Tree
import RubyLint.Text.Bytes

/-!
# Laying out concrete trees

How the nodes of the grammar become the terms that node patterns are written for.  A `Layout` knows
the text and how the parts of a node are laid out; each construct has a function from its node to a
term.  The functions run in `Arrange`, which carries the scopes of local variables in the order of
reading.

A scope holds the names that are bound in one method, class, module or block; a block also sees the
names of the scopes around it, up to the nearest method, class or module.
-/

namespace RubyLint.Ruby

/-! ## local variables -/

/-- The names bound in one construct. -/
structure Scope where
  names : List String
  /-- the names of the scopes around are not seen -/
  isClosed : Bool
deriving DecidableEq

namespace Scope

def fresh (isClosed : Bool) : Scope := ⟨[], isClosed⟩

end Scope

/-- Binds a name in the innermost scope. -/
def bindName (name : String) : List Scope → List Scope
  | [] => []
  | s :: outer => { s with names := name :: s.names } :: outer

/-- The name is a local variable, with the innermost scope first. -/
def isLocal (name : String) : List Scope → Bool
  | [] => false
  | s :: outer => s.names.contains name || (!s.isClosed && isLocal name outer)

/-! ## computations on scopes -/

/-- Why a concrete tree has no layout. -/
inductive LayoutError where
  | tooDeep (offset : Nat)
  | noTarget (offset : Nat)
deriving DecidableEq

namespace LayoutError

def message : LayoutError → String
  | .tooDeep _ => "nesting too deep"
  | .noTarget _ => "assignment without target"

/-- Where the node starts that has no layout. -/
def offset : LayoutError → Nat
  | .tooDeep offset => offset
  | .noTarget offset => offset

end LayoutError

/-- A computation on the scopes, which stand with the innermost first. -/
abbrev Arrange := StateT (List Scope) (Except LayoutError)

/-- Binds a name in the innermost scope. -/
def declare (name : String) : Arrange Unit := modify (bindName name)

/-- Runs a computation in a scope of its own. -/
def inScope (isClosed : Bool) (p : Arrange α) : Arrange α := do
  modify (Scope.fresh isClosed :: ·)
  let a ← p
  modify List.tail
  return a

/-- The text, and how the parts of a node are laid out. -/
structure Layout where
  source : List Char
  below : Concrete → Arrange Term

/-! ## terms -/

/-- A node without located parts. -/
def plainTerm (kind : Kind) (span : Span) (children : List Term) : Term :=
  .node kind span Loc.none children

def symTerm (name : List Char) : Term := .value (.sym (String.ofList name))
def strTerm (text : List Char) : Term := .value (.str (String.ofList text))

/-- The mark of an absent part. -/
def nilTerm : Term := .value .nil

/-- A part, or the mark that it is absent. -/
def orNil (t : Option Term) : Term := t.getD nilTerm

/-- Statements: none, one, or a sequence. -/
def sequenceTerm : List Term → Option Term
  | [] => none
  | [t] => some t
  | t :: ts =>
    let span := match t.span?, (ts.getLast?.bind Term.span?) with
      | some a, some b => a.join b
      | some a, none => a
      | none, b => b.getD ⟨0, 0⟩
    some (plainTerm .sequence span (t :: ts))

/-- The first bytes of a span, at most all of them. -/
def opening (span : Span) (n : Nat) : Span := ⟨span.start, min (span.start + n) span.stop⟩

/-- The last bytes of a span. -/
def closing (span : Span) (n : Nat) : Span := ⟨span.stop - n, span.stop⟩

/-- Only brackets of one byte are located. -/
def bracketLoc (span : Span) : Loc :=
  { Loc.none with opening := some ⟨span.start, span.start + 1⟩, closing := some (closing span 1) }

namespace Layout

variable (l : Layout)

def textAt (span : Span) : List Char := (Text.slice l.source span.start span.stop).getD []

def text (c : Concrete) : List Char := l.textAt c.span

def partText (c : Concrete) (role : Role) : List Char := ((c.part? role).map l.text).getD []

def all (cs : List Concrete) : Arrange (List Term) := cs.mapM l.below

def part (c : Concrete) (role : Role) : Arrange (Option Term) :=
  match c.part? role with
  | some d => some <$> l.below d
  | none => return none

def statements (cs : List Concrete) : Arrange (Option Term) := sequenceTerm <$> l.all cs

/-- The statements that a node holds, if it is there. -/
def statementsOf (c : Option Concrete) : Arrange (Option Term) :=
  l.statements (c.elim [] Concrete.named)

/-- A node of the kind with all parts of the concrete node. -/
def wrap (kind : Kind) (c : Concrete) : Arrange Term := plainTerm kind c.span <$> l.all c.named

end Layout

end RubyLint.Ruby
