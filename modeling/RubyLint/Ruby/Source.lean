import RubyLint.Ruby.Automaton.Repair
import RubyLint.Ruby.Layout.Construct

/-!
# Ruby texts

From a text to its syntax tree: a parser of the grammar makes a concrete tree of the text, and the layout
makes a syntax tree of that.  The parser is a parameter; the grammar of this library gives one.

* `ConcreteParser`   a parser of the grammar;
* `treeOf`           the syntax tree of a text, by a parser;
* `parseTree`        the same by the grammar of this library.
-/

namespace RubyLint.Ruby

/-! ## parsers -/

/-- A node of a concrete tree that stands for a fault of the text.  Rows and columns count from zero,
columns in bytes.  A parser that gives up at a fault does not know which node stands for it. -/
inductive Flaw where
  | unexpected (row column : Nat)
  | missing (row column : Nat) (name : String)
  | unplaced
deriving DecidableEq

def Flaw.error : Flaw → ParseError
  | .unexpected row column => .located (row + 1) (column + 1) "unexpected input"
  | .missing row column name => .located (row + 1) (column + 1) s!"missing `{name}`"
  | .unplaced => .malformed

/-- What a parser makes of a text: the root of the concrete tree, and the nodes in it that stand for
faults, each in front of those below it. -/
structure Parsed where
  root : Concrete
  flaws : List Flaw

/-- Why a parser makes nothing of a text. -/
inductive ParserFault where
  | notLoaded (reason : String)
  | noTree
deriving DecidableEq

def ParserFault.message : ParserFault → String
  | .notLoaded reason => s!"failed to load Ruby grammar: {reason}"
  | .noTree => "parser returned no tree"

abbrev ConcreteParser := String → Except ParserFault Parsed

/-! ## trees -/

/-- The error of a layout that fails at an offset, whose column counts bytes. -/
def locatedError (source : List Char) (e : LayoutError) : ParseError :=
  let before := ((Text.splitAtByte source e.offset).map Prod.fst).getD source
  let line := (before.filter (· == '\n')).length + 1
  let column := Text.byteLength (before.reverse.takeWhile (· != '\n')) + 1
  .located line column e.message

/-- The tree of a text by a parser of the grammar, which is refused for the first fault in it. -/
def treeOf (parse : ConcreteParser) (text : String) : Except ParseError SyntaxTree :=
  match parse text with
  | .error fault => .error (.located 0 0 fault.message)
  | .ok parsed =>
    match parsed.flaws with
    | flaw :: _ => .error flaw.error
    | [] =>
      match rootTerm text.toList parsed.root.named with
      | .error e => .error (locatedError text.toList e)
      | .ok t => .ok (treeOfTerm text t)

/-- The parser that the grammar of this library gives. -/
def grammarParser : ConcreteParser := fun text =>
  let program := Concrete.node .plain (.other "program") ⟨0, Text.byteLength text.toList⟩
  match Concrete.ofText? text with
  | none => .ok ⟨program [], [.unplaced]⟩
  | some statements => .ok ⟨program statements, []⟩

def parseTree : String → Except ParseError SyntaxTree := treeOf grammarParser

end RubyLint.Ruby
