import RubyLint.Ruby.Concrete

/-!
# Terminals

The kinds of tokens that the grammar of Ruby is written over, and sets of them.

* `word`, `sign`, `tight`: tokens that are spelled out.  A word is read where a name could stand; a
  tight sign stands right behind what is before it.
* `shape`: tokens that are known by their characters alone (`Shape`).
* `scanned`: tokens that are told apart by what is around them and by what has been opened before
  (`Scanned`).
* `barred`: no token; it says which words cannot be names at a place (`Barred`).
* `finish`, `bodyFinish`: the end of the text, and of the body of a here-document.
-/

namespace RubyLint.Ruby

/-- The tokens that are known by their characters alone. -/
inductive Shape where
  | dataMark
  | integer
  | float
  | constant
  | constantSuffix
  | identifier
  | identifierSuffix
  | instanceVariable
  | classVariable
  | globalVariable
  | character
  | escape
  | blankRun
  | uninterpreted
  | comment
deriving DecidableEq

/-- The tokens that hang on what is around them. -/
inductive Scanned where
  | lineBreak
  | noLineBreak
  | simpleSymbol
  | stringStart
  | symbolStart
  | subshellStart
  | regexStart
  | stringArrayStart
  | symbolArrayStart
  | stringContent
  | stringEnd
  | heredocBeginning
  | heredocBodyStart
  | heredocContent
  | heredocEnd
  | shortInterpolation
  | blockAmpersand
  | splatStar
  | hashSplatStars
  | binaryStar
  | binaryStars
  | unaryMinus
  | numberMinus
  | binaryMinus
  | singletonAngles
  | elementBracket
  | hashKeySymbol
  | markedIdentifier
  | markedConstant
deriving DecidableEq

/-- Groups of words that cannot be names behind a finished statement.  `closing` are the words that
go on with a construct around it or end it; `otherClause` are those that go on behind `else`. -/
inductive Barred where
  | closing
  | otherClause
deriving DecidableEq

inductive Terminal where
  | finish
  | bodyFinish
  | barred (group : Barred)
  | shape (shape : Shape)
  | scanned (token : Scanned)
  | tight (text : String)
  | word (text : String)
  | sign (text : String)
deriving DecidableEq

/-- The words of a group.  What ends a condition, `then`, is barred where a line might end. -/
def Barred.words (atBreak : Bool) : Barred → List String
  | .closing =>
    (if atBreak then ["then"] else []) ++ ["end", "else", "elsif", "ensure", "rescue", "when", "in"]
  | .otherClause => ["else", "ensure", "rescue"]

namespace Terminal

def words : List String :=
  ["end", "do", "def", "if", "self", "nil", "true", "false", "class", "module", "return", "yield",
    "break", "next", "redo", "retry", "unless", "while", "until", "for", "in", "case", "when",
    "elsif", "else", "then", "begin", "rescue", "ensure", "or", "and", "not", "undef", "alias",
    "super", "__LINE__", "__FILE__", "__ENCODING__", "i", "ri", "r"]

/-- The signs of the grammar, and the words that do not look like names. -/
def signs : List String :=
  ["\x7b", "\x7d", "(", ")", "[", "]", ".", "&.", "::", ":", ",", ";", "=", "=>", "->", "?", "|",
    "..", "...", "+=", "-=", "*=", "**=", "/=", "||=", "|=", "&&=", "&=", "%=", ">>=", "<<=", "^=",
    "&&", "||", "<<", ">>", "<", "<=", ">", ">=", "&", "^", "+", "-", "*", "/", "%", "**", "==",
    "!=", "===", "<=>", "=~", "!~", "!", "~", "+@", "-@", "~@", "[]", "[]=", "\x60", "#\x7b",
    "defined?", "BEGIN", "END", "__END__"]

def tightSigns : List String := [":", "::", "[", "(", "="]

/-- The number of a terminal; that of a spelled token is its place among those of its kind. -/
def code : Terminal → Nat
  | .finish => 0
  | .bodyFinish => 1
  | .barred group => 2 + group.ctorIdx
  | .shape s => 4 + s.ctorIdx
  | .scanned s => 19 + s.ctorIdx
  | .tight text => 48 + tightSigns.idxOf text
  | .word text => 53 + words.idxOf text
  | .sign text => 94 + signs.idxOf text

/-- What a token is in a concrete tree; none for those that leave no node. -/
def construct? : Terminal → Option Construct
  | .shape .integer => some .integer
  | .shape .float => some .float
  | .shape .constant => some .constant
  | .shape .identifier => some .identifier
  | .shape .instanceVariable => some .instanceVariable
  | .shape .classVariable => some .classVariable
  | .shape .globalVariable => some .globalVariable
  | .shape .character => some .character
  | .shape .escape => some (.other "escape_sequence")
  | .scanned .simpleSymbol => some .simpleSymbol
  | .scanned .hashKeySymbol => some .hashKeySymbol
  | .scanned .stringContent => some (.other "string_content")
  | .scanned .heredocBeginning => some (.other "heredoc_beginning")
  | .scanned .heredocContent => some (.other "heredoc_content")
  | .scanned .heredocEnd => some (.other "heredoc_end")
  | .word "self" => some .selfWord
  | .word "super" => some .superWord
  | .word "true" => some .trueWord
  | .word "false" => some .falseWord
  | .word "__LINE__" => some (.other "line")
  | .word "__FILE__" => some (.other "file")
  | .word "__ENCODING__" => some (.other "encoding")
  | .word _ | .sign _ | .tight _ => some .token
  | .shape _ | .scanned _ | .barred _ | .finish | .bodyFinish => none

end Terminal

/-! ## sets -/

/-- A set of terminals, one bit for each. -/
structure TerminalSet where
  bits : Nat
deriving DecidableEq

namespace TerminalSet

def empty : TerminalSet := ⟨0⟩

/-- The set of the terminal with a number. -/
def single (code : Nat) : TerminalSet := ⟨1 <<< code⟩

def union (a b : TerminalSet) : TerminalSet := ⟨a.bits ||| b.bits⟩

def inter (a b : TerminalSet) : TerminalSet := ⟨a.bits &&& b.bits⟩

def isEmpty (a : TerminalSet) : Bool := a.bits == 0

def ofList (ts : List Terminal) : TerminalSet :=
  ts.foldl (fun a t => a.union (single t.code)) empty

/-- The terminal with the number is in the set. -/
def hasCode (a : TerminalSet) (code : Nat) : Bool := a.bits.testBit code

def has (a : TerminalSet) (t : Terminal) : Bool := a.hasCode t.code

/-- One of the scanned tokens is in the set. -/
def hasScanned (a : TerminalSet) (s : Scanned) : Bool := a.has (.scanned s)

end TerminalSet

end RubyLint.Ruby
