/-!
# Bodies of regular expressions

A body is read as units: bare characters and characters behind a backslash.  A body all of whose
units match only themselves is a plain text in disguise, also behind an anchor at one end.
-/

namespace RubyLint.Literal

/-- A unit of a regular expression. -/
inductive RegexpUnit where
  | plain (c : Char)
  | escape (c : Char)
  /-- a backslash at the end -/
  | dangling
deriving DecidableEq

namespace RegexpUnit

/-- The punctuation that has no meaning of its own. -/
def plainPunctuation : List Char := "-,\x22\x27!#%&<>=;:\x60~/ \t\r\n\x0c\x0b".toList

/-- The characters that have a meaning of their own behind a backslash. -/
def specialEscapes : List Char := "AbBcCdDgGhHkMpPRwWXsSzZ".toList

/-- The unit matches only itself. -/
def isLiteral : RegexpUnit → Bool
  | .plain c => c.isAlphanum || c == '_' || plainPunctuation.contains c
  | .escape c => !(c.isDigit || specialEscapes.contains c)
  | .dangling => false

end RegexpUnit

def regexpUnits : List Char → List RegexpUnit
  | [] => []
  | ['\\'] => [.dangling]
  | '\\' :: c :: cs => .escape c :: regexpUnits cs
  | c :: cs => .plain c :: regexpUnits cs

/-- There are units, and each matches only itself. -/
def allLiteral (us : List RegexpUnit) : Bool := !us.isEmpty && us.all RegexpUnit.isLiteral

/-- The body matches one text only. -/
def isLiteralRegexp (body : List Char) : Bool := allLiteral (regexpUnits body)

/-- The body matches one text only, at the start of the subject or of a line. -/
def isLiteralAtStart (body : List Char) : Bool :=
  match regexpUnits body with
  | .escape 'A' :: rest => allLiteral rest
  | .plain '^' :: rest => allLiteral rest
  | _ => false

/-- The body matches one text only, at the end of the subject or of a line. -/
def isLiteralAtEnd (body : List Char) : Bool :=
  let units := regexpUnits body
  match units.getLast? with
  | some (.escape 'z') => allLiteral units.dropLast
  | some (.plain '$') => allLiteral units.dropLast
  | _ => false

/-- The body without an anchor in front. -/
def dropStartAnchor : List Char → List Char
  | '\\' :: 'A' :: cs => cs
  | '^' :: cs => cs
  | cs => cs

/-- The body without an anchor at its end. -/
def dropEndAnchor (body : List Char) : List Char :=
  match body.reverse with
  | 'z' :: '\\' :: cs => cs.reverse
  | '$' :: cs => cs.reverse
  | _ => body

end RubyLint.Literal
