import RubyLint.Number.Double
import RubyLint.Pattern.Fault
import RubyLint.Text.Split
import RubyLint.Text.Bytes
import RubyLint.Text.Printable

/-!
# Tokens of patterns

`Token.scan` cuts the text of a pattern into tokens.  Each token keeps its place in bytes; blanks
stand between tokens and are dropped.
-/

namespace RubyLint.Pattern

inductive Token where
  | openParen
  | closeParen
  | openBrace
  | closeBrace
  | openBracket
  | closeBracket
  | bang
  | dollar
  | caret
  | backquote
  | ellipsis
  | question
  | star
  | plus
  | sym (name : String)
  | str (text : String)
  | int (n : Int)
  | float (x : Number.Double)
  | nilWord
  | trueWord
  | falseWord
  /-- a word that starts in lower case, perhaps with a question mark -/
  | word (name : String)
  /-- a set, by its name alone or behind a percent sign -/
  | set (name : String) (hasPercent : Bool)
  | param (number : Nat)
  /-- a predicate of the environment -/
  | external (name : String)
deriving DecidableEq

structure Placed where
  token : Token
  start : Nat
  stop : Nat
deriving DecidableEq

namespace Token

/-- The token as messages show it. -/
def shown : Token → String
  | .openParen => "("
  | .closeParen => ")"
  | .openBrace => "\x7b"
  | .closeBrace => "\x7d"
  | .openBracket => "["
  | .closeBracket => "]"
  | .bang => "!"
  | .dollar => "$"
  | .caret => "^"
  | .backquote => "\x60"
  | .ellipsis => "..."
  | .question => "?"
  | .star => "*"
  | .plus => "+"
  | .sym name => ":" ++ name
  | .str text => String.ofList (Text.quoted text.toList)
  | .int n => toString n
  | .float x => String.ofList x.plainText
  | .nilWord => "nil"
  | .trueWord => "true"
  | .falseWord => "false"
  | .word name => name
  | .set name hasPercent => (if hasPercent then "%" else "") ++ name
  | .param number => "%" ++ toString number
  | .external name => "#" ++ name

/-! ## the shapes of tokens -/

def isWordChar (c : Char) : Bool := c.isAlphanum || c == '_'

def ofChar? : Char → Option Token
  | '(' => some .openParen
  | ')' => some .closeParen
  | '{' => some .openBrace
  | '}' => some .closeBrace
  | '[' => some .openBracket
  | ']' => some .closeBracket
  | '!' => some .bang
  | '$' => some .dollar
  | '^' => some .caret
  | '\x60' => some .backquote
  | '?' => some .question
  | '*' => some .star
  | '+' => some .plus
  | _ => none

/-- A word, with a question mark behind it unless the word starts with an underscore. -/
def takeWord (cs : List Char) : List Char :=
  let w := cs.takeWhile isWordChar
  if w.head? != some '_' && (cs.drop w.length).head? == some '?' then w ++ ['?'] else w

/-- The rest of a text in quotes: the text and the number of characters it takes, the closing quote
included. -/
def takeString : List Char → Option (List Char × Nat)
  | [] => none
  | '\x22' :: _ => some ([], 1)
  | ['\\'] => none
  | '\\' :: c :: cs =>
    let d := if c = 'n' then '\n' else if c = 't' then '\t' else c
    (takeString cs).map fun (text, n) => (d :: text, n + 2)
  | c :: cs => (takeString cs).map fun (text, n) => (c :: text, n + 1)

/-- The operators that may stand behind a colon, the longer ones first. -/
def operators : List String :=
  ["[]=", "<=>", "===", "[]", "==", "=~", "!=", "!~", "<<", ">>", "<=", ">=", "**", "+@", "-@",
    "!", "<", ">", "+", "-", "*", "/", "%", "&", "|", "^", "~"]

/-- The length of a mark behind the name of a symbol. -/
def symbolMark : List Char → Nat
  | '=' :: '>' :: _ => 0
  | '?' :: _ | '!' :: _ | '=' :: _ => 1
  | _ => 0

/-- The symbol behind a colon, and the number of its characters. -/
def takeSymbol (cs : List Char) : Option (String × Nat) :=
  match cs with
  | [] => none
  | c :: rest =>
    if c = '\x22' then (takeString rest).map fun (text, n) => (String.ofList text, n + 1)
    else if c.isAlpha || c == '_' then
      let w := (cs.takeWhile isWordChar).length
      let n := w + symbolMark (cs.drop w)
      some (String.ofList (cs.take n), n)
    else
      (operators.find? fun op => op.toList.isPrefixOf cs).map fun op => (op, op.length)

def isFigure (c : Char) : Bool := c.isDigit || c == '_'

/-- The length of a number, and whether it has a point. -/
def numberLength (cs : List Char) : Nat × Bool :=
  let sign := if cs.head? = some '-' then 1 else 0
  let whole := sign + ((cs.drop sign).takeWhile isFigure).length
  match cs.drop whole with
  | '.' :: d :: rest =>
    if d.isDigit then (whole + 1 + ((d :: rest).takeWhile isFigure).length, true)
    else (whole, false)
  | _ => (whole, false)

/-- The number at the front, and the number of its characters. -/
def takeNumber (cs : List Char) : Except PatternFault (Token × Nat) :=
  let (n, isFloat) := numberLength cs
  let text := cs.take n
  let digits := text.filter (· != '_')
  let read := if isFloat then (Number.Double.ofDecimal digits).map Token.float
    else (Number.readInt64 10 digits).map Token.int
  match read with
  | some t => .ok (t, n)
  | none => .error (.invalidLiteral (String.ofList text))

/-- The parameter or set behind a percent sign. -/
def takePercent (cs : List Char) : Except PatternFault (Token × Nat) :=
  let w := cs.takeWhile isWordChar
  if w.isEmpty then .error (.unexpectedChar '%')
  else match Number.readNat64 w with
    | some 0 => .error (.invalidLiteral (String.ofList ('%' :: w)))
    | some n => .ok (.param n, w.length + 1)
    | none => .ok (.set (String.ofList w) true, w.length + 1)

def ofWord (w : List Char) : Token :=
  match String.ofList w with
  | "nil" => .nilWord
  | "true" => .trueWord
  | "false" => .falseWord
  | name => .word name

def fromOption (fault : PatternFault) : Option (Token × Nat) → Except PatternFault (Token × Nat)
  | some t => .ok t
  | none => .error fault

/-- The token at the front of a text that starts with no blank, and the number of its
characters. -/
def first (c : Char) (cs : List Char) : Except PatternFault (Token × Nat) :=
  match ofChar? c with
  | some t => .ok (t, 1)
  | none =>
    if "...".toList.isPrefixOf (c :: cs) then .ok (.ellipsis, 3)
    else if c = ':' then
      fromOption (.unexpectedChar ':') ((takeSymbol cs).map fun (name, n) => (.sym name, n + 1))
    else if c = '\x22' then
      fromOption (.unbalanced '\x22')
        ((takeString cs).map fun (text, n) => (.str (String.ofList text), n + 1))
    else if c.isDigit || (c == '-' && cs.head?.any Char.isDigit) then takeNumber (c :: cs)
    else if c = '%' then takePercent cs
    else if c = '#' then
      match takeWord cs with
      | [] => .error (.unexpectedChar '#')
      | w => .ok (.external (String.ofList w), w.length + 1)
    else if c.isUpper then
      let w := (c :: cs).takeWhile isWordChar
      .ok (.set (String.ofList w) false, w.length)
    else if c.isLower || c == '_' then
      let w := takeWord (c :: cs)
      .ok (ofWord w, w.length)
    else .error (.unexpectedChar c)

/-! ## the whole text -/

/-- The tokens of a text that starts at the offset. -/
def scanFrom (offset : Nat) (cs : List Char) : Except PatternError (List Placed) :=
  match cs with
  | [] => .ok []
  | c :: rest =>
    if Text.isBlank c then scanFrom (offset + c.utf8Size) rest
    else
      match first c rest with
      | .error fault => .error ⟨fault, offset⟩
      | .ok (token, n) =>
        let stop := offset + Text.byteLength ((c :: rest).take n)
        match scanFrom stop (rest.drop (n - 1)) with
        | .error e => .error e
        | .ok more => .ok (⟨token, offset, stop⟩ :: more)
termination_by cs.length

def scan (text : List Char) : Except PatternError (List Placed) := scanFrom 0 text

end Token

end RubyLint.Pattern
