import RubyLint.Ruby.Layout.Basic

/-!
# Layout of literals

Numbers, strings, symbols, regular expressions, arrays and pairs.  Strings and symbols get the text
that they denote, regular expressions keep theirs as it is written.
-/

namespace RubyLint.Ruby

/-! ## delimiters -/

/-- How a string is delimited: the lengths of its delimiters, and whether escapes have a meaning. -/
structure StringDelimiters where
  openLength : Nat
  closeLength : Nat
  isDouble : Bool
deriving DecidableEq

/-- The delimiters of a string literal. -/
def stringDelimiters? (text : List Char) : Option StringDelimiters :=
  let found : Option StringDelimiters := match text with
    | '\x22' :: _ => some ⟨1, 1, true⟩
    | '\x27' :: _ => some ⟨1, 1, false⟩
    | '%' :: 'q' :: _ => some ⟨3, 1, false⟩
    | '%' :: 'Q' :: _ => some ⟨3, 1, true⟩
    | '%' :: c :: _ => if c.isAlphanum then none else some ⟨2, 1, true⟩
    | _ => none
  found.filter fun d => d.openLength + d.closeLength ≤ Text.byteLength text

/-- The text without some characters at its ends. -/
def inner (openLength closeLength : Nat) (text : List Char) : List Char :=
  (text.drop openLength).take (text.length - openLength - closeLength)

/-- The length of the text in front of the last occurrence of a character. -/
def lastOffset? (c : Char) (text : List Char) : Option Nat :=
  match text.reverse.dropWhile (· != c) with
  | [] => none
  | _ :: before => some (Text.byteLength before)

/-- The character that closes a delimited literal. -/
def closingDelimiter : Char → Char
  | '(' => ')'
  | '[' => ']'
  | '{' => '}'
  | '<' => '>'
  | c => c

/-- Where the content of a regular expression starts and ends, in bytes of its text. -/
def regexpContent? (text : List Char) : Option (Nat × Nat) := do
  let (start, closer) ← match text with
    | '/' :: _ => some (1, '/')
    | '%' :: 'r' :: c :: _ => some (2 + c.utf8Size, closingDelimiter c)
    | _ => none
  let stop ← lastOffset? closer text
  if start ≤ stop then some (start, stop) else none

/-- The text that a string literal without interpolations denotes. -/
def stringValue (text : List Char) : List Char :=
  match stringDelimiters? text with
  | some d =>
    let body := inner d.openLength d.closeLength text
    if d.isDouble then Literal.readEscapes body else Literal.readSingleQuoted body
  | none => Literal.readEscapes text

namespace Layout

variable (l : Layout)

/-! ## numbers -/

/-- The number of a decimal literal. -/
def readFloat (text : List Char) : Option Number.Double :=
  Number.Double.ofDecimal (text.filter (· != '_'))

def integer (c : Concrete) : Term :=
  let text := l.text c
  plainTerm .int c.span
    [match Literal.readInteger text with
      | some n => .value (.int n)
      | none => strTerm text]

def float (c : Concrete) : Term :=
  let text := l.text c
  plainTerm .float c.span
    [match readFloat text with
      | some x => .value (.float x)
      | none => strTerm text]

/-! ## text with interpolations -/

/-- A part of a literal, as the text it denotes. -/
def literalPart (span : Span) (unescape : Bool) : Term :=
  let raw := l.textAt span
  plainTerm .str span [strTerm (if unescape then Literal.readEscapes raw else raw)]

/-- Neighbouring parts without interpolation as one part each, between the interpolations. -/
inductive Segment where
  | literal (span : Span)
  | interpolation (c : Concrete)

/-- Joins neighbouring parts of text. -/
def segments : List Concrete → List Segment
  | [] => []
  | c :: cs =>
    if c.construct = .interpolation then .interpolation c :: segments cs
    else
      match segments cs with
      | .literal span :: rest => .literal (c.span.join span) :: rest
      | rest => .literal c.span :: rest

def segment (unescape : Bool) : Segment → Arrange Term
  | .literal span => return l.literalPart span unescape
  | .interpolation c => l.below c

def interpolated (parts : List Concrete) (unescape : Bool) : Arrange (List Term) :=
  (segments parts).mapM (l.segment unescape)

def hasInterpolation (c : Concrete) : Bool := c.named.any fun d => d.construct == .interpolation

/-! ## strings, symbols, regular expressions -/

def string (c : Concrete) : Arrange Term := do
  let text := l.text c
  let delimiters := stringDelimiters? text
  let loc : Loc := match delimiters with
    | some d => { Loc.none with
        opening := some ⟨c.span.start, c.span.start + d.openLength⟩
        closing := some (closing c.span d.closeLength) }
    | none => Loc.none
  if hasInterpolation c then
    let isDouble := delimiters.all StringDelimiters.isDouble
    return .node .interpolatedStr c.span loc (← l.interpolated c.named isDouble)
  else return .node .str c.span loc [strTerm (stringValue text)]

def character (c : Concrete) : Term :=
  let text := l.text c
  let raw := if text.head? = some '?' then text.drop 1 else text
  plainTerm .str c.span [strTerm (Literal.readEscapes raw)]

def delimitedSymbol (c : Concrete) : Arrange Term := do
  let text := l.text c
  if hasInterpolation c then
    return plainTerm .interpolatedSym c.span (← l.interpolated c.named true)
  else
    let (openLength, isDouble) := match text with
      | '%' :: 's' :: _ => (3, false)
      | ':' :: '\x27' :: _ => (2, false)
      | _ => (2, true)
    let body := inner openLength 1 text
    let name := if isDouble then Literal.readEscapes body else Literal.readSingleQuoted body
    return plainTerm .sym c.span [symTerm name]

def simpleSymbol (c : Concrete) : Term :=
  let text := l.text c
  plainTerm .sym c.span [symTerm (if text.head? = some ':' then text.drop 1 else text)]

def regexp (c : Concrete) : Arrange Term := do
  let span := c.span
  let text := l.text c
  let (start, stop) := (regexpContent? text).getD (0, Text.byteLength text)
  let content : Span := ⟨span.start + start, span.start + stop⟩
  let flagsStart := min (span.start + stop + 1) span.stop
  let parts ← if hasInterpolation c then l.interpolated c.named false
    else if content.isEmpty then pure []
    else pure [l.literalPart content false]
  let flags := l.textAt ⟨flagsStart, span.stop⟩
  let options := plainTerm .regexpOptions ⟨flagsStart, span.stop⟩ (flags.map fun f => symTerm [f])
  let loc := { Loc.none with
    opening := some ⟨span.start, content.start⟩
    closing := some ⟨content.stop, flagsStart⟩ }
  return .node .regexp span loc (parts ++ [options])

/-! ## collections -/

def array (c : Concrete) : Arrange Term := do
  let items ← l.all c.named
  let openLength := if (l.text c).head? = some '%' then 3 else 1
  let loc := { Loc.none with
    opening := some (opening c.span openLength)
    closing := some (closing c.span 1) }
  return .node .array c.span loc items

def hash (c : Concrete) : Arrange Term := do
  return .node .hash c.span (bracketLoc c.span) (← l.all c.named)

/-- The length of the text in front of the first occurrence of another text. -/
def firstOffset? (part : List Char) : List Char → Option Nat
  | [] => none
  | c :: cs =>
    if part.isPrefixOf (c :: cs) then some 0
    else (firstOffset? part cs).map (c.utf8Size + ·)

/-- The arrow or the colon between a key and a value. -/
def pairOperator? (key value : Concrete) : Option Span :=
  let start := key.span.stop
  let between := l.textAt ⟨start, value.span.start⟩
  match firstOffset? ['=', '>'] between, firstOffset? [':'] between with
  | some n, _ => some ⟨start + n, start + n + 2⟩
  | none, some n => some ⟨start + n, start + n + 1⟩
  | none, none => none

def pair (c : Concrete) : Arrange Term := do
  let key ← l.part c .key
  let value ← l.part c .value
  let operator := match c.part? .key, c.part? .value with
    | some k, some v => l.pairOperator? k v
    | _, _ => none
  return .node .pair c.span { Loc.none with operator } [orNil key, orNil value]

end Layout

end RubyLint.Ruby
