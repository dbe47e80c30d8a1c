import RubyLint.Number.Digits
import RubyLint.Text.Split

/-!
# Bodies of string literals

What stands between the quotes of a string literal and the text that it denotes.  `readEscapes`
reads the body of a literal in double quotes, `readSingleQuoted` that of one in single quotes;
`singleOrDouble` and `doubleQuoted` write a literal for a text.
-/

namespace RubyLint.Literal

/-! ## reading -/

/-- Stands for a code that is no character. -/
def replacementChar : Char := '\uFFFD'

def charOfCode (code : Option Nat) : Char :=
  match code with
  | some n => if n.isValidChar then Char.ofNat n else replacementChar
  | none => replacementChar

/-- Reads a code in the given base, with an optional plus. -/
def readCode (base : Nat) (cs : List Char) : Option Nat :=
  let digits := match cs with
    | '+' :: rest => rest
    | _ => cs
  match Number.readDigits base digits with
  | some n => if n ≤ 0xffffffff then some n else none
  | none => none

def isDigit (c : Char) : Bool := '0' ≤ c && c ≤ '9'

def isHexDigit (c : Char) : Bool := (Number.digitIn 16 c).isSome

/-- The digits at the front, at most the given number of them. -/
def hexRun (limit : Nat) (cs : List Char) : List Char := (cs.take limit).takeWhile isHexDigit

/-- The letters that stand for one character behind a backslash. -/
def simpleEscape? : Char → Option Char
  | 'a' => some '\x07'
  | 'b' => some '\x08'
  | 'e' => some '\x1b'
  | 'f' => some '\x0c'
  | 'n' => some '\n'
  | 'r' => some '\r'
  | 's' => some ' '
  | 't' => some '\t'
  | 'v' => some '\x0b'
  | _ => none

/-- Reads an escape from the character behind its backslash: the text it denotes, and how many
more characters belong to it. -/
def readEscape (e : Char) (cs : List Char) : List Char × Nat :=
  match simpleEscape? e with
  | some c => ([c], 0)
  | none =>
    if e = '\n' then ([], 0)
    else if isDigit e then
      let digits := e :: (cs.take 2).takeWhile isDigit
      ([charOfCode (readCode 8 digits)], digits.length - 1)
    else if e = 'x' then
      match hexRun 2 cs with
      | [] => (['x'], 0)
      | digits => ([charOfCode (readCode 16 digits)], digits.length)
    else if e = 'u' then
      match cs with
      | '{' :: body =>
        let codes := body.takeWhile (· != '}')
        ((Text.words codes).map fun code => charOfCode (readCode 16 code), codes.length + 2)
      | _ =>
        let digits := hexRun 4 cs
        if digits.length = 4 then ([charOfCode (readCode 16 digits)], 4)
        else ('u' :: digits, digits.length)
    else ([e], 0)

/-- The text that the body of a literal in double quotes denotes, interpolations apart. -/
def readEscapes (cs : List Char) : List Char :=
  match cs with
  | [] => []
  | ['\\'] => ['\\']
  | '\\' :: e :: rest =>
    let (out, n) := readEscape e rest
    out ++ readEscapes (rest.drop n)
  | c :: rest => c :: readEscapes rest
termination_by cs.length

/-- The text that the body of a literal in single quotes denotes. -/
def readSingleQuoted : List Char → List Char
  | '\\' :: '\\' :: cs => '\\' :: readSingleQuoted cs
  | '\\' :: '\x27' :: cs => '\x27' :: readSingleQuoted cs
  | c :: cs => c :: readSingleQuoted cs
  | [] => []

/-! ## writing -/

/-- The character is a control character. -/
def isControl (c : Char) : Bool := c.toNat < 0x20 || (0x7F ≤ c.toNat && c.toNat ≤ 0x9F)

/-- The character behind a number sign makes it an interpolation. -/
def opensInterpolation (c : Char) : Bool := c == '{' || c == '$' || c == '@'

/-- Somewhere in the text an interpolation would open. -/
def hasInterpolation : List Char → Bool
  | '#' :: c :: cs => opensInterpolation c || hasInterpolation (c :: cs)
  | _ :: cs => hasInterpolation cs
  | [] => false

/-- The upper-case hexadecimal form of a number in at least four digits. -/
def upperHex4 (n : Nat) : List Char :=
  let digits := (Nat.toDigits 16 n).map Char.toUpper
  List.replicate (4 - digits.length) '0' ++ digits

/-- The letter that stands for a character behind a backslash. -/
def escapeLetter? : Char → Option Char
  | '\x22' => some '\x22'
  | '\\' => some '\\'
  | '\n' => some 'n'
  | '\t' => some 't'
  | '\r' => some 'r'
  | '\x0c' => some 'f'
  | '\x0b' => some 'v'
  | '\x08' => some 'b'
  | '\x07' => some 'a'
  | '\x1b' => some 'e'
  | _ => none

/-- How a character is written in double quotes in front of the rest of the text. -/
def escaped (c : Char) (rest : List Char) : List Char :=
  match escapeLetter? c with
  | some e => ['\\', e]
  | none =>
    if c = '#' then (if rest.head?.any opensInterpolation then ['\\', '#'] else ['#'])
    else if c = '\x7f' then ['\\', 'x', '7', 'F']
    else if isControl c then '\\' :: 'u' :: upperHex4 c.toNat
    else [c]

/-- The body of a literal in double quotes. -/
def escapedBody : List Char → List Char
  | [] => []
  | c :: cs => escaped c cs ++ escapedBody cs

/-- A literal in double quotes for the text. -/
def doubleQuoted (cs : List Char) : List Char := '\x22' :: escapedBody cs ++ ['\x22']

/-- The body of a literal in single quotes. -/
def singleQuotedBody (cs : List Char) : List Char :=
  cs.flatMap fun c => if c = '\\' then ['\\', '\\'] else [c]

/-- A literal in single quotes cannot or should not denote the text. -/
def needsDoubleQuotes (cs : List Char) : Bool :=
  cs.contains '\x27' || cs.any isControl || hasInterpolation cs

/-- A literal for the text, in single quotes where they do. -/
def singleOrDouble (cs : List Char) : List Char :=
  if needsDoubleQuotes cs then doubleQuoted cs else '\x27' :: singleQuotedBody cs ++ ['\x27']

end RubyLint.Literal
