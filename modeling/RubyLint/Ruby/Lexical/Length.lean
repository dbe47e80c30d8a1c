import RubyLint.Ruby.Lexical.Character

/-!
# Lengths of tokens

How many characters of a text belong to the token at its front, for tokens that are known by their
characters alone.  A length of zero, or none, says that there is no such token.
-/

namespace RubyLint.Ruby

/-- The length of the longest start whose characters have the property. -/
def spanLength (p : Char → Bool) (cs : List Char) : Nat := (cs.takeWhile p).length

/-! ## names -/

/-- The length of a word whose first character has the property. -/
def nameLength (p : Char → Bool) : List Char → Nat
  | c :: cs => if p c then 1 + spanLength isWordChar cs else 0
  | [] => 0

def identifierLength (cs : List Char) : Nat :=
  nameLength (fun c => isWordChar c && !isUpper c && !isDigit c) cs

def constantLength (cs : List Char) : Nat := nameLength isUpper cs

/-- The length of a word and the question mark behind it. -/
def suffixedLength (word : Nat) (cs : List Char) : Nat :=
  match word, cs.drop word with
  | n + 1, '?' :: _ => n + 2
  | _, _ => 0

/-- The length of a sign and the word behind it, which starts with no digit. -/
def sigilledLength (sigil : List Char) (cs : List Char) : Nat :=
  if sigil.isPrefixOf cs then
    match nameLength (fun c => isWordChar c && !isDigit c) (cs.drop sigil.length) with
    | 0 => 0
    | n + 1 => sigil.length + n + 1
  else 0

/-- The marks that are names of global variables. -/
def isGlobalMark (c : Char) : Bool :=
  "!@&\x60\x27+~=/\\,;.<>*$?:\x22".toList.contains c

def globalLength : List Char → Nat
  | '$' :: '-' :: c :: _ => if isNameChar c then 3 else 0
  | '$' :: c :: cs =>
    if isGlobalMark c then 2
    else if isDigit c then 2 + spanLength isDigit cs
    else if isNameChar c then 2 + spanLength isNameChar cs
    else 0
  | _ => 0

/-! ## numbers -/

/-- The length of more digits, each with at most one underscore before it. -/
def moreDigitsLength (p : Char → Bool) : List Char → Nat
  | '_' :: c :: cs => if p c then 2 + moreDigitsLength p cs else 0
  | c :: cs => if p c then 1 + moreDigitsLength p cs else 0
  | [] => 0

/-- The length of digits with single underscores between them. -/
def digitsLength (p : Char → Bool) : List Char → Nat
  | c :: cs => if p c then 1 + moreDigitsLength p cs else 0
  | [] => 0

/-- The length of a sign for the base and the digits behind it. -/
def basedLength (marks : List Char) (p : Char → Bool) : List Char → Nat
  | '0' :: m :: cs =>
    if marks.contains m then
      match digitsLength p cs with
      | 0 => 0
      | n + 1 => n + 3
    else 0
  | _ => 0

def integerLength (cs : List Char) : Nat :=
  [basedLength ['b', 'B'] isBinaryDigit cs, basedLength ['o', 'O'] isOctalDigit cs,
    basedLength ['d', 'D'] isDigit cs, basedLength ['x', 'X'] isHexDigit cs,
    digitsLength isDigit cs].foldl max 0

def exponentLength : List Char → Nat
  | e :: cs =>
    if e == 'e' || e == 'E' then
      let signed := match cs with
        | '+' :: _ | '-' :: _ => 1
        | _ => 0
      match digitsLength isDigit (cs.drop signed) with
      | 0 => 0
      | n + 1 => signed + n + 2
    else 0
  | [] => 0

/-- The length of a decimal number; that of its digits where it has neither point nor exponent. -/
def floatLength (cs : List Char) : Nat :=
  match digitsLength isDigit cs with
  | 0 => 0
  | whole + 1 =>
    let fraction := match cs.drop (whole + 1) with
      | '.' :: d :: r => if isDigit d then 2 + moreDigitsLength isDigit r else 0
      | _ => 0
    whole + 1 + fraction + exponentLength (cs.drop (whole + 1 + fraction))

/-! ## characters and escapes -/

/-- The length of what may follow the character of an escape in a character literal. -/
def escapeTailLength (cs : List Char) : Nat :=
  let braced := match cs with
    | '{' :: r =>
      let digits := spanLength isHexDigit r
      match r.drop digits with
      | '}' :: _ => digits + 2
      | _ => 0
    | _ => 0
  let dashed := match cs with
    | '-' :: c :: r =>
      if !isVisible c then 0
      else match r with
        | m :: '-' :: d :: _ => if (m == 'M' || m == 'C') && isVisible d then 5 else 2
        | _ => 2
    | _ => 0
  max braced (max dashed (spanLength isHexDigit cs))

/-- The length of a character literal, its question mark included. -/
def characterLength : List Char → Nat
  | '?' :: '\\' :: c :: cs => if isVisible c then 3 + escapeTailLength cs else 2
  | '?' :: c :: _ => if isVisible c then 2 else 0
  | _ => 0

/-- The length of an escape sequence in a text with interpolation, its backslash included. -/
def escapeLength : List Char → Nat
  | '\\' :: 'x' :: cs =>
    match spanLength isHexDigit (cs.take 2) with
    | 0 => 0
    | n + 1 => n + 3
  | '\\' :: 'u' :: '{' :: cs =>
    let inner := spanLength (fun c => isHexDigit c || c == ' ') cs
    match inner, cs.drop inner with
    | n + 1, '}' :: _ => n + 5
    | _, _ => 0
  | '\\' :: 'u' :: cs => if spanLength isHexDigit (cs.take 4) = 4 then 6 else 0
  | '\\' :: c :: cs =>
    if isOctalDigit c then 2 + spanLength isOctalDigit (cs.take 2) else if isZero c then 0 else 2
  | _ => 0

/-! ## symbols -/

/-- The length of the operator that a symbol may be. -/
def symbolOperatorLength : List Char → Nat
  | '<' :: '=' :: '>' :: _ | '=' :: '=' :: '=' :: _ | '[' :: ']' :: '=' :: _ => 3
  | '<' :: '<' :: _ | '<' :: '=' :: _ | '>' :: '>' :: _ | '>' :: '=' :: _ | '=' :: '~' :: _
  | '=' :: '=' :: _ | '+' :: '@' :: _ | '-' :: '@' :: _ | '~' :: '@' :: _ | '.' :: '.' :: _
  | '!' :: '=' :: _ | '!' :: '~' :: _ | '*' :: '*' :: _ | '[' :: ']' :: _ => 2
  | '<' :: _ | '>' :: _ | '+' :: _ | '-' :: _ | '~' :: _ | '&' :: _ | '^' :: _ | '|' :: _
  | '/' :: _ | '%' :: _ | '\x60' :: _ | '!' :: _ | '*' :: _ => 1
  | _ => 0

/-- The length of the sign of a variable. -/
def sigilLength : List Char → Nat
  | '@' :: '@' :: _ => 2
  | '@' :: _ | '$' :: _ => 1
  | _ => 0

/-- The length of an equals sign that belongs to the symbol in front of it. -/
def symbolEqualsLength : List Char → Nat
  | '=' :: '~' :: _ | '=' :: '>' :: _ => 0
  | '=' :: '=' :: '>' :: _ => 1
  | '=' :: '=' :: _ => 0
  | '=' :: _ => 1
  | _ => 0

/-- The length of the name of a plain symbol, behind its colon; zero if there is none. -/
def symbolLength (cs : List Char) : Nat :=
  let sigil := sigilLength cs
  let name := cs.drop sigil
  let head := if startsWithA isSymbolChar name then 1 else symbolOperatorLength name
  if head = 0 then 0
  else
    let length := sigil + head + spanLength isSymbolChar (name.drop head)
    let mark := if startsWithA (fun c => c == '?' || c == '!') (cs.drop length) then 1 else 0
    length + mark + symbolEqualsLength (cs.drop (length + mark))

/-! ## blanks and comments -/

/-- The length of the white space at the front, broken lines included. -/
def blankLength : List Char → Nat
  | '\\' :: '\n' :: cs => 2 + blankLength cs
  | '\\' :: '\r' :: '\n' :: cs => 3 + blankLength cs
  | c :: cs => if isSpace c then 1 + blankLength cs else 0
  | [] => 0

def lineLength (cs : List Char) : Nat := spanLength (fun c => c != '\n' && !isZero c) cs

/-- The length of the rest of a block comment up to the end of the line with `=end`; none if there
is no such line. -/
def blockCommentRest? : List Char → Option Nat
  | '=' :: 'e' :: 'n' :: 'd' :: cs => some (4 + lineLength cs)
  | '=' :: 'e' :: 'n' :: c :: cs => if isZero c then none else (blockCommentRest? cs).map (4 + ·)
  | '=' :: 'e' :: c :: cs =>
    if c == 'n' || isZero c then none else (blockCommentRest? cs).map (3 + ·)
  | '=' :: c :: cs => if c == 'e' || isZero c then none else (blockCommentRest? cs).map (2 + ·)
  | '=' :: [] => none
  | c :: cs => if isZero c then none else (blockCommentRest? cs).map (1 + ·)
  | [] => none

/-- The length of the comment at the front. -/
def commentLength (cs : List Char) : Nat :=
  match cs with
  | '#' :: _ => lineLength cs
  | '=' :: 'b' :: 'e' :: 'g' :: 'i' :: 'n' :: _ =>
    let line := lineLength cs
    match cs.drop line with
    | '\n' :: rest => ((blockCommentRest? rest).map (line + 1 + ·)).getD 0
    | _ => 0
  | _ => 0

end RubyLint.Ruby
