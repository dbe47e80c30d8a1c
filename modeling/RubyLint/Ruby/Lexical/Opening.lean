import RubyLint.Ruby.Lexical.Open
import RubyLint.Ruby.Lexical.Sign

/-!
# Openings of literals

Quotes, percent signs with a delimiter, slashes in front of a regular expression, the colon of a
symbol, and the announcement of a here-document.  Each opening is a token, and says what is open
behind it.
-/

namespace RubyLint.Ruby

/-- A token with its length, and what is open behind it. -/
structure Opening where
  token : Scanned
  length : Nat
  scanner : Scanner

namespace Scanner

def openLiteral (s : Scanner) (token : Scanned) (opener closer : Char) (interpolates : Bool)
    (length : Nat) : Opening :=
  ⟨token, length, { s with literals := ⟨token, opener, closer, interpolates, 1⟩ :: s.literals }⟩

/-- A token opens nothing. -/
def keep (s : Scanner) (token : Scanned) (length : Nat) : Opening := ⟨token, length, s⟩

end Scanner

/-- A symbol, or the start of one in quotes, behind its colon. -/
def symbol? (s : Scanner) (behind : List Char) : Option Opening :=
  match behind with
  | '"' :: _ => some (s.openLiteral .symbolStart '"' '"' true 2)
  | '\'' :: _ => some (s.openLiteral .symbolStart '\'' '\'' false 2)
  | _ =>
    match symbolLength behind with
    | 0 => none
    | n + 1 => some (s.keep .simpleSymbol (n + 2))

/-- The kind that a letter behind a percent sign stands for: its token, whether its text has
interpolations, and whether it may stand here. -/
def percentKind? (p : Place) : Char → Option (Scanned × Bool × Bool)
  | 's' => some (.symbolStart, false, p.may .simpleSymbol)
  | 'r' => some (.regexStart, true, p.may .regexStart)
  | 'x' => some (.subshellStart, true, p.may .subshellStart)
  | 'q' => some (.stringStart, false, true)
  | 'Q' => some (.stringStart, true, true)
  | 'w' => some (.stringArrayStart, false, p.may .stringArrayStart)
  | 'i' => some (.symbolArrayStart, false, p.may .symbolArrayStart)
  | 'W' => some (.stringArrayStart, true, true)
  | 'I' => some (.symbolArrayStart, true, true)
  | _ => none

/-- The character that closes what a delimiter opens; none for those that open nothing. -/
def closer? (p : Place) (c : Char) : Option Char :=
  match c with
  | '(' => some ')'
  | '[' => some ']'
  | '{' => some '}'
  | '<' => some '>'
  | '\r' | '\n' | ' ' | '\t' => if p.valid.has (.sign "/") then none else some c
  | _ =>
    if "|!#/\\@$%^&*)]\x7d>+-~\x60,.?:;_\x22\x27".toList.contains c then some c else none

def percentLiteral? (p : Place) (s : Scanner) (behind : List Char) : Option Opening :=
  match behind with
  | [] => none
  | c :: cs =>
    match percentKind? p c with
    | none => (closer? p c).map fun d => s.openLiteral .stringStart c d true 2
    | some (token, interpolates, may) =>
      match cs with
      | [] => none
      | d :: _ =>
        if may then (closer? p d).map fun e => s.openLiteral token d e interpolates 3 else none

/-- The closing word of a here-document, whether its body has interpolations, and how long the
announcement of it is. -/
def closingWord : List Char → List Char × Bool × Nat
  | q :: cs =>
    if q == '"' || q == '\'' || q == '\x60' then
      let word := cs.takeWhile (· != q)
      (word, q != '\'', word.length + min 2 ((q :: cs).length - word.length))
    else
      let word := (q :: cs).takeWhile isNameChar
      (word, true, word.length)
  | [] => ([], true, 0)

/-- The announcement of a here-document, behind its two angles. -/
def heredoc? (s : Scanner) (behind : List Char) : Option Opening :=
  let isIndented := startsWithA (fun c => c == '-' || c == '~') behind
  let mark := if isIndented then 1 else 0
  let (word, interpolates, length) := closingWord (behind.drop mark)
  if word.isEmpty then none
  else some ⟨.heredocBeginning, 2 + mark + length,
    { s with heredocs := s.heredocs ++ [⟨word, isIndented, interpolates, false⟩] }⟩

/-- A slash in front of a regular expression; where it might also divide, it opens one behind a
blank only, and in front of none. -/
def regex? (p : Place) (s : Scanner) (behind : List Char) : Option Opening :=
  let divides := p.valid.has (.sign "/") &&
    (!p.afterBlank || startsWithA (fun c => isSpace c || c == '=') behind)
  if p.may .regexStart && !divides then some (s.openLiteral .regexStart '/' '/' true 1) else none

def opening? (p : Place) (s : Scanner) : Option Opening :=
  match p.text with
  | '"' :: _ => some (s.openLiteral .stringStart '"' '"' true 1)
  | '\'' :: _ => some (s.openLiteral .stringStart '\'' '\'' false 1)
  | '\x60' :: _ =>
    if p.may .subshellStart then some (s.openLiteral .subshellStart '\x60' '\x60' true 1) else none
  | '/' :: cs => regex? p s cs
  | '%' :: cs => percentLiteral? p s cs
  | '<' :: '<' :: cs => heredoc? s cs
  | _ => none

end RubyLint.Ruby
