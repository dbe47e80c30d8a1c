import RubyLint.Ruby.Lexical.Gap

/-!
# Signs and words that hang on what is around them

The same sign may stand between two operands, in front of one, or open an argument; a word may be a
name, a key, or a method whose name ends with a mark.  What may come there, and the blanks on
both sides, decide.
-/

namespace RubyLint.Ruby

/-- The place of a token: what may come there, whether blanks are in front of it, and the text from
there on. -/
structure Place where
  valid : TerminalSet
  afterBlank : Bool
  text : List Char

/-- The token may come at the place. -/
def Place.may (p : Place) (s : Scanned) : Bool := p.valid.hasScanned s

/-- What the look for a token finds: the token and its length, that there is none of this form, or
that there is no scanned token at all. -/
inductive Finding where
  | found (token : Scanned) (length : Nat)
  | other
  | refused
deriving DecidableEq

/-- The first of some tokens that may come and fits. -/
def Place.choose (p : Place) (length : Nat) (choices : List (Scanned × Bool)) : Finding :=
  match choices.find? fun c => c.2 && p.may c.1 with
  | some c => .found c.1 length
  | none => .refused

/-- An ampersand in front of a block argument. -/
def ampersand (p : Place) (behind : List Char) : Finding :=
  if p.may .blockAmpersand then
    if startsWithA (fun c => c == '&' || c == '.' || c == '=' || (p.afterBlank && isSpace c)) behind
    then .refused
    else .found .blockAmpersand 1
  else .other

/-- The angles of the class of one object. -/
def angles (p : Place) (behind : List Char) : Finding :=
  if p.may .singletonAngles then
    if startsWithA (· == '<') behind then .found .singletonAngles 2 else .refused
  else .other

/-- Stars between operands or in front of one. -/
def stars (p : Place) (behind : List Char) : Finding :=
  if p.may .splatStar || p.may .binaryStar || p.may .hashSplatStars || p.may .binaryStars then
    match behind with
    | '=' :: _ | '*' :: '=' :: _ => .refused
    | '*' :: more => p.choose 2 [
        (.binaryStars, !p.afterBlank), (.hashSplatStars, !startsWithA isSpace more),
        (.binaryStars, true), (.hashSplatStars, true)]
    | _ => p.choose 1 [
        (.binaryStar, !p.afterBlank), (.splatStar, !startsWithA isSpace behind),
        (.binaryStar, true), (.splatStar, true)]
  else .other

/-- A minus between operands or in front of one. -/
def minus (p : Place) (behind : List Char) : Finding :=
  if p.may .unaryMinus || p.may .numberMinus || p.may .binaryMinus then
    if startsWithA (fun c => c == '=' || c == '>') behind then .refused
    else if p.may .numberMinus && (!p.may .binaryStar || p.afterBlank) &&
        startsWithA isDigit behind then .found .numberMinus 1
    else if p.may .unaryMinus && p.afterBlank && !startsWithA isSpace behind then
      .found .unaryMinus 1
    else if p.may .binaryMinus then .found .binaryMinus 1
    else .found .unaryMinus 1
  else .other

/-- A bracket behind the object of an element reference. -/
def bracket (p : Place) : Finding :=
  if p.may .elementBracket && (!p.afterBlank || !p.may .stringStart) then .found .elementBracket 1
  else .other

/-- A word that is a key in front of a colon, or a name in front of an exclamation mark. -/
def markedWord (p : Place) (first : Char) : Finding :=
  let isKey := p.may .hashKeySymbol
  let looks := (isKey || p.may .markedIdentifier) && (isLetter first || first == '_')
  if looks || (p.may .markedConstant && isUpper first) then
    let word := spanLength isNameChar p.text
    let marked := if isUpper first then Scanned.markedConstant else .markedIdentifier
    match p.text.drop word with
    | ':' :: rest =>
      if isKey && !startsWithA (· == ':') rest then .found .hashKeySymbol word else .refused
    | '!' :: rest =>
      if p.may marked && !startsWithA (· == '=') rest then .found marked (word + 1) else .refused
    | _ => .refused
  else .other

end RubyLint.Ruby
