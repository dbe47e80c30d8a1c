/-!
# Characters of Ruby texts

Which characters separate tokens and which may stand in words.  Blanks between tokens and letters of
suffixed names are those of ASCII; what a character literal may hold is any character but white
space in the sense of Unicode.
-/

namespace RubyLint.Ruby

def isSpace (c : Char) : Bool :=
  c == ' ' || c == '\t' || c == '\n' || c == '\r' || c == '\x0b' || c == '\x0c'

/-- White space in the sense of Unicode. -/
def isWideSpace (c : Char) : Bool :=
  let n := c.toNat
  isSpace c || n == 0x85 || n == 0xa0 || n == 0x1680 || (0x2000 ≤ n && n ≤ 0x200a) ||
    n == 0x2028 || n == 0x2029 || n == 0x202f || n == 0x205f || n == 0x3000

/-- The character of code zero, which stands only inside of literals. -/
def isZero (c : Char) : Bool := c.toNat == 0

/-- A character that a character literal may hold. -/
def isVisible (c : Char) : Bool := !isWideSpace c && !isZero c

/-- A blank inside a line. -/
def isIndent (c : Char) : Bool := c == ' ' || c == '\t'

/-- The character stands for itself between words. -/
def isPunctuation (c : Char) : Bool :=
  ":;\x60\x22\x27@$#.,|^&<=>+-*/\\%?!~()[]\x7b\x7d".toList.contains c

/-- The character can stand in a word. -/
def isWordChar (c : Char) : Bool := 0x20 < c.toNat && !isPunctuation c

/-- The character can stand in the name of a symbol. -/
def isSymbolChar (c : Char) : Bool :=
  !isPunctuation c && c != ' ' && c != '\t' && c != '\n' && c != '\r' && c != '\x00'

def isDigit (c : Char) : Bool := '0' ≤ c && c ≤ '9'
def isUpper (c : Char) : Bool := 'A' ≤ c && c ≤ 'Z'
def isLower (c : Char) : Bool := 'a' ≤ c && c ≤ 'z'

def isLetter (c : Char) : Bool := isUpper c || isLower c

/-- A letter or digit of ASCII, or an underscore. -/
def isNameChar (c : Char) : Bool := isLetter c || isDigit c || c == '_'

def isBinaryDigit (c : Char) : Bool := c == '0' || c == '1'
def isOctalDigit (c : Char) : Bool := '0' ≤ c && c ≤ '7'
def isHexDigit (c : Char) : Bool := isDigit c || ('a' ≤ c && c ≤ 'f') || ('A' ≤ c && c ≤ 'F')

/-- The next character is there and has the property. -/
def startsWithA (p : Char → Bool) : List Char → Bool
  | [] => false
  | c :: _ => p c

end RubyLint.Ruby
