import RubyLint.Toml.Draft

/-!
# Reading a TOML document

`Toml.read?` reads a whole document: lines of keys and values under headers.  A document with any
fault is refused as a whole.
-/

namespace RubyLint.Toml

abbrev Read := StateT (List Char) Option

namespace Read

def peek : Read (Option Char) := do return (← get).head?

def require (b : Bool) : Read Unit := if b then pure () else failure

def exact (text : String) : Read Unit := do
  let cs := text.toList
  require (cs.isPrefixOf (← get))
  modify (List.drop cs.length)

/-- Reads the given text if it comes next. -/
def accept (text : String) : Read Bool := do
  if text.toList.isPrefixOf (← get) then
    exact text
    return true
  else return false

/-- Reads the longest text of characters that satisfy the condition. -/
def takeAll (p : Char → Bool) : Read (List Char) := do
  let cs := (← get).takeWhile p
  modify (List.drop cs.length)
  return cs

/-- Repeats a reader until it answers false. -/
def repeatWhile (p : Read Bool) : Nat → Read Unit
  | 0 => failure
  | limit + 1 => do if ← p then repeatWhile p limit

end Read

open Read

/-! ## blanks -/

def isBlank (c : Char) : Bool := c == ' ' || c == '\t'

/-- The character may stand in a comment or in a string of one line. -/
def isAllowed (c : Char) : Bool := c == '\t' || (0x20 ≤ c.toNat && c.toNat != 0x7F)

def blanks : Read Unit := do let _ ← takeAll isBlank

/-- A line feed, with or without a carriage return. -/
def lineFeed? : Read Bool := do
  if ← accept "\n" then return true else accept "\r\n"

def comment? : Read Unit := do
  if ← accept "#" then
    let _ ← takeAll isAllowed

/-- The end of a line, with a comment in front of it. -/
def endOfLine : Read Unit := do
  blanks
  comment?
  if ← lineFeed? then return
  else require (← get).isEmpty

/-- Blanks, comments and line feeds. -/
def space (limit : Nat) : Read Unit :=
  repeatWhile (do blanks; comment?; lineFeed?) limit

/-! ## strings -/

/-- A code of the given number of digits, as a character. -/
def codeEscape (count : Nat) : Read (List Char) := do
  let digits := (← get).take count
  require (digits.length == count)
  modify (List.drop count)
  match Number.readDigits 16 digits with
  | some n => if n.isValidChar then return [Char.ofNat n] else failure
  | none => failure

def escape : Read (List Char) := do
  match ← get with
  | [] => failure
  | c :: rest =>
    set rest
    match c with
    | 'b' => return ['\x08']
    | 't' => return ['\t']
    | 'n' => return ['\n']
    | 'f' => return ['\x0c']
    | 'r' => return ['\r']
    | 'e' => return ['\x1b']
    | '\x22' => return ['\x22']
    | '\\' => return ['\\']
    | 'x' => codeEscape 2
    | 'u' => codeEscape 4
    | 'U' => codeEscape 8
    | _ => failure

/-- The rest of a string with escapes on one line. -/
def basicString : Nat → List Char → Read (List Char)
  | 0, _ => failure
  | limit + 1, acc => do
    match ← get with
    | '\x22' :: rest => set rest; return acc.reverse
    | '\\' :: rest => set rest; let e ← escape; basicString limit (e.reverse ++ acc)
    | c :: rest =>
      require (isAllowed c)
      set rest
      basicString limit (c :: acc)
    | [] => failure

/-- The rest of a string without escapes on one line. -/
def literalString : Read (List Char) := do
  let cs ← takeAll fun c => isAllowed c && c != '\x27'
  exact "\x27"
  return cs

/-- A backslash at the end of a line takes the blanks and line feeds behind it away. -/
def lineContinuation? (limit : Nat) : Read Bool := do
  let ahead := (← get).dropWhile isBlank
  match ahead with
  | '\n' :: _ | '\r' :: '\n' :: _ =>
    repeatWhile (do blanks; lineFeed?) limit
    return true
  | _ => return false

/-- The rest of a string over several lines; quotes in front of the closing ones belong to it. -/
def longString (quote : Char) : Nat → List Char → Read (List Char)
  | 0, _ => failure
  | limit + 1, acc => do
    match ← get with
    | [] => failure
    | '\r' :: '\n' :: rest => set rest; longString quote limit ('\n' :: acc)
    | '\n' :: rest => set rest; longString quote limit ('\n' :: acc)
    | c :: rest =>
      if c == quote then
        let quotes := ((c :: rest).takeWhile (· == quote)).length
        if quotes < 3 then
          set rest
          longString quote limit (c :: acc)
        else
          require (quotes ≤ 5)
          modify (List.drop quotes)
          return acc.reverse ++ List.replicate (quotes - 3) quote
      else if c == '\\' && quote == '\x22' then
        set rest
        if ← lineContinuation? (limit + 1) then longString quote limit acc
        else
          let e ← escape
          longString quote limit (e.reverse ++ acc)
      else
        require (isAllowed c)
        set rest
        longString quote limit (c :: acc)

def string (limit : Nat) : Read (List Char) := do
  let long := fun (quote : Char) => do
    let _ ← lineFeed?
    longString quote limit []
  if ← accept "\x22\x22\x22" then long '\x22'
  else if ← accept "\x27\x27\x27" then long '\x27'
  else if ← accept "\x22" then basicString limit []
  else
    exact "\x27"
    literalString

/-! ## keys -/

def isKeyChar (c : Char) : Bool := c.isAlphanum || c == '_' || c == '-'

def simpleKey (limit : Nat) : Read String := do
  match ← peek with
  | some '\x22' => do
    exact "\x22"
    String.ofList <$> basicString limit []
  | some '\x27' => do
    exact "\x27"
    String.ofList <$> literalString
  | _ =>
    let cs ← takeAll isKeyChar
    require !cs.isEmpty
    return String.ofList cs

/-- A key of one or more parts with dots between them. -/
def dottedKey : Nat → Read (List String)
  | 0 => failure
  | limit + 1 => do
    blanks
    let k ← simpleKey limit
    blanks
    if ← accept "." then return k :: (← dottedKey limit) else return [k]

/-! ## values -/

def endsWord (c : Char) : Bool :=
  isBlank c || c == '\n' || c == '\r' || c == ',' || c == ']' || c == '}' || c == '#'

/-- A word; a date may be followed by a blank and a time. -/
def word : Read Toml := do
  let cs ← takeAll fun c => !endsWord c
  let tail := (← get).drop 1
  let time := tail.takeWhile fun c => !endsWord c
  let whole := cs ++ ' ' :: time
  if (← peek) == some ' ' && tail.head?.any isDigit && isMoment cs && isMoment whole then
    modify (List.drop (1 + time.length))
    return .moment (String.ofList whole)
  else
    match ofWord? cs with
    | some v => return v
    | none => failure

def items (limit : Nat) (value : Read Toml) : Nat → Read (List Toml)
  | 0 => failure
  | n + 1 => do
    space limit
    if ← accept "]" then return []
    else
      let v ← value
      space limit
      if ← accept "," then return v :: (← items limit value n)
      else
        exact "]"
        return [v]

def entries (limit : Nat) (value : Read Toml) : Nat → Entries → Read Entries
  | 0, _ => failure
  | n + 1, acc => do
    space limit
    if ← accept "\x7d" then return acc
    else
      let key ← dottedKey limit
      exact "="
      blanks
      let v ← value
      match Draft.assign key v false acc with
      | none => failure
      | some acc =>
        space limit
        if ← accept "," then entries limit value n acc
        else
          exact "\x7d"
          return acc

/-- A value whose parts are nested at most the given number deep. -/
def value (limit : Nat) : Nat → Read Toml
  | 0 => failure
  | depth + 1 => do
    match ← peek with
    | some '\x22' | some '\x27' => (.text ∘ String.ofList) <$> string limit
    | some '[' => do
      exact "["
      .list <$> items limit (value limit depth) limit
    | some '{' => do
      exact "\x7b"
      (.table ∘ Draft.closeEntries) <$> entries limit (value limit depth) limit []
    | _ => word

/-! ## documents -/

/-- The tables read so far and the header that the next keys belong to. -/
structure Progress where
  root : Entries
  header : List String

def orFail (p : Progress) (root : Option Entries) : Read Progress :=
  match root with
  | some root => return { p with root }
  | none => failure

/-- One line: a header, a key with its value, or neither. -/
def line (limit : Nat) (p : Progress) : Read Progress := do
  blanks
  match ← get with
  | [] | '#' :: _ | '\n' :: _ | '\r' :: _ =>
    endOfLine
    return p
  | '[' :: '[' :: _ =>
    exact "[["
    let path ← dottedKey limit
    exact "]]"
    endOfLine
    orFail { p with header := path } (Draft.openItem path p.root)
  | '[' :: _ =>
    exact "["
    let path ← dottedKey limit
    exact "]"
    endOfLine
    orFail { p with header := path } (Draft.openTable path p.root)
  | _ =>
    let key ← dottedKey limit
    exact "="
    blanks
    let v ← value limit limit
    endOfLine
    orFail p (Draft.assignBelow p.header key v p.root)

def lines (limit : Nat) : Nat → Progress → Read Entries
  | 0, _ => failure
  | n + 1, p => do
    if (← get).isEmpty then return p.root
    else lines limit n (← line limit p)

/-- The mark that may stand in front of a text. -/
def byteOrderMark : Char := '\uFEFF'

def read? (text : String) : Option (List (String × Toml)) :=
  let cs := text.toList
  let body := if cs.head? = some byteOrderMark then cs.drop 1 else cs
  let limit := body.length + 2
  match (lines limit limit ⟨[], []⟩).run body with
  | some (root, _) => some (Draft.closeEntries root)
  | none => none

end RubyLint.Toml
