import RubyLint.Ruby.Automaton.State
import RubyLint.Ruby.Lexical.Opening

/-!
# Tokens of a text

The token that comes next in a text, in a state of the grammar (`lexeme?`).  The tokens that hang on
what is around them are looked for first (`scan?`).  Where there is none, the longest token wins
that may come next in the state; of two of one length, a word that is spelled out wins over a name.
A comment is read where nothing else fits.
-/

namespace RubyLint.Ruby

/-- A token of a text: how many characters are before it and in it, and what is open behind it. -/
structure Lexeme where
  terminal : Terminal
  before : Nat
  length : Nat
  scanner : Scanner

/-! ## tokens that hang on what is around them -/

namespace Scanner

/-- The body of a here-document is due at the end of the line. -/
def bodyDue (s : Scanner) : Bool :=
  match s.heredocs with
  | h :: _ => !h.isBegun
  | [] => false

/-- The body of the first here-document has begun. -/
def beginBody (s : Scanner) : Scanner :=
  match s.heredocs with
  | h :: hs => { s with heredocs := { h with isBegun := true } :: hs }
  | [] => s

/-- What is open and read on, with what is open besides. -/
inductive Open where
  | literal (innermost : OpenLiteral) (outer : List OpenLiteral)
  | heredoc (first : OpenHeredoc) (later : List OpenHeredoc)

/-- The literal or here-document that goes on where its content may come.  Where a literal may start,
none goes on. -/
def goingOn? (valid : TerminalSet) (s : Scanner) : Option Open :=
  let inLiteral := valid.hasScanned .stringContent || valid.hasScanned .stringEnd
  let inHeredoc := valid.hasScanned .heredocContent || valid.hasScanned .heredocEnd
  if valid.hasScanned .stringStart then none
  else match inLiteral, s.literals, inHeredoc, s.heredocs with
    | true, l :: ls, _, _ => some (.literal l ls)
    | _, _, true, h :: hs => some (.heredoc h hs)
    | _, _, _, _ => none

def piece? (s : Scanner) (text : List Char) : Open → Option Lexeme
  | .literal l outer => (l.piece? text).map fun p =>
    ⟨.scanned p.token, 0, p.length, { s with literals := p.rest.toList ++ outer }⟩
  | .heredoc h later => (h.piece? text).map fun p =>
    ⟨.scanned p.token, 0, p.length, { s with heredocs := p.rest.toList ++ later }⟩

/-- A token at a place that hangs on what is around it; it opens a literal, or is a sign or
a word. -/
def atPlace? (p : Place) (s : Scanner) : Option Opening :=
  let sign := match p.text with
    | '&' :: cs => ampersand p cs
    | '<' :: cs => angles p cs
    | '*' :: cs => stars p cs
    | '-' :: cs => minus p cs
    | '[' :: _ => bracket p
    | c :: _ => markedWord p c
    | [] => .other
  match sign, p.text with
  | .found token length, _ => some (s.keep token length)
  | .refused, _ => none
  | .other, ':' :: cs => if p.may .symbolStart then symbol? s cs else none
  | .other, _ => if p.may .stringStart then opening? p s else none

/-- The next token, if it is one that hangs on what is around it. -/
def scan? (valid : TerminalSet) (s : Scanner) (text : List Char) : Option Lexeme :=
  match s.goingOn? valid with
  | some what => s.piece? text what
  | none =>
    let context : GapContext :=
      ⟨s.bodyDue, valid.hasScanned .lineBreak && !valid.hasScanned .noLineBreak⟩
    match gap context text with
    | .closed => none
    | .lineBreak before => some ⟨.scanned .lineBreak, before, 0, s⟩
    | .bodyStart before => some ⟨.scanned .heredocBodyStart, before, 0, s.beginBody⟩
    | .passed before afterBlank =>
      (s.atPlace? ⟨valid, afterBlank, text.drop before⟩).map fun o =>
        ⟨.scanned o.token, before, o.length, o.scanner⟩

end Scanner

/-! ## tokens that are known by their characters -/

/-- A token that is spelled out. -/
structure Spelling where
  token : Terminal
  code : Nat
  chars : List Char

def spellings (token : String → Terminal) (texts : List String) : List Spelling :=
  texts.map fun text => ⟨token text, (token text).code, text.toList⟩

def signSpellings : List Spelling := spellings .sign Terminal.signs
def tightSpellings : List Spelling := spellings .tight Terminal.tightSigns

/-- The spelled tokens that may come and are at the front of a text, with their lengths. -/
def spelledAt (valid : TerminalSet) (text : List Char) (spellings : List Spelling) :
    List (Terminal × Nat) :=
  spellings.filterMap fun s =>
    if s.chars.isPrefixOf text && valid.hasCode s.code then some (s.token, s.chars.length) else none

/-- The length of the line that ends the program in front of other data. -/
def dataMarkLength (text : List Char) : Nat :=
  let mark := "__END__".toList
  if mark.isPrefixOf text && startsWithA (fun c => c == '\n' || c == '\r') (text.drop mark.length)
  then mark.length + 1 else 0

/-- The lengths of the tokens that are known by their shape, without names. -/
def shapeLengths (text : List Char) : List (Shape × Nat) := [
  (.dataMark, dataMarkLength text),
  (.integer, integerLength text),
  (.float, floatLength text),
  (.constant, constantLength text),
  (.constantSuffix, suffixedLength (constantLength text) text),
  (.identifier, identifierLength text),
  (.identifierSuffix, suffixedLength (identifierLength text) text),
  (.instanceVariable, sigilledLength ['@'] text),
  (.classVariable, sigilledLength ['@', '@'] text),
  (.globalVariable, globalLength text),
  (.character, characterLength text)]

def anyWord : TerminalSet := .ofList (Terminal.words.map .word)

/-- A token of the shape may come; where a word may come, a name is read for it. -/
def mayHaveShape (valid : TerminalSet) (s : Shape) : Bool :=
  valid.has (.shape s) || (s = .identifier && !(valid.inter anyWord).isEmpty)

/-- The longest of some tokens, the first of those of one length. -/
def longest? : List (Terminal × Nat) → Option (Terminal × Nat)
  | [] => none
  | t :: ts =>
    match longest? ts with
    | none => some t
    | some u => if t.2 < u.2 then some u else some t

theorem longest?_mem {ts : List (Terminal × Nat)} {t : Terminal × Nat} (h : longest? ts = some t) :
    t ∈ ts := by
  induction ts generalizing t with
  | nil => cases h
  | cons u us ih =>
    simp only [longest?] at h
    split at h
    · cases h
      exact List.mem_cons_self
    · rename_i v hv
      split at h <;> cases h
      · exact List.mem_cons_of_mem _ (ih hv)
      · exact List.mem_cons_self

/-- What a name is in a state: a word, a word that cannot be a name there, or a name. -/
def nameIn (s : State) (name : String) : Terminal :=
  let atBreak := s.valid.hasScanned .lineBreak
  if Terminal.words.contains name && s.valid.has (.word name) then .word name
  else if s.barred.has (.barred .closing) && (Barred.closing.words atBreak).contains name then
    .barred .closing
  else if s.barred.has (.barred .otherClause) && (Barred.otherClause.words atBreak).contains name then
    .barred .otherClause
  else .shape .identifier

/-- Nothing comes any more, but for a broken line without a next one. -/
def isFinished : List Char → Bool
  | [] | ['\\'] | ['\\', '\r'] => true
  | _ => false

/-- The token behind the blanks of a text that is known by its characters. -/
def plainLexeme? (s : State) (scanner : Scanner) (before : Nat) (text : List Char) :
    Option Lexeme :=
  let tight := if before = 0 then spelledAt s.valid text tightSpellings else []
  let shapes := (shapeLengths text).filterMap fun (shape, length) =>
    if 0 < length && mayHaveShape s.valid shape then some (Terminal.shape shape, length) else none
  match longest? (tight ++ spelledAt s.valid text signSpellings ++ shapes) with
  | some (.shape .identifier, length) =>
    some ⟨nameIn s (String.ofList (text.take length)), before, length, scanner⟩
  | some (token, length) => some ⟨token, before, length, scanner⟩
  | none =>
    if isFinished text && s.valid.has .finish then some ⟨.finish, before, text.length, scanner⟩
    else match commentLength text with
      | 0 => none
      | length => some ⟨.shape .comment, before, length, scanner⟩

/-- The token of a text that is known by its characters. -/
def unscanned? (s : State) (scanner : Scanner) (text : List Char) : Option Lexeme :=
  let blanks := if s.valid.has (.shape .blankRun) then spanLength isSpace text else 0
  let escape := if s.valid.has (.shape .escape) then escapeLength text else 0
  if 0 < blanks then some ⟨.shape .blankRun, 0, blanks, scanner⟩
  else if s.valid.has (.shape .uninterpreted) then
    some ⟨.shape .uninterpreted, 0, spanLength (fun c => !isZero c) text, scanner⟩
  else if 0 < escape then some ⟨.shape .escape, 0, escape, scanner⟩
  else
    let before := blankLength text
    plainLexeme? s scanner before (text.drop before)

/-- The next token of a text in a state. -/
def lexeme? (s : State) (scanner : Scanner) (text : List Char) : Option Lexeme :=
  (scanner.scan? s.valid text).or (unscanned? s scanner text)

end RubyLint.Ruby
