import RubyLint.Ruby.Grammar.Terminal
import RubyLint.Ruby.Lexical.Length

/-!
# Open literals

What has been opened and is still to be closed: delimited literals, the innermost first, and
here-documents, of which the next one due comes first.  What stands inside them is read in pieces:
`OpenLiteral.piece?` and `OpenHeredoc.piece?` say how far plain text goes, and where the literal
closes.
-/

namespace RubyLint.Ruby

/-- A delimited literal that has been opened. -/
structure OpenLiteral where
  opening : Scanned
  opener : Char
  closer : Char
  interpolates : Bool
  /-- how many openers have no closer yet -/
  depth : Nat
deriving DecidableEq

/-- A here-document that has been announced. -/
structure OpenHeredoc where
  word : List Char
  /-- the closing word may be indented -/
  isIndented : Bool
  interpolates : Bool
  /-- the body has begun -/
  isBegun : Bool
deriving DecidableEq

/-- What is open at a place. -/
structure Scanner where
  literals : List OpenLiteral
  heredocs : List OpenHeredoc
deriving DecidableEq

def Scanner.fresh : Scanner := ⟨[], []⟩

/-- The short interpolation behind a number sign: whether there is one, and how many signs have
been passed to see that. -/
def shortInterpolation : List Char → Bool × Nat
  | '$' :: '-' :: cs => (startsWithA (fun c => isLetter c || c == '_') cs, 2)
  | '$' :: cs => (startsWithA (fun c => isGlobalMark c || isNameChar c) cs, 1)
  | '@' :: '@' :: cs => (startsWithA (fun c => isSymbolChar c && !isDigit c) cs, 2)
  | '@' :: cs => (startsWithA (fun c => isSymbolChar c && !isDigit c) cs, 1)
  | _ => (false, 0)

/-- A piece of a literal: its token, its length, and what is open of the literal behind it. -/
structure Piece (α : Type) where
  token : Scanned
  length : Nat
  rest : Option α

namespace OpenLiteral

/-- The elements of the literal are separated by blanks. -/
def isWords (l : OpenLiteral) : Bool :=
  l.opening == .stringArrayStart || l.opening == .symbolArrayStart

/-- Text of a length, with the literal still open. -/
def content (l : OpenLiteral) (length : Nat) : Option (Piece OpenLiteral) :=
  if length = 0 then none else some ⟨.stringContent, length, some l⟩

/-- The piece behind `n` characters of text, of which the next `skip` are plain. -/
def pieceFrom (l : OpenLiteral) (n skip : Nat) : List Char → Option (Piece OpenLiteral)
  | [] => none
  | c :: cs =>
    match skip with
    | skip + 1 => l.pieceFrom (n + 1) skip cs
    | 0 =>
      if l.isWords && isSpace c then l.content n
      else if c == l.closer then
        if l.depth ≤ 1 then
          if n = 0 then
            let flags := if l.opening = .regexStart then spanLength isLower cs else 0
            some ⟨.stringEnd, 1 + flags, none⟩
          else l.content n
        else pieceFrom { l with depth := l.depth - 1 } (n + 1) 0 cs
      else if c == l.opener then pieceFrom { l with depth := l.depth + 1 } (n + 1) 0 cs
      else if l.interpolates && c == '#' then
        match cs with
        | '{' :: _ => l.content n
        | _ =>
          match shortInterpolation cs with
          | (true, _) => if n = 0 then some ⟨.shortInterpolation, 1, some l⟩ else l.content n
          | (false, passed) => l.pieceFrom (n + 1) passed cs
      else if c == '\\' then
        if l.interpolates then l.content n else l.pieceFrom (n + 1) 1 cs
      else l.pieceFrom (n + 1) 0 cs

/-- The piece at the front of a text; none where a blank, an escape sequence, an interpolation in
braces or the end of the text comes next. -/
def piece? (l : OpenLiteral) (text : List Char) : Option (Piece OpenLiteral) := l.pieceFrom 0 0 text

end OpenLiteral

namespace OpenHeredoc

/-- How far a body has been read: the characters behind, the end of the plain text among them, what
is left to match of the closing word, whether that may start here, and whether there is text. -/
structure Progress where
  behind : Nat
  plain : Nat
  left : List Char
  mayClose : Bool
  hasText : Bool

/-- The body ends or goes on behind plain text. -/
def ending (h : OpenHeredoc) (p : Progress) : Option (Piece OpenHeredoc) :=
  if p.hasText then some ⟨.heredocContent, p.plain, some h⟩
  else some ⟨.heredocEnd, p.plain, none⟩

/-- The plain text behind a line feed: the indentation of the next line. -/
def nextLine (h : OpenHeredoc) (p : Progress) (feed : Nat) (cs : List Char) : Progress × Nat :=
  let indent := spanLength isIndent (cs.drop feed)
  let behind := p.behind + 1
  (⟨behind, behind + feed + indent, h.word, h.isIndented || indent = 0, true⟩, feed + indent)

/-- The piece behind what has been read, of which the next `skip` characters are plain. -/
def pieceFrom (h : OpenHeredoc) (p : Progress) (skip : Nat) :
    List Char → Option (Piece OpenHeredoc)
  | [] =>
    if p.left.isEmpty then h.ending { p with plain := if p.hasText then p.plain else p.behind }
    else h.ending { p with plain := p.behind }
  | c :: cs =>
    match skip with
    | skip + 1 => h.pieceFrom { p with behind := p.behind + 1 } skip cs
    | 0 =>
      let indent := if p.left.isEmpty then spanLength isIndent (c :: cs) else 0
      let closed := p.left.isEmpty &&
        match (c :: cs).drop indent with
        | [] | '\n' :: _ | '\r' :: _ => true
        | _ => false
      if closed then h.ending { p with plain := if p.hasText then p.plain else p.behind }
      else
        let p := if p.left.isEmpty then
          { p with
            plain := if p.hasText then p.plain else p.behind
            left := h.word
            hasText := true }
          else p
        match indent with
        | skip + 1 => h.pieceFrom { p with behind := p.behind + 1 } skip cs
        | 0 =>
          let next := { p with behind := p.behind + 1 }
          let broken := { next with left := h.word, mayClose := false }
          if p.mayClose && p.left.head? == some c then
            h.pieceFrom { next with left := p.left.tail } 0 cs
          else if h.interpolates && c == '\\' then
            if p.hasText then some ⟨.heredocContent, p.behind, some h⟩ else none
          else if h.interpolates && c == '#' then
            let text := if p.hasText then some ⟨.heredocContent, p.behind, some h⟩ else none
            match cs with
            | '{' :: _ => text
            | _ =>
              match shortInterpolation cs with
              | (true, _) => text.or (some ⟨.shortInterpolation, p.behind + 1, some h⟩)
              | (false, passed) => h.pieceFrom { broken with plain := p.behind } passed cs
          else if c == '\n' || c == '\r' then
            let feed := if c == '\r' && startsWithA (· == '\n') cs then 1 else 0
            let (q, skip) := h.nextLine p feed cs
            h.pieceFrom q skip cs
          else h.pieceFrom { broken with plain := next.behind, hasText := true } 0 cs

/-- The piece at the front of a text; none where an escape sequence or an interpolation in braces
comes next. -/
def piece? (h : OpenHeredoc) (text : List Char) : Option (Piece OpenHeredoc) :=
  h.pieceFrom ⟨0, 0, h.word, true, false⟩ 0 text

end OpenHeredoc

end RubyLint.Ruby
