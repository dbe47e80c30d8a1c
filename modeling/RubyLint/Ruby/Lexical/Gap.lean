import RubyLint.Ruby.Grammar.Terminal
import RubyLint.Ruby.Lexical.Length

/-!
# Gaps

The white space in front of a token, as the scanned tokens see it.  A line feed may be such a token
itself, or the place where the body of a here-document starts; a line that goes on with a call on
what is before it does not end there.
-/

namespace RubyLint.Ruby

/-- What the end of a line may be. -/
structure GapContext where
  /-- the body of a here-document is due there -/
  bodyDue : Bool
  /-- a statement may end there -/
  mayBreak : Bool

/-- What a gap comes to.  Places are counted in characters from its front. -/
inductive Gap where
  /-- a token comes behind it; a line feed that may end a statement is no blank -/
  | passed (length : Nat) (isBlank : Bool)
  /-- a statement ends at the place -/
  | lineBreak (place : Nat)
  /-- the body of a here-document starts at the place -/
  | bodyStart (place : Nat)
  /-- no scanned token can stand behind it -/
  | closed
deriving DecidableEq

/-- The gap of which so many characters are behind, with the first line feed among them that may end
a statement. -/
def gapFrom (context : GapContext) (before : Nat) (isBlank : Bool) (feed : Option Nat) :
    List Char → Gap
  | [] => (feed.map Gap.lineBreak).getD (.passed before isBlank)
  | '\\' :: '\r' :: c :: cs =>
    if isSpace c then gapFrom context (before + 3) true feed cs else .closed
  | '\\' :: '\r' :: [] => .closed
  | '\\' :: c :: cs => if isSpace c then gapFrom context (before + 2) true feed cs else .closed
  | '\\' :: [] => .closed
  | '\n' :: cs =>
    if context.bodyDue then .bodyStart before
    else if context.mayBreak && feed.isNone then
      gapFrom context (before + 1) isBlank (some before) cs
    else gapFrom context (before + 1) true feed cs
  | '\r' :: cs =>
    if context.bodyDue then .bodyStart before else gapFrom context (before + 1) true feed cs
  | c :: cs =>
    if isIndent c then gapFrom context (before + 1) true feed cs
    else match feed with
      | none => .passed before isBlank
      | some place =>
        if c == '#' then .passed before isBlank
        else if c == '&' then .closed
        else if c == '.' && !startsWithA (· == '.') cs then .closed
        else .lineBreak place

def gap (context : GapContext) (text : List Char) : Gap := gapFrom context 0 false none text

end RubyLint.Ruby
