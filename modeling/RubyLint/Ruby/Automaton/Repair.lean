import RubyLint.Ruby.Automaton.Reading

/-!
# Missing keys

A colon that cannot come where it stands may have a key without characters before it, as in a hash
that is being written.  The key is taken for read where the text then goes on further than it does
without the colon.
-/

namespace RubyLint.Ruby

namespace Reading

/-- The reading behind a key without characters, where a colon comes next. -/
def withKey? (r : Reading) : Option Reading :=
  match r.place.rest with
  | ':' :: _ =>
    match r.feed (.shape .identifierSuffix) (.empty r.place.offset) with
    | .read next => some next
    | _ => none
  | _ => none

/-- The reading behind a sign that is passed over. -/
def passSign (r : Reading) : Reading := { r with place := r.place.advance 1 }

/-- The reading behind a comment that comes next. -/
def behindComment? (r : Reading) : Option Reading :=
  match r.lexeme? with
  | none => none
  | some l => if l.terminal = .shape .comment then some (r.behind l) else none

def isAtEnd (r : Reading) : Bool := r.lexeme?.any fun l => l.terminal == .finish

/-- Comments come up to the end of the text, at most so many of them. -/
def onlyComments : Nat → Reading → Bool
  | 0, _ => false
  | fuel + 1, r =>
    match r.behindComment? with
    | none => false
    | some next => next.isAtEnd || onlyComments fuel next

/-- How many nodes may have been read for the reading without the colon to count. -/
def passLimit : Nat := 16

/-- What comes of a text that was read so far, with missing keys filled in. -/
def repaired : Nat → Result → Option (List Concrete)
  | _, .complete statements => some statements
  | 0, .stuck _ => none
  | fuel + 1, .stuck r =>
    match r.withKey? with
    | none => none
    | some keyed =>
      let filled := keyed.run
      let goesOn := match filled with
        | .complete _ => true
        | .stuck s => decide (r.place.offset < s.place.offset)
      if !goesOn then none
      else if passLimit < r.nodes || onlyComments r.place.rest.length r.passSign then
        repaired fuel filled
      else
        match r.passSign.run, filled with
        | .complete _, _ => none
        | .stuck _, .complete statements => some statements
        | .stuck passed, .stuck s =>
          if passed.place.offset < s.place.offset then repaired fuel filled else none

end Reading

/-- The statements of a text; none if it is not in the grammar. -/
def Concrete.ofText? (text : String) : Option (List Concrete) :=
  let chars := text.toList
  Reading.repaired chars.length (Reading.start chars).run

end RubyLint.Ruby
