import RubyLint.Number.Double
import RubyLint.Text.Printable

/-!
# Terminal values

The children of a syntax node that are no nodes: names, the contents of literals, and the mark of
an absent child.
-/

namespace RubyLint

inductive Value where
  | nil
  | sym (name : String)
  | str (text : String)
  | int (n : Int)
  | float (x : Number.Double)
deriving DecidableEq, Inhabited

namespace Value

/-- Equal as values of the language: kinds never mix, and floats are equal as numbers. -/
def same : Value → Value → Bool
  | .float x, .float y => x.numEq y
  | v, w => v == w

def asSym? : Value → Option String
  | .sym name => some name
  | _ => none

def asStr? : Value → Option String
  | .str text => some text
  | _ => none

def isNil : Value → Bool
  | .nil => true
  | _ => false

/-- How the value is written in the text form of a tree. -/
def text : Value → String
  | .nil => "nil"
  | .sym name => ":" ++ name
  | .str s => String.ofList (Text.quoted s.toList)
  | .int n => toString n
  | .float x => String.ofList x.text

end Value

end RubyLint
