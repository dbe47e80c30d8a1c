import RubyLint.Number.Digits
import RubyLint.Text.Split

/-!
# Ruby versions

The version of the language that a program is written for.  Rules that suggest a newer method do
not apply to it.
-/

namespace RubyLint

/-- A version by its first two numbers, each of eight bits. -/
structure RubyVersion where
  major : Nat
  minor : Nat
deriving DecidableEq, Inhabited

namespace RubyVersion

/-- The version that is assumed if none is given. -/
def standard : RubyVersion := ⟨2, 7⟩

def text (v : RubyVersion) : String := s!"{v.major}.{v.minor}"

/-- The first version is not newer than the second. -/
def notAfter (a b : RubyVersion) : Bool :=
  a.major < b.major || (a.major == b.major && a.minor ≤ b.minor)

/-- Reads two numbers with a point between them; blanks around them do not count. -/
def ofText? (text : String) : Option RubyVersion := do
  let (major, minor) ← Text.cutAt? '.' (Text.trim text.toList)
  return ⟨← Number.readByte major, ← Number.readByte minor⟩

/-- What is said about a text that is no version. -/
def invalidMessage (text : String) : String :=
  s!"Invalid Ruby version '{text}', expected MAJOR.MINOR"

end RubyVersion

end RubyLint
