/-!
# Severities

How much an offense weighs.  Severities are ordered: an error is above a warning, a warning above
an information.
-/

namespace RubyLint

inductive Severity where
  | info
  | warning
  | error
deriving DecidableEq, Inhabited

namespace Severity

def name : Severity → String
  | .info => "info"
  | .warning => "warning"
  | .error => "error"

def rank : Severity → Nat
  | .info => 0
  | .warning => 1
  | .error => 2

def isAbove (a b : Severity) : Bool := b.rank < a.rank

/-- Reads a severity by one of its names, in any case. -/
def ofName? (text : String) : Option Severity :=
  match String.ofList (text.toList.map Char.toLower) with
  | "info" => some .info
  | "warning" | "warn" => some .warning
  | "error" | "deny" => some .error
  | _ => none

/-- What is said about a text that names no severity. -/
def unknownMessage (text : String) : String := s!"Unknown severity: {text}"

end Severity

end RubyLint
