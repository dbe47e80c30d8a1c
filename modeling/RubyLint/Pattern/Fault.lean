/-!
# Faults of patterns

Why a text is no pattern, with the place of the fault, and why a match cannot be decided.
-/

namespace RubyLint

/-- What is wrong with the text of a pattern. -/
inductive PatternFault where
  | unbalanced (c : Char)
  | unexpectedToken (token : String)
  | unexpectedChar (c : Char)
  | empty
  | trailingInput (token : String)
  | unknownKind (name : String)
  | unknownPredicate (name : String)
  | unknownExternal (name : String)
  | unknownSet (name : String)
  | multipleVariadic
  | captureCountMismatch (expected actual : Nat)
  | captureInNegation
  | restOutsideSequence
  | quantifierOutsideSequence
  | invalidLiteral (text : String)
deriving DecidableEq

namespace PatternFault

def quote (text : String) : String := "\x60" ++ text ++ "\x60"

def message : PatternFault → String
  | .unbalanced c => "unbalanced " ++ quote c.toString
  | .unexpectedToken token => "unexpected " ++ quote token
  | .unexpectedChar c => "unexpected character " ++ quote c.toString
  | .empty => "empty pattern"
  | .trailingInput token => "trailing input " ++ quote token
  | .unknownKind name => "unknown node kind " ++ quote name
  | .unknownPredicate name => "unknown predicate " ++ quote name
  | .unknownExternal name => "unknown external predicate " ++ quote ("#" ++ name)
  | .unknownSet name => "unknown set " ++ quote name
  | .multipleVariadic => "more than one variadic element in one sequence"
  | .captureCountMismatch expected actual =>
    s!"union branches capture different numbers of values ({expected} and {actual})"
  | .captureInNegation => "captures are not allowed inside a negation"
  | .restOutsideSequence => quote "..." ++ " is only allowed inside a sequence"
  | .quantifierOutsideSequence => "quantifier is only allowed on sequence elements"
  | .invalidLiteral text => "invalid literal " ++ quote text

end PatternFault

/-- A fault and the byte offset in the text at which it shows. -/
structure PatternError where
  fault : PatternFault
  offset : Nat
deriving DecidableEq

namespace PatternError

/-- What is said about the fault in a text. -/
def message (e : PatternError) (pattern : String) : String :=
  s!"Invalid node pattern: {e.fault.message} at offset {e.offset} in pattern " ++
    PatternFault.quote pattern

end PatternError

/-- Why a match cannot be decided. -/
inductive PredicateError where
  | failed (name : String) (message : String)
  | missingParam (number : Nat)
  | unsupportedParam (number : Nat)
deriving DecidableEq

end RubyLint
