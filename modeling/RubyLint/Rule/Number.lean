import RubyLint.Literal.StringBody
import RubyLint.Pattern.Match
import RubyLint.Rule.Basic
import RubyLint.Text.Split

/-!
# Rules about numbers

Decimal numbers made from text that could be made from a number, and questions for the sign of a
number that a comparison answers.
-/

namespace RubyLint.Rule

/-! ## numbers from text -/

def bigDecimalOfText : Pattern := Pattern.ofText "(send nil? :BigDecimal $str ...)" .empty

def textToDecimal : Pattern := Pattern.ofText "(send $str :to_d ...)" .empty

/-- There are digits, and nothing else. -/
def isDigits (cs : List Char) : Bool := !cs.isEmpty && cs.all Literal.isDigit

/-- The text is a number: digits, with an optional minus in front and an optional fraction. -/
def isPlainNumber (cs : List Char) : Bool :=
  let unsigned := match cs with
    | '-' :: rest => rest
    | _ => cs
  match Text.cutAt? '.' unsigned with
  | some (whole, fraction) => isDigits whole && isDigits fraction
  | none => isDigits unsigned

/-- The number that a string literal holds. -/
def plainNumber? {t : SyntaxTree} (string : Node t) : Option String :=
  string.strValue?.filter fun text => isPlainNumber text.toList

def decimalMessage : String := "Convert string literal to numeric and pass it to `BigDecimal`."

def decimalVerdict {t : SyntaxTree} (n : Node t) : Verdict := do
  if let some string := (bigDecimalOfText.match? n).bind (·.node? 0) then
    let some number := plainNumber? string | return none
    return some (.replacing string.span decimalMessage string.span number)
  let some string := (textToDecimal.match? n).bind (·.node? 0) | return none
  let some number := plainNumber? string | return none
  let arguments ← n.arguments.mapM Node.text
  return some (.replacing string.span decimalMessage n.span
    ("BigDecimal(" ++ String.intercalate ", " (number :: arguments) ++ ")"))

def bigDecimalWithNumericArgument : Rule :=
  { performance "BigDecimalWithNumericArgument"
      "Pass numeric literals to BigDecimal instead of converting strings" [.send]
      fun _ n => decimalVerdict n with
    methods? := some ["BigDecimal", "to_d"]
    minimum? := some ⟨3, 1⟩ }

/-! ## signs -/

def signOfLiteral : Pattern :=
  Pattern.ofText "(send $numeric_type? ${:negative? :positive? :zero?})" .empty

def signOfReceiver : Pattern := Pattern.ofText "(send $!nil? ${:negative? :positive?})" .empty

/-- The comparison with zero that answers a question for the sign. -/
def signOperator : String → String
  | "negative?" => "<"
  | "positive?" => ">"
  | _ => "=="

def signVerdict {t : SyntaxTree} (n : Node t) : Verdict := do
  let some captures := signOfLiteral.match? n <|> signOfReceiver.match? n | return none
  let some receiver := captures.node? 0 | return none
  let some question := captures.sym? 1 | return none
  let zero := if receiver.kind = .float then "0.0" else "0"
  let subject ← receiver.text
  let good := subject ++ " " ++ signOperator question ++ " " ++ zero
  let text ← n.text
  return some (.replacing n.span s!"Use compare operator `{good}` instead of `{text}`." n.span good)

/-- The correction is for numbers only, and the receiver may be something else. -/
def numericPredicate : Rule :=
  { performance "NumericPredicate"
      "Use comparison operators instead of numeric sign predicates" [.send]
      fun _ n => signVerdict n with
    methods? := some ["negative?", "positive?", "zero?"]
    isSafe := false }

end RubyLint.Rule
