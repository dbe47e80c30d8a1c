import RubyLint.Literal.RegexpBody
import RubyLint.Literal.StringBody
import RubyLint.Pattern.Match
import RubyLint.Rule.Basic

/-!
# Regular expressions that are texts in disguise

Where a regular expression matches one text only, a method that takes a text does the same with
less work: `start_with?`, `end_with?` and `include?` for a match, `delete_prefix` and
`delete_suffix` for a substitution by nothing, and `split` itself.
-/

namespace RubyLint.Rule

/-! ## bodies -/

/-- Where in the subject the text has to stand. -/
inductive Anchor where
  | atStart
  | atEnd
  | anywhere
deriving DecidableEq, Inhabited

namespace Anchor

/-- The body matches one text only, at this place. -/
def accepts (a : Anchor) (body : List Char) : Bool :=
  match a with
  | .atStart => Literal.isLiteralAtStart body
  | .atEnd => Literal.isLiteralAtEnd body
  | .anywhere => !body.isEmpty && Literal.isLiteralRegexp body

def strip (a : Anchor) (body : List Char) : List Char :=
  match a with
  | .atStart => Literal.dropStartAnchor body
  | .atEnd => Literal.dropEndAnchor body
  | .anywhere => body

/-- A literal for the text that the body matches. -/
def literalFor (a : Anchor) (body : String) : String :=
  String.ofList (Literal.singleOrDouble (Literal.readEscapes (a.strip body.toList)))

/-- The method that asks for a text at this place. -/
def question : Anchor → String
  | .atStart => "start_with?"
  | .atEnd => "end_with?"
  | .anywhere => "include?"

end Anchor

/-- Asks whether a string child is a body that matches one text only. -/
def bodyPredicate (a : Anchor) : Pattern.Predicate :=
  fun c _ => .ok (c.asStr?.any fun body => a.accepts body.toList)

def bodyEnvironment : Pattern.Environment where
  predicates := [("literal_at_start?", bodyPredicate .atStart),
    ("literal_at_end?", bodyPredicate .atEnd), ("literal_only?", bodyPredicate .anywhere)]
  sets := []

/-! ## matches -/

/-- The three ways to write a match with a body that is accepted. -/
def matchPatterns : Anchor → List Pattern
  | .atStart => [
      Pattern.ofText
        "(send $!nil? {:match :=~ :match?} (regexp (str $#literal_at_start?) (regopt)))"
        bodyEnvironment,
      Pattern.ofText "(send (regexp (str $#literal_at_start?) (regopt)) {:match :match?} $_)"
        bodyEnvironment,
      Pattern.ofText "(match_with_lvasgn (regexp (str $#literal_at_start?) (regopt)) $_)"
        bodyEnvironment]
  | .atEnd => [
      Pattern.ofText "(send $!nil? {:match :=~ :match?} (regexp (str $#literal_at_end?) (regopt)))"
        bodyEnvironment,
      Pattern.ofText "(send (regexp (str $#literal_at_end?) (regopt)) {:match :match?} $_)"
        bodyEnvironment,
      Pattern.ofText "(match_with_lvasgn (regexp (str $#literal_at_end?) (regopt)) $_)"
        bodyEnvironment]
  | .anywhere => [
      Pattern.ofText "(send $!nil? {:match :=~ :match?} (regexp (str $#literal_only?) (regopt)))"
        bodyEnvironment,
      Pattern.ofText "(send (regexp (str $#literal_only?) (regopt)) {:match :match?} $_)"
        bodyEnvironment,
      Pattern.ofText "(match_with_lvasgn (regexp (str $#literal_only?) (regopt)) $_)"
        bodyEnvironment]

/-- The operand and the body, which come in either order. -/
def operandAndBody? {t : SyntaxTree} (captures : Pattern.Captures t) : Option (Node t × String) :=
  match captures.node? 0, captures.node? 1 with
  | some operand, none => (captures.str? 1).map (operand, ·)
  | none, some operand => (captures.str? 0).map (operand, ·)
  | _, _ => none

def matchVerdict (a : Anchor) (message : String) {t : SyntaxTree} (n : Node t) : Verdict := do
  let some captures := (matchPatterns a).findSome? (·.match? n) | return none
  let some (operand, body) := operandAndBody? captures | return none
  let subject ← operand.text
  return some (.replacing n.span message n.span
    (subject ++ "." ++ a.question ++ "(" ++ a.literalFor body ++ ")"))

/-- A rule about matches.  Its correction answers with a truth value where the match may have
answered with a place. -/
def matchRule (a : Anchor) (name description message : String) : Rule :=
  { performance name description [.send, .matchAssign] fun _ n => matchVerdict a message n with
    methods? := some ["match", "=~", "match?"]
    isSafe := false }

def startWith : Rule := matchRule .atStart "StartWith"
  "Use String#start_with? instead of a regexp anchored to the beginning of the string"
  "Use `String#start_with?` instead of a regex match anchored to the beginning of the string."

def endWith : Rule := matchRule .atEnd "EndWith"
  "Use String#end_with? instead of a regexp anchored to the end of the string"
  "Use `String#end_with?` instead of a regex match anchored to the end of the string."

def stringInclude : Rule := matchRule .anywhere "StringInclude"
  "Use String#include? instead of a regexp match with a literal-only pattern"
  "Use `String#include?` instead of a regex match with literal-only pattern."

/-! ## substitutions -/

def deletionAtStart : Pattern := Pattern.ofText
  "(send $!nil? ${:gsub :gsub! :sub :sub!} (regexp (str $#literal_at_start?) (regopt)) $str)"
  bodyEnvironment

def deletionAtEnd : Pattern := Pattern.ofText
  "(send $!nil? ${:gsub :gsub! :sub :sub!} (regexp (str $#literal_at_end?) (regopt)) $str)"
  bodyEnvironment

/-- The mark of a method that changes its receiver. -/
def bangOf (method : String) : String := if method.toList.getLast? == some '!' then "!" else ""

/-- A substitution of an anchored text by nothing. -/
def deletionVerdict (a : Anchor) (pattern : Pattern) (deletion : String) {t : SyntaxTree}
    (n : Node t) : Verdict := do
  let some captures := pattern.match? n | return none
  let some receiver := captures.node? 0 | return none
  let some method := captures.sym? 1 | return none
  let some body := captures.str? 2 | return none
  let some replacement := captures.node? 3 | return none
  if replacement.strValue? != some "" then return none
  let preferred := deletion ++ bangOf method
  let subject ← receiver.text
  return some (.replacing n.selectorSpan s!"Use `{preferred}` instead of `{method}`." n.span
    (subject ++ "." ++ preferred ++ "(" ++ a.literalFor body ++ ")"))

def deletionRule (a : Anchor) (pattern : Pattern) (deletion name description : String) : Rule :=
  { performance name description [.send] fun _ n => deletionVerdict a pattern deletion n with
    methods? := some ["gsub", "gsub!", "sub", "sub!"]
    minimum? := some ⟨2, 5⟩ }

def deletePrefix : Rule := deletionRule .atStart deletionAtStart "delete_prefix" "DeletePrefix"
  "Use delete_prefix instead of substituting an anchored literal with an empty string"

def deleteSuffix : Rule := deletionRule .atEnd deletionAtEnd "delete_suffix" "DeleteSuffix"
  "Use delete_suffix instead of substituting an anchored literal with an empty string"

/-! ## splitting -/

def splitAtRegexp : Pattern :=
  Pattern.ofText "(send !nil? :split $(regexp (str _) (regopt)))" .empty

/-- The body of a regular expression between slashes. -/
def slashedBody? : List Char → Option (List Char)
  | '/' :: cs => if cs.getLast? = some '/' then some cs.dropLast else none
  | _ => none

/-- A split at a text in disguise, other than a single blank, at which `split` would take whole
runs of blanks away. -/
def splitVerdict {t : SyntaxTree} (n : Node t) : Verdict := do
  let some regexp := (splitAtRegexp.match? n).bind (·.node? 0) | return none
  let text ← regexp.text
  if !Literal.isLiteralRegexp text.toList then return none
  let some body := slashedBody? text.toList | return none
  if body = [' '] then return none
  return some (.replacing regexp.span "Use string as argument instead of regexp." regexp.span
    (String.ofList (Literal.doubleQuoted (Literal.readEscapes body))))

def redundantSplitRegexpArgument : Rule :=
  { performance "RedundantSplitRegexpArgument"
      "Use a string instead of a literal-only regexp as the argument of split" [.send]
      fun _ n => splitVerdict n with
    methods? := some ["split"] }

end RubyLint.Rule
