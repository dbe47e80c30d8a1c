import RubyLint.Edit.Correction
import RubyLint.RubyVersion
import RubyLint.Severity
import RubyLint.Text.Position

/-!
# Rules

A `Rule` is asked about the nodes of the kinds it names and answers with offenses.  What becomes of
them (whether they are reported, and how much they weigh) is not the rule's business, and nothing
keeps a rule from answering with offenses in the name of another one.

A rule of this library makes its offenses from findings: a span, a message and, where it knows one,
a correction.  It may fail on a node, but does so only when a span that it reads does not cut the
text between characters.
-/

namespace RubyLint

/-- A finding of a rule as it is reported, with the position of its start. -/
structure Offense where
  rule : String
  severity : Severity
  message : String
  span : Span
  position : Text.Position
  correction : Option Correction
deriving DecidableEq, Inhabited

namespace Offense

def isCorrectable (o : Offense) : Bool := o.correction.isSome

end Offense

/-- What a rule of the library has found. -/
structure Finding where
  span : Span
  message : String
  correction : Option Correction
deriving DecidableEq, Inhabited

namespace Finding

/-- A finding that the rule cannot mend. -/
def plain (span : Span) (message : String) : Finding := ⟨span, message, none⟩

/-- Adds a correction, unless it has no edits. -/
def withCorrection (f : Finding) (c : Correction) : Finding :=
  if c.isEmpty then f else { f with correction := some c }

/-- A finding that one replacement mends. -/
def replacing (span : Span) (message : String) (place : Span) (text : String) : Finding :=
  (plain span message).withCorrection (Correction.empty.replace place text)

/-- The finding in a text as the rule reports it. -/
def toOffense (f : Finding) (rule : String) (severity : Severity) (source : List Char) :
    Offense where
  rule := rule
  severity := severity
  message := f.message
  span := f.span
  position := Text.positionOf source f.span.start
  correction := f.correction

end Finding

/-- Why a rule has no answer. -/
inductive RuleFault where
  /-- there is no text between the ends of the span -/
  | unreadable (span : Span)
  | failed (reason : String)
deriving DecidableEq, Inhabited

/-- The answer of a rule that finds at most one thing at a node. -/
abbrev Verdict := Except RuleFault (Option Finding)

/-- What comes of asking a rule about a node. -/
structure Evaluation where
  offenses : Except RuleFault (List Offense)
  /-- the run is to be abandoned -/
  cancels : Bool

/-- The answer of a rule that reports its finding in the given way. -/
def Evaluation.ofVerdict (report : Finding → Offense) (v : Verdict) : Evaluation :=
  ⟨v.map fun found => found.toList.map report, false⟩

/-- What a rule is told besides the node. -/
structure RuleContext where
  target : RubyVersion
  /-- the size from which a literal in a loop is reported -/
  loopLiteralSize : Nat
  /-- the size from which a literal in a method is reported -/
  methodLiteralSize : Nat
deriving DecidableEq, Inhabited

/-- A check of the nodes of some kinds. -/
structure Rule where
  id : String
  name : String
  description : String
  /-- how much the offenses weigh if nothing else is said -/
  severity : Severity
  /-- the kinds of the nodes that the rule is asked about -/
  kinds : List Kind
  /-- of calls, only those of these methods -/
  methods? : Option (List String)
  /-- the first version that has what the rule suggests -/
  minimum? : Option RubyVersion
  /-- the corrections keep what the program does in every case -/
  isSafe : Bool
  evaluate : {t : SyntaxTree} → RuleContext → Node t → Evaluation

namespace Rule

def find? (rules : List Rule) (id : String) : Option Rule := rules.find? fun r => r.id == id

/-- The rule is asked about nodes of the kind. -/
def triggers (r : Rule) (kind : Kind) : Bool := r.kinds.contains kind

/-- A rule of the department for performance, which weighs as a warning and is asked about every
node of the kinds. -/
def performance (name description : String) (kinds : List Kind)
    (check : {t : SyntaxTree} → RuleContext → Node t → Verdict) : Rule where
  id := "Performance/" ++ name
  name := name
  description := description
  severity := .warning
  kinds := kinds
  methods? := none
  minimum? := none
  isSafe := true
  evaluate := fun {t} context n => Evaluation.ofVerdict
    (fun f => f.toOffense ("Performance/" ++ name) .warning t.source.toList) (check context n)

/-- The rule concerns the node: calls only if they name one of the rule's methods. -/
def concerns (r : Rule) {t : SyntaxTree} (n : Node t) : Bool :=
  match r.methods? with
  | some methods => !n.isCall || n.methodName?.any methods.contains
  | none => true

end Rule

namespace Node

variable {t : SyntaxTree}

def text (n : Node t) : Except RuleFault String :=
  match n.source? with
  | some text => .ok text
  | none => .error (.unreadable n.span)

/-- The name in a call, or the whole node where none is known. -/
def selectorSpan (n : Node t) : Span := n.loc.selector.getD n.span

end Node

end RubyLint
