import RubyLint.Pattern.Match
import RubyLint.Rule.Basic

/-!
# Rules about conditions

Conditions that do not change while a program runs, questions for which there is an operator, and
chains of conditions in which a cheap one stands behind a dear one.
-/

namespace RubyLint.Rule

/-! ## constants of the interpreter -/

def interpreterConstants : List String := [
  "RUBY_VERSION", "RUBY_RELEASE_DATE", "RUBY_PLATFORM", "RUBY_PATCHLEVEL", "RUBY_REVISION",
  "RUBY_COPYRIGHT", "RUBY_ENGINE", "RUBY_ENGINE_VERSION", "RUBY_DESCRIPTION"]

def comparisonOperators : List String := ["<", "<=", "==", ">=", ">", "=~", "==="]

def constantEnvironment : Pattern.Environment where
  predicates := []
  sets := [("CONSTANTS", interpreterConstants), ("OPERATORS", comparisonOperators)]

def branchOnConstant : Pattern := Pattern.ofText
  "(def _ _
    (if {(send (const nil? CONSTANTS) OPERATORS _) (send _ OPERATORS (const nil? CONSTANTS))} _ _))"
  constantEnvironment

def branchVerdict {t : SyntaxTree} (n : Node t) : Verdict :=
  if branchOnConstant.isMatch n then
    .ok (some (.plain n.span ("Move conditional logic outside of the method body definition to " ++
      "improve performance by avoiding repeated evaluation of constant condition.")))
  else .ok none

def conditionalDefinition : Rule :=
  performance "ConditionalDefinition"
    "Move conditions on interpreter constants outside of method bodies" [.methodDef]
    fun _ n => branchVerdict n

/-! ## definedness -/

def reflectionCheck : Pattern := Pattern.ofText
  "(send nil?
    ${:class_variable_defined? :const_defined? :instance_variable_defined?}
    $basic_literal? (true)?)" .empty

/-- Only the truth of the node's value counts, seen from the given ancestors: it is the test of a
branch or of a loop, or an operand of a conjunction or a disjunction, perhaps at the end of
sequences or in parentheses. -/
def isTestIn {t : SyntaxTree} (n : Node t) : List (Node t) → Bool
  | [] => false
  | p :: rest =>
    match p.kind with
    | .sequence => isTestIn p rest
    | .conditional | .whileLoop | .untilLoop => p.childNode? 0 == some n
    | .conjunction | .disjunction => true
    | _ => false

def givenName {t : SyntaxTree} (n : Node t) : Except RuleFault String :=
  match n.symValue? <|> n.strValue? with
  | some name => .ok name
  | none => n.text

def definedVerdict {t : SyntaxTree} (n : Node t) : Verdict := do
  let some captures := reflectionCheck.match? n | return none
  let some method := captures.sym? 0 | return none
  let some expression := captures.node? 1 | return none
  let some selector := n.loc.selector | return none
  let name ← givenName expression
  let question := "defined?(" ++ name ++ ")"
  let replacement := if isTestIn n n.ancestors then question else "!" ++ question ++ ".nil?"
  return some (.replacing selector s!"Use `defined?` instead of `{method}`." n.span replacement)

def defined : Rule :=
  { performance "Defined" "Use defined? instead of reflection predicates" [.send]
      fun _ n => definedVerdict n with
    methods? :=
      some ["class_variable_defined?", "const_defined?", "instance_variable_defined?"] }

/-! ## conjunctions -/

def operands? {t : SyntaxTree} (n : Node t) : Option (Node t × Node t) := do
  return (← n.childNode? 0, ← n.childNode? 1)

/-- The last operand of a chain of conjunctions that is no variable, except for the first operand of
the chain. -/
def lastDear? {t : SyntaxTree} (n : Node t) : Option (Node t) :=
  match n.childNode? 1 with
  | none => none
  | some right =>
    match _h : n.childNode? 0 with
    | none => none
    | some left =>
      if !right.isVariable then some right
      else if left.kind = .conjunction then lastDear? left
      else none
termination_by n.index
decreasing_by exact Node.childNode?_lt _h

def conjunctionMessage : String :=
  "Use short-circuit logic with cheaper expressions first to avoid unnecessary method calls."

/-- A conjunction in which two operands should change places. -/
def exchanging {t : SyntaxTree} (n first second : Node t) : Verdict :=
  match Correction.empty.swap first second with
  | some correction =>
    .ok (some ((Finding.plain n.span conjunctionMessage).withCorrection correction))
  | none => .error (.unreadable n.span)

/-- One pair of operands at a time; later passes see to the others. -/
def conjunctionVerdict {t : SyntaxTree} (n : Node t) : Verdict :=
  match operands? n with
  | none => .ok none
  | some (left, right) =>
    if !right.isVariable then .ok none
    else if left.kind ≠ .conjunction then
      if left.isVariable then .ok none else exchanging n left right
    else match lastDear? left with
      | some dear => exchanging n right dear
      | none => .ok none

def shortCircuitAnd : Rule :=
  performance "ShortCircuitAnd" "Evaluate cheap variables before method calls in && chains"
    [.conjunction] fun _ n => conjunctionVerdict n

end RubyLint.Rule
