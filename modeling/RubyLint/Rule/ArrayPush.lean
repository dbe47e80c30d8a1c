import RubyLint.Pattern.Match
import RubyLint.Rule.Basic

/-!
# Pushing a single element

`push` and `append` with one argument do what the operator `<<` does.  The operator needs
parentheses around an element that binds less tightly than it does, and around the whole where what
stands around it would group it in another way.
-/

namespace RubyLint.Rule

def pushOfOne : Pattern :=
  Pattern.ofText "(call $!nil? ${:push :append} $!{splat block_pass})" .empty

/-- The infix operators that bind as tightly as `<<` or less. -/
def looseOperators : List String :=
  ["<<", ">>", "&", "|", "^", "<", "<=", ">", ">=", "==", "!=", "===", "=~", "!~", "<=>"]

/-- The infix operators that bind as tightly as `<<` or more. -/
def tightOperators : List String := ["+", "-", "*", "/", "%", "**", "<<", ">>"]

/-- The call is written with one of the operators between its operands. -/
def isInfixOf (operators : List String) {t : SyntaxTree} (n : Node t) : Bool :=
  n.loc.dot.isNone && n.receiver?.isSome && n.hasArguments &&
    n.methodName?.any operators.contains

/-- The call has arguments and no parentheses around them. -/
def isCommandCall {t : SyntaxTree} (n : Node t) : Bool :=
  n.hasArguments && n.loc.opening.isNone && (n.loc.dot.isSome || n.receiver?.isNone)

def isWordNot {t : SyntaxTree} (n : Node t) : Except RuleFault Bool :=
  if n.isMethod "!" then do return "not".toList.isPrefixOf (← n.text).toList
  else .ok false

/-- The text does not end with a parenthesis. -/
def isOpenEnded {t : SyntaxTree} (n : Node t) : Except RuleFault Bool := do
  return (← n.text).toList.getLast? != some ')'

/-- The element binds less tightly than the operand of `<<` has to. -/
def isLoose {t : SyntaxTree} (n : Node t) : Except RuleFault Bool :=
  match n.kind with
  | .conjunction | .disjunction | .conditional | .whileLoop | .untilLoop | .inclusiveRange
  | .exclusiveRange | .matchAssign | .localAssign | .instanceAssign | .globalAssign
  | .classAssign | .constAssign | .opAssign | .orAssign | .andAssign => .ok true
  | .other name => .ok (name == "rescue_modifier" || name == "masgn")
  | .definedCheck => if n.loc.opening.isNone then isOpenEnded n else .ok false
  | .send | .safeSend => do
    return (← isWordNot n) || isInfixOf looseOperators n || isCommandCall n
  | .superCall | .yieldCall => if 0 < n.childCount then isOpenEnded n else .ok false
  | _ => .ok false

def operandText {t : SyntaxTree} (element : Node t) : Except RuleFault String := do
  let text ← element.text
  return if ← isLoose element then "(" ++ text ++ ")" else text

/-- The call is the receiver of another one, or the argument of a tight operator. -/
def needsWrapping {t : SyntaxTree} (n : Node t) : Bool :=
  match n.parent? with
  | some p => p.isCall && (p.receiver? == some n || isInfixOf tightOperators p)
  | none => false

/-- Pairs without braces cannot be an operand, and a block cannot belong to one. -/
def pushVerdict {t : SyntaxTree} (n : Node t) : Verdict := do
  let some captures := pushOfOne.match? n | return none
  let some receiver := captures.node? 0 | return none
  let some method := captures.sym? 1 | return none
  let some element := captures.node? 2 | return none
  if element.kind = .hash ∧ element.loc.opening.isNone then return none
  if n.blockNode?.isSome then return none
  let operand ← operandText element
  let subject ← receiver.text
  let operator := if n.isSafeNavigation then "&.<< " else " << "
  let pushed := subject ++ operator ++ operand
  let whole := if needsWrapping n then "(" ++ pushed ++ ")" else pushed
  return some (.replacing n.span s!"Use `<<` instead of `{method}`." n.span whole)

def arrayPushSingle : Rule :=
  { performance "ArrayPushSingle" "Use << instead of push or append with a single element"
      [.send, .safeSend] fun _ n => pushVerdict n with
    methods? := some ["push", "append"] }

end RubyLint.Rule
