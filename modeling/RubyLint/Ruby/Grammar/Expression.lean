import RubyLint.Ruby.Grammar.Pattern

/-!
# Expressions

Operators, assignments and their targets.  An `argument` may stand between other signs; an
`expression` may also be a command.
-/

namespace RubyLint.Ruby

open Ruby.Rule Phrase

def literal : Rule := oneOf [
  plainLiteral, string, chainedString, shape .character, scanned .heredocBeginning, subshell,
  regex, array, stringArray, symbolArray, hashLiteral]

/-- The constructs between a word and `end`. -/
def construct : Rule := oneOf [
  methodDefinition, singletonMethod, classDefinition, singletonClass, moduleDefinition,
  beginBlock, whileLoop, untilLoop, ifBranch, unlessBranch, forLoop, caseOf, caseMatch]

/-- The jumps, which take no bare arguments where an operand stands. -/
def jumpWithoutArguments : Rule :=
  oneOf [returnJump, yieldCall, breakJump, nextJump, redoJump, retryJump]

def expressionRules : List Definition := [
  hidden expression (oneOf [
    named .binary commandBinary, named .unary commandUnary, named .assignment commandAssignment,
    named .operatorAssignment commandOperatorAssignment, named .call commandCall,
    named .call commandCallWithBlock, leftAt 0 (named .call chainedCommand),
    named .returnJump returnCommand, named .yieldCall yieldCommand,
    named .breakJump breakCommand, named .nextJump nextCommand, matchPattern, testPattern,
    argument]),
  shown matchPattern (.other "match_pattern")
    (atLevel 100 (all [part .value argument, "=>", part .pattern topPattern])),
  shown testPattern (.other "test_pattern")
    (atLevel 100 (all [part .value argument, "in", part .pattern topPattern])),
  hidden argument (oneOf [
    named .unary negatedPower, atLevel (-1) primary, assignment, operatorAssignment,
    conditional, range, binary, unary]),
  hidden primary (oneOf [literal, construct, jumpWithoutArguments, parenthesized, target,
    named .call markedNameCall, call, lambda, named .unary parenthesizedUnary])]

/-! ## assignments -/

/-- What is assigned: the value, or the value with another one for when it fails. -/
def assigned (value rescued : Phrase) : Rule :=
  part .right (oneOf [value, named (.other "rescue_modifier") rescued])

/-- The signs of assignments that work on the value that is there. -/
def assignmentSigns : List String :=
  ["+=", "-=", "*=", "**=", "/=", "||=", "|=", "&&=", "&=", "%=", ">>=", "<<=", "^="]

def operatorAssignmentOf (value rescued : Phrase) : Rule :=
  rightAt Level.assign (all [
    part .left target, part .operator (oneOf (assignmentSigns.map ofText)),
    assigned value rescued])

def assignmentRules : List Definition := [
  shown assignment .assignment (rightAt Level.assign (all [
    part .left (oneOf [target, leftAssignmentList]), "=",
    part .right (oneOf [
      argument, splatArgument, rightAssignmentList,
      named (.other "rescue_modifier") rescuedArgument])])),
  shown commandAssignment (.other "command_assignment") (rightAt Level.assign (all [
    part .left (oneOf [target, leftAssignmentList]), "=",
    assigned expression rescuedExpression])),
  shown operatorAssignment .operatorAssignment (operatorAssignmentOf argument rescuedArgument),
  shown commandOperatorAssignment (.other "command_operator_assignment")
    (operatorAssignmentOf expression rescuedExpression),
  shown rightAssignmentList .rightAssignmentList
    (atLevel (-1) (commas (oneOf [argument, splatArgument]))),
  shown leftAssignmentList .leftAssignmentList targets,
  hidden targets
    (leftAt (-1) (all [commas (oneOf [target, restTarget, destructuredTarget]), maybe ","])),
  shown destructuredTarget (.other "destructured_left_assignment")
    (atLevel (-1) (all ["(", targets, ")"])),
  shown restTarget (.other "rest_assignment")
    (atLevel (-1) (all [asToken (scanned .splatStar), maybe target])),
  hidden target (leftAt 0 (oneOf [
    variableName, "true", "false", nilWord, scopeResolution, elementReference,
    named .call methodPath])),
  hidden variableName
    (rightAt 0 (oneOf ["self", "super", nonlocalVariable, identifier, constant])),
  hidden nonlocalVariable (rightAt 0 (oneOf [
    shape .instanceVariable, shape .classVariable, shape .globalVariable]))]

/-! ## operators -/

def between (operator : Rule) : Rule :=
  all [part .left argument, part .operator operator, part .right argument]

/-- An operator in front of its operand. -/
def before (operator : Rule) (operand : Phrase) : Rule :=
  all [part .operator operator, part .operand operand]

/-- The operators in front of an operand; a minus may be one of several tokens. -/
def prefixed (minus : List Rule) (operand : Phrase) : Rule := oneOf [
  atLevel Level.defined (before "defined?" operand),
  rightAt Level.not (before "not" operand),
  rightAt Level.minus (before (oneOf (minus ++ [ofText "+"])) operand),
  rightAt Level.complement (before (oneOf ["!", "~"]) operand)]

def operatorRules : List Definition := [
  shown conditional .conditional (rightAt Level.conditional (all [
    part .condition argument, "?", part .consequence argument, ":",
    part .alternative argument])),
  shown range .range (rightAt Level.range (oneOf [
    all [part .lower argument, dots, part .upper argument],
    all [dots, part .upper argument],
    all [part .lower argument, dots]])),
  shown binary .binary (oneOf [
    leftAt Level.and (between "&&"),
    leftAt Level.or (between "||"),
    leftAt Level.shift (between (oneOf ["<<", ">>"])),
    leftAt Level.comparison (between (oneOf ["<", "<=", ">", ">="])),
    leftAt Level.bitAnd (between "&"),
    leftAt Level.bitOr (between (oneOf ["^", "|"])),
    leftAt Level.sum (between (oneOf ["+", asToken (scanned .binaryMinus)])),
    leftAt Level.product (between (oneOf ["/", "%", asToken (scanned .binaryStar)])),
    rightAt Level.equality (between (oneOf ["==", "!=", "===", "<=>", "=~", "!~"])),
    rightAt Level.power (between (asToken (scanned .binaryStars)))]),
  shown commandBinary (.other "command_binary") (leftAt 0 (all [
    part .left expression, part .operator (oneOf ["or", "and"]), part .right expression])),
  shown unary .unary
    (prefixed [asToken (scanned .unaryMinus), asToken (scanned .binaryMinus)] argument),
  shown commandUnary (.other "command_unary")
    (prefixed [asToken (scanned .unaryMinus)] expression),
  shown parenthesizedUnary (.other "parenthesized_unary")
    (atLevel 1 (before (oneOf ["defined?", "not"]) parenthesized)),
  hidden negatedPower (all [
    part .operator (asToken (scanned .numberMinus)),
    part .operand (named .binary numericPower)]),
  hidden numericPower (rightAt Level.power (all [
    part .left simpleNumeric, part .operator (asToken (scanned .binaryStars)),
    part .right argument]))]

end RubyLint.Ruby
