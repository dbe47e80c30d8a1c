/-!
# Phrases

The names that the rules of the grammar define and use.  Some of them are nodes of concrete trees;
others only group alternatives or parts.
-/

namespace RubyLint.Ruby

inductive Phrase where
  -- texts and statements
  | program
  | statements
  | statement
  | emptyStatement
  | terminator
  | parenthesized
  | blockBody
  | beginHook
  | endHook
  | undefinition
  | aliasDefinition
  | ifModifier
  | unlessModifier
  | whileModifier
  | untilModifier
  | rescueModifier
  -- bodies and branches
  | bodyStatement
  | guardedStatements
  | beginBlock
  | rescuePart
  | exceptions
  | exceptionVariable
  | ensurePart
  | ifBranch
  | unlessBranch
  | elsifBranch
  | elseBranch
  | thenPart
  | whileLoop
  | untilLoop
  | forLoop
  | inPart
  | doPart
  | caseOf
  | whenBranch
  | whenPattern
  -- definitions and parameters
  | methodDefinition
  | singletonMethod
  | methodRest
  | methodName
  | setterName
  | operatorName
  | bodyExpression
  | rescuedArgument
  | rescuedExpression
  | classDefinition
  | superclassPart
  | singletonClass
  | moduleDefinition
  | parameters
  | bareParameters
  | blockParameters
  | formalParameter
  | simpleParameter
  | forwardParameter
  | splatParameter
  | hashSplatParameter
  | hashSplatNil
  | blockParameter
  | keywordParameter
  | optionalParameter
  -- patterns
  | caseMatch
  | inClause
  | inGuard
  | ifGuard
  | unlessGuard
  | topPattern
  | anyPattern
  | asPattern
  | eitherPattern
  | alternativePattern
  | basicPattern
  | parenthesizedPattern
  | openArrayPattern
  | arrayPatternBody
  | arrayPattern
  | findPatternBody
  | findPattern
  | hashPatternBody
  | hashPatternRest
  | hashPattern
  | keywordPattern
  | valuePattern
  | rangePattern
  | primitivePattern
  | lambdaPattern
  | literalPattern
  | wordVariable
  | variableReference
  | expressionReference
  | constantPattern
  | constantPath
  -- calls and arguments
  | call
  | commandCall
  | commandCallWithBlock
  | chainedCommand
  | methodPath
  | callOperator
  | markedName
  | markedNameCall
  | markedIdentifier
  | markedConstant
  | commandArguments
  | argumentList
  | argumentsInBrackets
  | listedArgument
  | forwardArgument
  | splatArgument
  | hashSplatArgument
  | blockArgument
  | doBlock
  | block
  | lambda
  | elementReference
  | scopeResolution
  | returnCommand
  | yieldCommand
  | breakCommand
  | nextCommand
  | returnJump
  | yieldCall
  | breakJump
  | nextJump
  | redoJump
  | retryJump
  -- expressions
  | expression
  | argument
  | primary
  | matchPattern
  | testPattern
  | assignment
  | commandAssignment
  | operatorAssignment
  | commandOperatorAssignment
  | conditional
  | range
  | binary
  | commandBinary
  | unary
  | commandUnary
  | parenthesizedUnary
  | negatedPower
  | numericPower
  | rightAssignmentList
  | leftAssignmentList
  | targets
  | destructuredTarget
  | restTarget
  | target
  | variableName
  | nonlocalVariable
  -- literals
  | plainLiteral
  | numeric
  | simpleNumeric
  | integerOrFloat
  | complexNumber
  | rationalNumber
  | unaryLiteral
  | nilWord
  | string
  | chainedString
  | subshell
  | stringArray
  | symbolArray
  | delimitedSymbol
  | regex
  | interpolation
  | heredocBody
  | array
  | hashLiteral
  | pair
deriving DecidableEq

namespace Phrase

/-- Phrases are numbered in the order above. -/
def number (p : Phrase) : Nat := p.ctorIdx

def count : Nat := pair.number + 1

end Phrase

end RubyLint.Ruby
