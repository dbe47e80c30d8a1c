import RubyLint.Ruby.Grammar.Rule

/-!
# Calls

Calls with and without parentheses, their arguments and blocks, and the jumps that take arguments.
A command is a call whose arguments stand without parentheses.
-/

namespace RubyLint.Ruby

open Ruby.Rule Phrase

/-- The method that is called, with or without a receiver. -/
def called : Rule := oneOf [methodPath, part .method (oneOf [variableName, markedName])]

def nameBehindDot : Rule :=
  part .method (oneOf [identifier, markedName, operatorName, constant])

def bareArguments : Rule := part .arguments (named .argumentList commandArguments)

/-- A call with its arguments in parentheses. -/
def calledWithArguments : Rule := all [
  oneOf [called, leftAt 0 (all [part .receiver primary, part .operator callOperator])],
  part .arguments argumentList]

/-- A block between braces or between words. -/
def bracesBlock : Rule := part .block block
def wordsBlock : Rule := part .block doBlock

def callRules : List Definition := [
  shown call .call (oneOf [
    calledWithArguments,
    atLevel 1 (all [calledWithArguments, bracesBlock]),
    atLevel 1 (all [called, bracesBlock]),
    atLevel (-1) (all [calledWithArguments, wordsBlock]),
    atLevel (-1) (all [called, wordsBlock])]),
  shown commandCall (.other "command_call")
    (leftAt 0 (all [oneOf [called, chainedCommand], bareArguments])),
  shown commandCallWithBlock (.other "command_call_with_block") (oneOf [
    all [called, atLevel 1 (all [bareArguments, bracesBlock])],
    all [called, atLevel (-1) (all [bareArguments, wordsBlock])]]),
  hidden chainedCommand (all [
    part .receiver (named .call commandCallWithBlock), part .operator callOperator,
    nameBehindDot]),
  hidden methodPath (leftAt (-1) (all [
    part .receiver primary, part .operator callOperator, nameBehindDot])),
  hidden callOperator (oneOf [".", "&.", tight "::"]),
  hidden markedName
    (oneOf [named .identifier markedIdentifier, named .constant markedConstant]),
  hidden markedNameCall (leftAt 0 (part .method markedName)),
  shown markedIdentifier (.other "marked_identifier")
    (oneOf [shape .identifierSuffix, scanned .markedIdentifier]),
  shown markedConstant (.other "marked_constant")
    (oneOf [shape .constantSuffix, scanned .markedConstant]),
  shown elementReference .elementReference (leftAt 1 (all [
    part .object primary, asToken (scanned .elementBracket), maybe argumentsInBrackets, "]"])),
  shown scopeResolution .scopeResolution (leftAt 1 (all [
    oneOf ["::", all [part .scope primary, tight "::"]], part .name constant]))]

def argumentRules : List Definition := [
  shown commandArguments (.other "command_arguments") (rightAt 0 (commas listedArgument)),
  shown argumentList .argumentList (rightAt 0 (all [tight "(", maybe argumentsInBrackets, ")"])),
  hidden argumentsInBrackets (rightAt 0 (all [commas listedArgument, maybe ","])),
  hidden listedArgument (leftAt 0 (oneOf [
    expression, splatArgument, hashSplatArgument, forwardArgument, blockArgument, pair])),
  shown forwardArgument (.other "forward_argument") "...",
  shown splatArgument .splatArgument
    (rightAt 0 (all [asToken (scanned .splatStar), maybe argument])),
  shown hashSplatArgument .hashSplatArgument
    (rightAt 0 (all [asToken (scanned .hashSplatStars), maybe argument])),
  shown blockArgument .blockArgument
    (rightAt 0 (all [asToken (scanned .blockAmpersand), maybe argument]))]

def blockRules : List Definition := [
  shown doBlock (.other "do_block") (all [
    "do", maybe terminator, maybe (all [part .parameters blockParameters, maybe terminator]),
    maybe (part .body bodyStatement), "end"]),
  shown block (.other "block") (atLevel 1 (all [
    "\x7b", part .parameters (maybe blockParameters), maybe (part .body blockBody), "\x7d"])),
  shown lambda (.other "lambda") (all [
    "->",
    part .parameters (maybe (named .lambdaParameters (oneOf [parameters, bareParameters]))),
    part .body (oneOf [block, doBlock])])]

/-- A jump with arguments in parentheses or none. -/
def jump (opener : String) : Rule := leftAt 0 (all [opener, maybe argumentList])

/-- A jump with arguments that stand bare. -/
def commandJump (opener : String) : Rule :=
  leftAt 0 (all [opener, named .argumentList commandArguments])

def jumpRules : List Definition := [
  shown returnJump .returnJump (jump "return"),
  shown yieldCall .yieldCall (jump "yield"),
  shown breakJump .breakJump (jump "break"),
  shown nextJump .nextJump (jump "next"),
  shown redoJump (.other "redo") (jump "redo"),
  shown retryJump (.other "retry") (jump "retry"),
  shown returnCommand (.other "return_command") (commandJump "return"),
  shown yieldCommand (.other "yield_command") (commandJump "yield"),
  shown breakCommand (.other "break_command") (commandJump "break"),
  shown nextCommand (.other "next_command") (commandJump "next")]

end RubyLint.Ruby
