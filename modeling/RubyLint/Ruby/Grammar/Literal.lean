import RubyLint.Ruby.Grammar.Pattern

/-!
# Literals

Numbers, strings and what is written like strings, arrays, hashes and pairs.
-/

namespace RubyLint.Ruby

open Ruby.Rule Phrase

def numberRules : List Definition := [
  hidden plainLiteral (oneOf [scanned .simpleSymbol, delimitedSymbol, numeric]),
  hidden numeric (oneOf [simpleNumeric, named .unary unaryLiteral]),
  hidden simpleNumeric (oneOf [shape .integer, shape .float, complexNumber, rationalNumber]),
  hidden integerOrFloat (oneOf [shape .integer, shape .float]),
  shown complexNumber (.other "complex") (oneOf [
    all [integerOrFloat, "i"], all [named (.other "rational") integerOrFloat, "ri"]]),
  shown rationalNumber (.other "rational") (all [integerOrFloat, "r"]),
  shown unaryLiteral (.other "unary_literal") (rightAt Level.minus (all [
    part .operator (oneOf [asToken (scanned .numberMinus), "+"]),
    part .operand simpleNumeric])),
  shown nilWord .nilWord "nil"]

/-! ## text -/

/-- What stands between the delimiters of a literal. -/
def literalContents : Rule :=
  several (oneOf [scanned .stringContent, interpolation, shape .escape])

/-- A literal from its opening delimiter to the closing one. -/
def delimited (opening : Scanned) : Rule :=
  all [asToken (scanned opening), maybe literalContents, asToken (scanned .stringEnd)]

/-- A literal whose elements are separated by blanks. -/
def delimitedWords (opening : Scanned) (element : Construct) : Rule := all [
  asToken (scanned opening), maybe (shape .blankRun),
  maybe (separated (shape .blankRun) (named element literalContents)), maybe (shape .blankRun),
  asToken (scanned .stringEnd)]

def textRules : List Definition := [
  shown string .string (delimited .stringStart),
  shown chainedString .chainedString (all [string, several string]),
  shown subshell (.other "subshell") (delimited .subshellStart),
  shown delimitedSymbol .delimitedSymbol (delimited .symbolStart),
  shown regex .regex (delimited .regexStart),
  shown stringArray .stringArray (delimitedWords .stringArrayStart .bareString),
  shown symbolArray .symbolArray (delimitedWords .symbolArrayStart .bareSymbol),
  shown interpolation .interpolation (oneOf [
    all ["#\x7b", maybe innerStatements, "\x7d"],
    all [scanned .shortInterpolation, nonlocalVariable]]),
  shown heredocBody .heredocBody (all [
    scanned .heredocBodyStart,
    many (oneOf [scanned .heredocContent, interpolation, shape .escape]),
    scanned .heredocEnd])]

/-! ## collections -/

def collectionRules : List Definition := [
  shown array .array (all ["[", maybe argumentsInBrackets, "]"]),
  shown hashLiteral .hash (all [
    "\x7b", maybe (all [commas (oneOf [pair, hashSplatArgument]), maybe ","]), "\x7d"]),
  shown pair .pair (rightAt 0 (oneOf [
    all [part .key argument, "=>", part .value argument],
    all [part .key string, tight ":", part .value argument],
    all [
      part .key (oneOf [scanned .hashKeySymbol, namedKey]), tight ":",
      oneOf [maybe (part .value argument), scanned .noLineBreak]]]))]

end RubyLint.Ruby
