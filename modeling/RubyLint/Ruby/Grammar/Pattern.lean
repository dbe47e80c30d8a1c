import RubyLint.Ruby.Grammar.Statement

/-!
# Patterns

Pattern matching: the clauses of a case, and the patterns that values are matched against.
-/

namespace RubyLint.Ruby

open Ruby.Rule Phrase

/-- The name of a key in front of its colon. -/
def namedKey : Rule := named .hashKeySymbol
  (oneOf [identifier, constant, markedIdentifier, markedConstant])

/-- A constant with a pattern in brackets right behind it. -/
def constantWith (body : Rule) : Rule := oneOf [
  all [constantPattern, tight "[", body, "]"],
  all [constantPattern, tight "(", body, ")"]]

def dots : Rule := part .operator (oneOf ["..", "..."])

def matchRules : List Definition := [
  shown caseMatch (.other "case_match") (all [
    caseHead (part .value statement), several inClause, caseTail]),
  shown inClause (.other "in_clause") (all [
    "in", part .pattern topPattern, maybe inGuard, oneOf [terminator, consequenceIn .body]]),
  hidden inGuard (oneOf [ifGuard, unlessGuard]),
  shown ifGuard (.other "if_guard") (all ["if", part .condition expression]),
  shown unlessGuard (.other "unless_guard") (all ["unless", part .condition expression])]

def patternRules : List Definition := [
  hidden topPattern (atLevel (-1) (oneOf [
    anyPattern, named (.other "array_pattern") openArrayPattern,
    named (.other "find_pattern") findPatternBody,
    named (.other "hash_pattern") hashPatternBody])),
  hidden anyPattern (oneOf [asPattern, eitherPattern]),
  shown asPattern (.other "as_pattern")
    (all [part .value anyPattern, "=>", part .name identifier]),
  hidden eitherPattern (oneOf [alternativePattern, basicPattern]),
  shown alternativePattern (.other "alternative_pattern")
    (all [basicPattern, several (all ["|", basicPattern])]),
  hidden basicPattern (rightAt (-1) (oneOf [
    valuePattern, identifier, arrayPattern, findPattern, hashPattern, parenthesizedPattern])),
  shown parenthesizedPattern (.other "parenthesized_pattern") (all ["(", anyPattern, ")"]),
  hidden openArrayPattern (rightAt 0 (oneOf [
    all [anyPattern, named .splatParameter ","],
    all [anyPattern, ",", oneOf [anyPattern, openArrayPattern]],
    all [splatParameter, many (all [",", anyPattern])]])),
  hidden arrayPatternBody (oneOf [anyPattern, openArrayPattern]),
  shown arrayPattern (.other "array_pattern") (rightAt (-1) (oneOf [
    all ["[", maybe arrayPatternBody, "]"], constantWith (maybe arrayPatternBody)])),
  hidden findPatternBody
    (all [splatParameter, several (all [",", anyPattern]), ",", splatParameter]),
  shown findPattern (.other "find_pattern") (rightAt (-1) (oneOf [
    all ["[", findPatternBody, "]"], constantWith findPatternBody])),
  hidden hashPatternBody (rightAt 0 (oneOf [
    all [commas keywordPattern, maybe ","], all [commas keywordPattern, ",", hashPatternRest],
    hashPatternRest])),
  hidden hashPatternRest (oneOf [hashSplatParameter, hashSplatNil]),
  shown hashPattern (.other "hash_pattern") (rightAt (-1) (oneOf [
    all ["\x7b", maybe hashPatternBody, "\x7d"], constantWith hashPatternBody])),
  shown keywordPattern (.other "keyword_pattern") (rightAt (-1) (all [
    part .key (oneOf [namedKey, string]), tight ":", maybe (part .value anyPattern)]))]

def valuePatternRules : List Definition := [
  hidden valuePattern (oneOf [
    primitivePattern, named .range rangePattern, variableReference, expressionReference,
    constantPattern]),
  hidden rangePattern (oneOf [
    all [part .lower primitivePattern, dots, part .upper primitivePattern],
    all [dots, part .upper primitivePattern],
    all [part .lower primitivePattern, dots]]),
  hidden primitivePattern (oneOf [literalPattern, lambdaPattern]),
  hidden lambdaPattern (rightAt (-1) lambda),
  hidden literalPattern (rightAt (-1) (oneOf [
    plainLiteral, string, subshell, scanned .heredocBeginning, regex, stringArray, symbolArray,
    wordVariable])),
  hidden wordVariable (rightAt (-1) (oneOf [
    nilWord, "self", "true", "false", "__LINE__", "__FILE__", "__ENCODING__"])),
  shown variableReference (.other "variable_reference_pattern")
    (all ["^", part .name (oneOf [identifier, nonlocalVariable])]),
  shown expressionReference (.other "expression_reference_pattern")
    (all ["^", "(", part .value expression, ")"]),
  hidden constantPattern (rightAt (-1) (oneOf [constant, named .scopeResolution constantPath])),
  hidden constantPath (all [maybe (part .scope constantPattern), "::", part .name constant])]

end RubyLint.Ruby
