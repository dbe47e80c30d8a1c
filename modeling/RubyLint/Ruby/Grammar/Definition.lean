import RubyLint.Ruby.Grammar.Rule

/-!
# Definitions

Methods with their names and parameters, classes and modules.
-/

namespace RubyLint.Ruby

open Ruby.Rule Phrase

/-- The body of a definition up to its end. -/
def bodyToEnd : Rule := all [maybe (part .body bodyStatement), "end"]

/-- The signs that may be names of methods. -/
def operatorNames : List String :=
  ["..", "|", "^", "&", "<=>", "==", "===", "=~", ">", ">=", "<", "<=", "+", "-", "*", "/", "%",
    "!", "!~", "**", "<<", ">>", "~", "+@", "-@", "~@", "[]", "[]=", "\x60"]

def methodRules : List Definition := [
  shown methodDefinition .methodDefinition (all ["def", methodRest]),
  shown singletonMethod .singletonMethod (all [
    "def", oneOf [part .object variableName, all ["(", part .object argument, ")"]],
    oneOf [".", "::"], methodRest]),
  hidden methodRest (all [
    part .name methodName,
    oneOf [
      bodyExpression,
      all [
        part .parameters (named .methodParameters parameters),
        oneOf [all [maybe terminator, bodyToEnd], bodyExpression]],
      all [
        maybe (part .parameters (named .methodParameters bareParameters)),
        terminator, bodyToEnd]]]),
  hidden methodName (oneOf [
    identifier, markedName, constant, setterName, scanned .simpleSymbol, delimitedSymbol,
    operatorName, nonlocalVariable]),
  shown setterName (.other "setter") (all [part .name identifier, tight "="]),
  shown operatorName (.other "operator") (oneOf (operatorNames.map ofText)),
  hidden bodyExpression (all [
    "=", part .body (oneOf [argument, named (.other "rescue_modifier") rescuedArgument])]),
  shown rescuedArgument (.other "rescued_argument")
    (atLevel Level.rescued (all [part .body argument, "rescue", argument])),
  shown rescuedExpression (.other "rescued_expression")
    (atLevel Level.rescued (all [part .body expression, "rescue", argument]))]

def parameterRules : List Definition := [
  shown parameters (.other "parameters")
    (atLevel 1 (all ["(", maybe (commas formalParameter), ")"])),
  shown bareParameters (.other "bare_parameters")
    (all [simpleParameter, many (all [",", formalParameter])]),
  shown blockParameters .blockParameters (all [
    "|", maybe (commas formalParameter), maybe ",", maybe (all [";", commas identifier]), "|"]),
  hidden formalParameter (oneOf [simpleParameter, named .destructuredParameter parameters]),
  hidden simpleParameter (oneOf [
    identifier, splatParameter, hashSplatParameter, hashSplatNil, forwardParameter,
    blockParameter, keywordParameter, optionalParameter]),
  shown forwardParameter (.other "forward_parameter") "...",
  shown splatParameter .splatParameter (rightAt (-2) (all ["*", part .name (maybe identifier)])),
  shown hashSplatParameter .hashSplatParameter
    (rightAt 0 (all ["**", part .name (maybe identifier)])),
  shown hashSplatNil (.other "hash_splat_nil") (all ["**", "nil"]),
  shown blockParameter .blockParameter (all ["&", part .name (maybe identifier)]),
  shown keywordParameter .keywordParameter
    (rightAt (Level.bitOr + 1)
      (all [part .name identifier, tight ":", part .value (maybe argument)])),
  shown optionalParameter .optionalParameter
    (atLevel (Level.bitOr + 1) (all [part .name identifier, "=", part .value argument]))]

def definedName : Rule := part .name (oneOf [constant, scopeResolution])

def classRules : List Definition := [
  shown classDefinition .classDefinition (all [
    "class", definedName,
    oneOf [all [part .superclass superclassPart, terminator], maybe terminator], bodyToEnd]),
  shown superclassPart .superclassPart (all ["<", expression]),
  shown singletonClass .singletonClass (all [
    "class", asToken (scanned .singletonAngles), part .value argument, terminator, bodyToEnd]),
  shown moduleDefinition .moduleDefinition (all [
    "module", definedName, maybe terminator, bodyToEnd])]

end RubyLint.Ruby
