import RubyLint.Ruby.Grammar.Rule

/-!
# Statements

Whole texts, lists of statements and what ends them, modifiers, and the branches and loops that
hold statements.
-/

namespace RubyLint.Ruby

open Ruby.Rule Phrase

/-- Statements inside a construct, behind which a closing word is no name. -/
def innerStatements : Rule := all [statements, maybe (barred .closing)]

def statementRules : List Definition := [
  hidden program (all [
    maybe statements,
    maybe (oneOf [all [shape .dataMark, shape .uninterpreted], "__END__"])]),
  hidden statements (oneOf [
    all [several (oneOf [all [statement, terminator], emptyStatement]), maybe statement],
    statement]),
  hidden statement (oneOf [
    undefinition, aliasDefinition, ifModifier, unlessModifier, whileModifier, untilModifier,
    rescueModifier, beginHook, endHook, expression]),
  hidden emptyStatement (atLevel (-1) ";"),
  hidden terminator (oneOf [scanned .lineBreak, ";"]),
  shown parenthesized .parenthesized (all ["(", maybe innerStatements, ")"]),
  shown blockBody .blockBody innerStatements,
  shown beginHook (.other "begin_block") (all ["BEGIN", "\x7b", maybe innerStatements, "\x7d"]),
  shown endHook (.other "end_block") (all ["END", "\x7b", maybe innerStatements, "\x7d"]),
  shown undefinition (.other "undef") (all ["undef", commas methodName]),
  shown aliasDefinition (.other "alias") (all ["alias", part .name methodName, methodName])]

/-- A statement with a condition behind it. -/
def conditionModifier (opener : String) : Rule :=
  atLevel Level.rescued (all [part .body statement, opener, part .condition expression])

def modifierRules : List Definition := [
  shown ifModifier .ifModifier (conditionModifier "if"),
  shown unlessModifier .unlessModifier (conditionModifier "unless"),
  shown whileModifier .whileModifier (conditionModifier "while"),
  shown untilModifier .untilModifier (conditionModifier "until"),
  shown rescueModifier (.other "rescue_modifier")
    (atLevel Level.rescued (all [part .body statement, "rescue", expression]))]

/-! ## bodies -/

/-- The parts of a body that come behind its statements. -/
def clause : Rule := oneOf [rescuePart, elseBranch, ensurePart]

/-- The statements behind `then`, or behind a line that ends with a condition. -/
def consequenceIn (role : Role) : Rule := all [part role thenPart, maybe (barred .closing)]

def bodyRules : List Definition := [
  hidden guardedStatements (oneOf [
    all [innerStatements, many clause],
    all [maybe innerStatements, several clause]]),
  shown bodyStatement .bodyStatement guardedStatements,
  shown beginBlock .beginBlock (all ["begin", maybe terminator, maybe guardedStatements, "end"]),
  shown rescuePart (.other "rescue") (all [
    "rescue", maybe exceptions, maybe exceptionVariable,
    oneOf [terminator, consequenceIn .body]]),
  shown exceptions (.other "exceptions") (commas (oneOf [argument, splatArgument])),
  shown exceptionVariable (.other "exception_variable") (all ["=>", target]),
  shown ensurePart (.other "ensure") (all ["ensure", maybe innerStatements]),
  shown elseBranch .elseBranch (all ["else", maybe terminator, maybe innerStatements]),
  shown thenPart (.other "then") (oneOf [
    all [terminator, statements],
    all [maybe terminator, "then", maybe statements]])]

/-! ## branches and loops -/

def branches (opener : String) : Rule := all [
  opener, part .condition statement,
  oneOf [terminator, barred .closing, consequenceIn .consequence],
  maybe (oneOf [
    all [part .alternative elseBranch, maybe (barred .otherClause)],
    part .alternative elsifBranch])]

/-- What a case decides on, up to its clauses. -/
def caseHead (value : Rule) : Rule :=
  all ["case", value, maybe (oneOf [terminator, barred .closing])]

/-- The rest of a case behind its clauses. -/
def caseTail : Rule := all [maybe (all [elseBranch, maybe (barred .otherClause)]), "end"]

def branchRules : List Definition := [
  shown ifBranch .ifBranch (all [branches "if", "end"]),
  shown unlessBranch .unlessBranch (all [branches "unless", "end"]),
  shown elsifBranch .elsifBranch (branches "elsif"),
  shown whileLoop .whileLoop (all ["while", part .condition statement, part .body doPart]),
  shown untilLoop .untilLoop (all ["until", part .condition statement, part .body doPart]),
  shown forLoop .forLoop (all [
    "for", part .pattern (oneOf [target, leftAssignmentList]), part .value inPart,
    part .body doPart]),
  shown inPart .inPart (all ["in", argument]),
  shown doPart (.other "do") (all [oneOf ["do", terminator], maybe innerStatements, "end"]),
  shown caseOf .caseOf (all [
    caseHead (part .value (maybe statement)), many whenBranch, caseTail]),
  shown whenBranch .whenBranch (all [
    "when", commas (part .pattern whenPattern), oneOf [terminator, consequenceIn .body]]),
  shown whenPattern .whenPattern (oneOf [argument, splatArgument])]

end RubyLint.Ruby
