import RubyLint.Rule.Accumulation
import RubyLint.Rule.ArrayPush
import RubyLint.Rule.Block
import RubyLint.Rule.CallChain
import RubyLint.Rule.Collection
import RubyLint.Rule.Condition
import RubyLint.Rule.Hoisting
import RubyLint.Rule.Number
import RubyLint.Rule.RegexpLiteral
import RubyLint.Ruby.Source
import RubyLint.Run.Correction

/-!
# The rules of the library on Ruby texts

The order of the rules decides which of two findings at a node is mended first.  They run on texts in
Ruby, one at a time or several.
-/

namespace RubyLint

namespace Rule

def standard : List Rule := [
  ancestorsIncludeRule, arrayConcatLiteral, arrayInsert, arrayPushSingle,
  bigDecimalWithNumericArgument, collectionLiteralInLoop, collectionLiteralInMethod,
  conditionalDefinition, count, defined, deletePrefix, deleteSuffix, endWith,
  intersectionCheckRule, mapCompact, numericPredicate, predicateOnSelectResult,
  redundantSortBlock, redundantSplitRegexpArgument, reduceMerge, reverseEach, shortCircuitAnd,
  size, sortReverse, startWith, stringInclude, unnecessaryStackframe]

/-- The identifiers of the rules of the library. -/
def standardIds : List String := standard.map Rule.id

end Rule

/-- Runs the rules of the library on a text. -/
def check (config : Config) (mode : Mode) (source : String) :
    Except ConfigError (Except RunError Outcome) :=
  match config.fault? with
  | some e => .error e
  | none => .ok ((Runner.ofRules Rule.standard config).run Ruby.parseTree mode source false).result

structure SourceFile where
  path : String
  source : String
deriving DecidableEq

/-- Runs the rules on each of the texts, which do not concern each other; a rule that asks to
abandon its run abandons those behind it as well. -/
def Runner.runAll (r : Runner) (parse : Parser) (mode : Mode) :
    Bool → List SourceFile → List (SourceFile × Except RunError Outcome)
  | _, [] => []
  | cancelled, file :: rest =>
    let run := r.run parse mode file.source cancelled
    (file, run.result) :: r.runAll parse mode run.cancelled rest

end RubyLint
