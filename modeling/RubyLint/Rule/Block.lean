import RubyLint.Pattern.Match
import RubyLint.Rule.Basic

/-!
# Rules about blocks

Blocks that compare their two parameters for `sort`, and blocks that only yield to the block of the
method around them.
-/

namespace RubyLint.Rule

/-! ## sorting -/

def sortWithBlock : Pattern :=
  Pattern.ofText "(block $(send _ :sort) (args (arg $_a) (arg $_b)) $send)" .empty

def comparison : Pattern := Pattern.ofText "(send (lvar %1) :<=> (lvar %2))" .empty

/-- A `sort` with a block that does nothing but compare its two parameters. -/
structure SortBlock where
  /-- from the name of the method to the end of the block -/
  span : Span
  first : String
  second : String
deriving DecidableEq

/-- The sort block at the node, with its parameters compared in order or the other way round. -/
def sortBlock? {t : SyntaxTree} (n : Node t) (isReversed : Bool) : Option SortBlock := do
  let captures ← sortWithBlock.match? n
  let call ← captures.node? 0
  let first ← captures.sym? 1
  let second ← captures.sym? 2
  let body ← captures.node? 3
  let (left, right) := if isReversed then (second, first) else (first, second)
  let _ ← comparison.matchChild [.value (.sym left), .value (.sym right)] (.node body)
  let selector ← call.loc.selector
  let closing ← n.loc.closing
  return ⟨selector.upTo closing, first, second⟩

def sortVerdict {t : SyntaxTree} (n : Node t) : Verdict := .ok do
  let ⟨span, a, b⟩ ← sortBlock? n false
  return .replacing span
    ("Use `sort` instead of `sort \x7b |" ++ a ++ ", " ++ b ++ "| " ++ a ++ " <=> " ++ b ++
      " \x7d`.")
    span "sort"

def redundantSortBlock : Rule :=
  performance "RedundantSortBlock"
    "Use sort instead of sort with a block that does the default comparison" [.block]
    fun _ n => sortVerdict n

def sortReverseVerdict {t : SyntaxTree} (n : Node t) : Verdict := .ok do
  let ⟨span, a, b⟩ ← sortBlock? n true
  return .replacing span
    ("Use `sort.reverse` instead of `sort \x7b |" ++ a ++ ", " ++ b ++ "| " ++ b ++ " <=> " ++ a ++
      " \x7d`.")
    span "sort.reverse"

def sortReverse : Rule :=
  performance "SortReverse"
    "Use sort.reverse instead of sort with a block that reverses the comparison" [.block]
    fun _ n => sortReverseVerdict n

/-! ## yielding -/

def yieldInBlock : Pattern := Pattern.ofText "(block (send ...) (args) (yield))" .empty

def yieldVerdict {t : SyntaxTree} (n : Node t) : Verdict :=
  if yieldInBlock.isMatch n then
    .ok (some (.plain n.span "Forward the received block directly instead of using `yield`."))
  else .ok none

def unnecessaryStackframe : Rule :=
  performance "UnnecessaryStackframe"
    "Forward the received block instead of wrapping yield in a new block" [.block]
    fun _ n => yieldVerdict n

end RubyLint.Rule
