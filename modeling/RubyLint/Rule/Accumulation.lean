import RubyLint.Pattern.Match
import RubyLint.Rule.Basic
import RubyLint.Text.Bytes

/-!
# Hashes built by merging

`reduce` with a `merge` in its block copies the hash for every element.  `each_with_object` changes
one hash instead: an assignment for each pair that is merged, and `merge!` for all else.
-/

namespace RubyLint.Rule

set_option maxRecDepth 4000 in
def reduceWithMerge : Pattern := Pattern.ofText
  "(block
    $(send _ :reduce {hash (send (const nil? :Hash) :new)})
    $(args (arg $_) ...)
    {(begin ... $(send (lvar $_) :merge ...)) $(send (lvar $_) :merge ...)})" .empty

/-! ## statements -/

/-- An argument of `merge`: the keys and values of pairs, or something that is a hash as a
whole. -/
inductive MergeArgument where
  | pairs (entries : List (String × String))
  | whole (text : String)
deriving DecidableEq

/-- The texts of the key and the value of a pair. -/
def entry? {t : SyntaxTree} (pair : Node t) : Except RuleFault (Option (String × String)) := do
  match pair.childNode? 0, pair.childNode? 1 with
  | some key, some value => return some (← key.text, ← value.text)
  | _, _ => return none

def MergeArgument.ofNode {t : SyntaxTree} (n : Node t) : Except RuleFault MergeArgument := do
  if n.kind = .hash ∧ n.childNodes.all fun c => c.kind == .pair then
    return .pairs (← n.childNodes.filterMapM entry?)
  else return .whole (← n.text)

/-- The statement that merges all of the texts, if there are any. -/
def mergeAll (accumulator : String) (texts : List String) : List String :=
  if texts.isEmpty then []
  else [accumulator ++ ".merge!(" ++ String.intercalate ", " texts ++ ")"]

/-- The statements that do what the merge does, in the order of its arguments; `waiting` are the
texts that are to be merged before the next assignment. -/
def mergeStatements (accumulator : String) (waiting : List String) :
    List MergeArgument → List String
  | [] => mergeAll accumulator waiting
  | .whole text :: rest => mergeStatements accumulator (waiting ++ [text]) rest
  | .pairs entries :: rest =>
    mergeAll accumulator waiting ++
      entries.map (fun e => accumulator ++ "[" ++ e.1 ++ "] = " ++ e.2) ++
      mergeStatements accumulator [] rest

/-! ## layout -/

def leadingBlanks (line : List Char) : List Char := line.takeWhile fun c => c == ' ' || c == '\t'

/-- The blanks at the front of the line of an offset. -/
def indentationAt (source : List Char) (offset : Nat) : Option (List Char) :=
  (Text.splitAtByte source offset).map fun (front, back) =>
    leadingBlanks ((front.reverse.takeWhile (· != '\n')).reverse ++ back)

/-- The list with its first element at the end. -/
def rotated : List α → List α
  | [] => []
  | a :: as => as ++ [a]

/-! ## the rule -/

def mergeMessage : String :=
  "Do not use `Hash#merge` to build new hashes within `Enumerable#reduce`. " ++
    "Use `Enumerable#each_with_object(\x7b\x7d)` and mutate a single `Hash` instead."

/-- The block gets what it builds as its first parameter from `reduce`, and as its last one from
`each_with_object`. -/
def mergeVerdict {t : SyntaxTree} (n : Node t) : Verdict := do
  let some captures := reduceWithMerge.match? n | return none
  let some reduce := captures.node? 0 | return none
  let some parameters := captures.node? 1 | return none
  let some accumulator := captures.sym? 2 | return none
  let some merge := captures.node? 3 | return none
  let some receiver := captures.sym? 4 | return none
  if accumulator ≠ receiver then return none
  let some selector := reduce.loc.selector | return none
  let names ← parameters.childNodes.mapM Node.text
  let some indentation := indentationAt t.source.toList merge.span.start
    | throw (.unreadable merge.span)
  let arguments ← merge.arguments.mapM MergeArgument.ofNode
  let statements := mergeStatements receiver [] arguments
  let correction := Correction.empty
    |>.replace selector "each_with_object"
    |>.replace parameters.span ("|" ++ String.intercalate ", " (rotated names) ++ "|")
    |>.replace merge.span (String.intercalate ("\n" ++ String.ofList indentation) statements)
  return some ((Finding.plain n.span mergeMessage).withCorrection correction)

def reduceMerge : Rule :=
  performance "ReduceMerge" "Use each_with_object instead of merging hashes inside reduce"
    [.block] fun _ n => mergeVerdict n

end RubyLint.Rule
