import RubyLint.Pattern.Match
import RubyLint.Rule.Basic

/-!
# Chains of calls

Two calls in a row for which there is a single one.
-/

namespace RubyLint.Rule

/-! ## ancestors -/

def ancestorsInclude : Pattern :=
  Pattern.ofText "(send (send $_subclass :ancestors) :include? $_superclass)" .empty

def ancestorsVerdict {t : SyntaxTree} (n : Node t) : Verdict := do
  let some captures := ancestorsInclude.match? n | return none
  let some superclass := (captures.named? "superclass").bind (·.node?) | return none
  let subclass ← match (captures.named? "subclass").bind (·.node?) with
    | some subclass => subclass.text
    | none => pure "self"
  let some ancestors := n.receiver?.bind (·.loc.selector) | return none
  let some question := n.loc.selector | return none
  let text ← superclass.text
  return some (.replacing (ancestors.upTo question) "Use `<=` instead of `ancestors.include?`."
    n.span (subclass ++ " <= " ++ text))

/-- The comparison fails where the question is asked about something that is no module. -/
def ancestorsIncludeRule : Rule :=
  { performance "AncestorsInclude" "Use Module#<= instead of ancestors.include?" [.send]
      fun _ n => ancestorsVerdict n with
    methods? := some ["include?"]
    isSafe := false }

/-! ## counting -/

def isFilter (method : String) : Bool := ["select", "filter", "find_all", "reject"].contains method

/-- The call that filters, on the result of which the given one is made: the call of a block, or one
that passes a block on. -/
def filteringCall? {t : SyntaxTree} (counter : Node t) : Option (Node t) := do
  let receiver ← counter.receiver?
  let call ← match receiver.kind with
    | .block => receiver.sendNode?
    | .send =>
      match receiver.arguments with
      | [argument] => if argument.kind = .blockPass then some receiver else none
      | _ => none
    | _ => none
  let method ← call.methodName?
  if call.kind = .send ∧ isFilter method then return call else none

/-- What is left after `reject` is counted by no method with the same block. -/
def countVerdict {t : SyntaxTree} (n : Node t) : Verdict :=
  if n.hasArguments || n.blockNode?.isSome then .ok none
  else .ok do
    let call ← filteringCall? n
    let selector ← call.loc.selector
    let dot ← n.loc.dot
    let filter ← call.methodName?
    let counter ← n.methodName?
    let found := Finding.plain ⟨selector.start, n.span.stop⟩
      s!"Use `count` instead of `{filter}...{counter}`."
    let correction := (Correction.empty.replace selector "count").remove ⟨dot.start, n.span.stop⟩
    return if filter = "reject" then found else found.withCorrection correction

/-- A count may be asked of something other than a collection, which answers in its own way. -/
def count : Rule :=
  { performance "Count" "Use count instead of filtering and then taking the size" [.send]
      fun _ n => countVerdict n with
    methods? := some ["count", "length", "size"]
    isSafe := false }

/-! ## mapping -/

set_option maxRecDepth 4000 in
def mapThenCompact : Pattern := Pattern.ofText
  "{(send $(send _ {:map :collect} (block_pass (sym _))) :compact)
    (send (block $(send _ {:map :collect}) (args ...) _) :compact)}" .empty

def compactVerdict {t : SyntaxTree} (n : Node t) : Verdict := .ok do
  let map ← (mapThenCompact.match? n).bind (·.node? 0)
  let mapSelector ← map.loc.selector
  let dot ← n.loc.dot
  let compactSelector ← n.loc.selector
  return (Finding.plain (mapSelector.upTo compactSelector) "Use `filter_map` instead.")
    |>.withCorrection (((Correction.empty.replace mapSelector "filter_map").remove dot).remove
      compactSelector)

def mapCompact : Rule :=
  { performance "MapCompact" "Use filter_map instead of map followed by compact" [.send]
      fun _ n => compactVerdict n with
    methods? := some ["compact"]
    minimum? := some ⟨2, 7⟩ }

/-! ## questions about what is selected -/

set_option maxRecDepth 4000 in
def questionOnSelection : Pattern := Pattern.ofText
  "(send
    {(block $(send _ {:select :filter}) ...) $(send _ {:select :filter} block_pass_type?)}
    {:any? :empty? :none?})" .empty

/-- The question that is asked of the elements themselves. -/
def elementQuestion : String → String
  | "any?" => "any?"
  | _ => "none?"

def selectionVerdict {t : SyntaxTree} (n : Node t) : Verdict :=
  if n.hasArguments || n.blockNode?.isSome then .ok none
  else .ok do
    let select ← (questionOnSelection.match? n).bind (·.node? 0)
    let selectSelector ← select.loc.selector
    let questionSelector ← n.loc.selector
    let receiver ← n.receiver?
    let filter ← select.methodName?
    let question ← n.methodName?
    let preferred := elementQuestion question
    let removal : Span := ⟨receiver.span.stop, questionSelector.stop⟩
    return (Finding.plain (selectSelector.join questionSelector)
        s!"Use `{preferred}` instead of `{filter}.{question}`.")
      |>.withCorrection ((Correction.empty.remove removal).replace selectSelector preferred)

def predicateOnSelectResult : Rule :=
  { performance "PredicateOnSelectResult"
      "Pass the block to the predicate instead of filtering first" [.send]
      fun _ n => selectionVerdict n with
    methods? := some ["any?", "empty?", "none?"] }

/-! ## going backwards -/

def reverseThenEach : Pattern :=
  Pattern.ofText "(send $(send _ :reverse) ${:each :each_with_index})" .empty

def reverseVerdict {t : SyntaxTree} (n : Node t) : Verdict := .ok do
  let captures ← reverseThenEach.match? n
  let reverse ← captures.node? 0
  let current ← captures.sym? 1
  let reverseSelector ← reverse.loc.selector
  let dot ← n.loc.dot
  let selector ← n.loc.selector
  let ending := if current = "each" then "_each" else "_each.with_index"
  return .replacing (reverseSelector.upTo selector)
    s!"Use `reverse{ending}` instead of `reverse.{current}`." (dot.upTo selector) ending

def reverseEach : Rule :=
  { performance "ReverseEach" "Use reverse_each instead of reverse.each" [.send]
      fun _ n => reverseVerdict n with
    methods? := some ["each", "each_with_index"] }

end RubyLint.Rule
