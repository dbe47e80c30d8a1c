import RubyLint.Rule.Basic

/-!
# Literals that are made again and again

An array or hash literal that nothing can change is the same every time.  In a method or in a loop
it is made anew each time all the same, and a constant would not be.
-/

namespace RubyLint.Rule

/-! ## methods that leave their receiver alone -/

/-- The methods of every collection, and the one that they are all built on. -/
def enumerableMethods : List String := [
  "all?", "any?", "chain", "chunk", "chunk_while", "collect", "collect_concat", "compact",
  "count", "cycle", "detect", "drop", "drop_while", "each", "each_cons", "each_entry",
  "each_slice", "each_with_index", "each_with_object", "entries", "filter", "filter_map",
  "find", "find_all", "find_index", "first", "flat_map", "grep", "grep_v", "group_by",
  "include?", "inject", "lazy", "map", "max", "max_by", "member?", "min", "min_by", "minmax",
  "minmax_by", "none?", "one?", "partition", "reduce", "reject", "reverse_each", "select",
  "slice_after", "slice_before", "slice_when", "sort", "sort_by", "sum", "take", "take_while",
  "tally", "to_a", "to_h", "to_set", "uniq", "zip"]

def steadyArrayMethods : List String := [
  "&", "*", "+", "-", "<=>", "==", "[]", "all?", "any?", "assoc", "at", "bsearch",
  "bsearch_index", "collect", "combination", "compact", "count", "cycle", "deconstruct",
  "difference", "dig", "drop", "drop_while", "each", "each_index", "empty?", "eql?", "fetch",
  "filter", "find_index", "first", "flatten", "hash", "include?", "index", "inspect",
  "intersection", "join", "last", "length", "map", "max", "min", "minmax", "none?", "one?",
  "pack", "permutation", "product", "rassoc", "reject", "repeated_combination",
  "repeated_permutation", "reverse", "reverse_each", "rindex", "rotate", "sample", "select",
  "shuffle", "size", "slice", "sort", "sum", "take", "take_while", "to_a", "to_ary", "to_h",
  "to_s", "transpose", "union", "uniq", "values_at", "zip", "|"]

def steadyHashMethods : List String := [
  "<", "<=", "==", ">", ">=", "[]", "any?", "assoc", "compact", "dig", "each", "each_key",
  "each_pair", "each_value", "empty?", "eql?", "fetch", "fetch_values", "filter", "flatten",
  "has_key?", "has_value?", "hash", "include?", "inspect", "invert", "key", "key?", "keys?",
  "length", "member?", "merge", "rassoc", "rehash", "reject", "select", "size", "slice",
  "to_a", "to_h", "to_hash", "to_proc", "to_s", "transform_keys", "transform_values",
  "value?", "values", "values_at"]

def isEnumerableMethod (method : String) : Bool := enumerableMethods.contains method

/-! ## literals -/

/-- The class of a collection literal on which the method leaves its receiver alone. -/
def steadyClass? (kind : Kind) (method : String) : Option String :=
  match kind with
  | .array =>
    if isEnumerableMethod method || steadyArrayMethods.contains method then some "Array" else none
  | .hash =>
    if isEnumerableMethod method || steadyHashMethods.contains method then some "Hash" else none
  | _ => none

/-- The literal that the call is made on, and its class: it has at least the given size, holds
literals only, and neither the call nor one behind it changes it. -/
def hoistable? {t : SyntaxTree} (n : Node t) (size : Nat) : Option (Node t × String) := do
  let receiver ← n.receiver?
  let method ← n.methodName?
  let className ← steadyClass? receiver.kind method
  if size ≤ receiver.childCount ∧ receiver.isRecursiveBasicLiteral ∧ !receiver.isMutatedByChain then
    return (receiver, className)
  else none

/-! ## in methods -/

def isMethodDefinition (kind : Kind) : Bool :=
  match kind with
  | .methodDef | .singletonMethodDef => true
  | _ => false

def literalInMethodVerdict (size : Nat) {t : SyntaxTree} (n : Node t) : Verdict := do
  let some (literal, className) := hoistable? n size | return none
  if !literal.ancestors.any fun a => isMethodDefinition a.kind then return none
  return some (.plain literal.span
    (s!"Avoid immutable {className} literals in method definition. " ++
      "It is better to extract it into a constant."))

def collectionLiteralInMethod : Rule :=
  performance "CollectionLiteralInMethod"
    "Extract immutable array and hash literals in method bodies into constants" [.send]
    fun context n => literalInMethodVerdict context.methodLiteralSize n

/-! ## in loops -/

/-- The block is that of a loop in which the literal stands.  What a method of a collection is
called on is made once, before the loop. -/
def isLoopBlock {t : SyntaxTree} (block literal : Node t) : Except RuleFault Bool := do
  let some call := block.sendNode? | return false
  let some method := call.methodName? | return false
  if method = "loop" then
    match call.receiver? with
    | some receiver => return (← receiver.text) == "Kernel"
    | none => return true
  else
    return isEnumerableMethod method &&
      call.receiver?.all fun receiver => !receiver.span.contains literal.span

/-- The node, which is around the literal, is a loop. -/
def isLoop {t : SyntaxTree} (literal n : Node t) : Except RuleFault Bool :=
  match n.kind with
  | .whileLoop | .untilLoop | .forLoop => .ok true
  | .block => isLoopBlock n literal
  | _ => .ok false

/-- The node is a string, a variable, the current object, or a chain of calls without arguments
and blocks on one of them. -/
def isSimpleValue {t : SyntaxTree} (n : Node t) : Bool :=
  match n.kind with
  | .send | .safeSend =>
    if n.hasArguments || n.blockNode?.isSome then false
    else match _h : n.receiver? with
      | some receiver => isSimpleValue receiver
      | none => true
  | .str | .selfRef | .localVar | .instanceVar => true
  | _ => false
termination_by n.index
decreasing_by
  unfold Node.receiver? at _h
  split at _h
  · exact Node.childNode?_lt _h
  · simp at _h

/-- No array is made for the call: a question whether a simple value is in it, of a version that
knows this form. -/
def isElided (target : RubyVersion) {t : SyntaxTree} (n : Node t) : Bool :=
  RubyVersion.notAfter ⟨3, 4⟩ target && n.isMethod "include?" &&
    n.receiver?.any (fun receiver => receiver.kind == .array) &&
    match n.arguments with
    | [argument] => isSimpleValue argument
    | _ => false

def literalInLoopVerdict (size : Nat) (target : RubyVersion) {t : SyntaxTree} (n : Node t) :
    Verdict := do
  let some (literal, className) := hoistable? n size | return none
  if isElided target n then return none
  if !(← literal.ancestors.anyM (isLoop literal)) then return none
  return some (.plain literal.span
    (s!"Avoid immutable {className} literals in loops. " ++
      "It is better to extract it into a local variable or a constant."))

def collectionLiteralInLoop : Rule :=
  performance "CollectionLiteralInLoop"
    "Extract immutable array and hash literals in loops into local variables or constants" [.send]
    fun context n => literalInLoopVerdict context.loopLiteralSize context.target n

end RubyLint.Rule
