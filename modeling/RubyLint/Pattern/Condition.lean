import RubyLint.Pattern.Fault
import RubyLint.Syntax.Node

/-!
# Conditions

What a compiled pattern asks of a child: a tree of conditions.  A sequence asks something of a node
and of its children in order; at most one of its elements takes a number of children that is not
fixed, which is why a sequence is split into the elements before and behind that one.
-/

namespace RubyLint.Pattern

/-- The questions that a pattern may ask by a name with a question mark. -/
inductive Builtin where
  | absent
  | ofKind (kind : Kind)
  | call
  | numeric
  | range
  | literal
  | basicLiteral
  | recursiveBasicLiteral
  | variableName
  | loopKeyword
deriving DecidableEq

namespace Builtin

/-- The question of a name. -/
def ofName? (name : String) : Option Builtin :=
  match name with
  | "nil?" => some .absent
  | "call_type?" => some .call
  | "numeric_type?" => some .numeric
  | "range_type?" => some .range
  | "literal?" => some .literal
  | "basic_literal?" => some .basicLiteral
  | "recursive_basic_literal?" => some .recursiveBasicLiteral
  | "variable?" => some .variableName
  | "loop_keyword?" => some .loopKeyword
  | _ =>
    let suffix := "_type?".toList
    let cs := name.toList
    if suffix.isSuffixOf cs then
      (Kind.ofName? (String.ofList (cs.take (cs.length - suffix.length)))).map .ofKind
    else none

def holdsOf {t : SyntaxTree} (n : Node t) : Builtin → Bool
  | .absent => false
  | .ofKind kind => n.kind == kind
  | .call => n.isCall
  | .numeric => n.kind.isNumeric
  | .range => n.kind == .inclusiveRange || n.kind == .exclusiveRange
  | .literal => n.isLiteral
  | .basicLiteral => n.isBasicLiteral
  | .recursiveBasicLiteral => n.isRecursiveBasicLiteral
  | .variableName => n.isVariable
  | .loopKeyword => n.kind.isLoop

/-- The question, asked of a child; of values only the absent one answers to one. -/
def holds {t : SyntaxTree} (b : Builtin) : NodeChild t → Bool
  | .node n => b.holdsOf n
  | .value v => b == .absent && v.isNil

end Builtin

/-- What is given to an external predicate. -/
inductive Argument where
  | value (v : Value)
  | param (number : Nat)
deriving DecidableEq

/-- How many children an element takes that does not take one. -/
inductive Arity where
  | optional
  | anyNumber
  | atLeastOne
deriving DecidableEq

namespace Arity

/-- The element may take that many children. -/
def allows : Arity → Nat → Bool
  | .optional, n => n ≤ 1
  | .anyNumber, _ => true
  | .atLeastOne, n => 1 ≤ n

end Arity

/-- What is asked of a child. -/
inductive Condition where
  | wildcard
  | kind (kind : Kind)
  | kindIn (kinds : List Kind)
  | literal (v : Value)
  | capture (slot : Nat) (inner : Condition)
  /-- a node of which the head holds, with one child for each element -/
  | exactly (head : Condition) (elements : List Condition)
  /-- the same, but the element in the middle takes all children that the others leave; what it
  takes is bound to the slot, if there is one -/
  | around (head : Condition) (front : List Condition) (middle : Condition) (arity : Arity)
      (slot : Option Nat) (back : List Condition)
  | union (branches : List Condition)
  | intersection (terms : List Condition)
  | negation (inner : Condition)
  | parent (inner : Condition)
  | descendant (inner : Condition)
  | builtin (question : Builtin)
  | external (name : String) (arguments : List Argument)
  | oneOf (symbols : List String)
  | param (number : Nat)

/-- A predicate that a pattern may call. -/
def Predicate : Type := {t : SyntaxTree} → NodeChild t → List Value → Except PredicateError Bool

/-- What a pattern may refer to by name. -/
structure Environment where
  predicates : List (String × Predicate)
  sets : List (String × List String)

namespace Environment

def empty : Environment := ⟨[], []⟩

def predicate? (e : Environment) (name : String) : Option Predicate :=
  (e.predicates.find? fun p => p.1 == name).map Prod.snd

def set? (e : Environment) (name : String) : Option (List String) :=
  (e.sets.find? fun s => s.1 == name).map Prod.snd

end Environment

/-- What a numbered placeholder stands for. -/
inductive Param where
  | value (v : Value)
  | symbols (names : List String)
  | kind (kind : Kind)
deriving DecidableEq

namespace Param

/-- The child is what the placeholder stands for. -/
def holds {t : SyntaxTree} : Param → NodeChild t → Bool
  | .value v, .value w => v.same w
  | .symbols names, .value (.sym s) => names.contains s
  | .symbols names, .value (.str s) => names.contains s
  | .kind k, .node n => n.kind == k
  | _, _ => false

end Param

end RubyLint.Pattern
