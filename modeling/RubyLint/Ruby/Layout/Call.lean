import RubyLint.Ruby.Layout.Basic

/-!
# Layout of calls, operators and parameters

A call is its receiver, its method and its arguments; an operator is a call of a method; a call
with a block is a node around the call, the parameters and the body.
-/

namespace RubyLint.Ruby

namespace Layout

variable (l : Layout)

/-! ## parameters -/

/-- The name of a parameter as its child. -/
def nameChild (name : Option (List Char)) : List Term :=
  match name with
  | some n => [symTerm n]
  | none => []

/-- The kind of a parameter that has no value. -/
def parameterKind : Construct → Kind
  | .keywordParameter => .keyArg
  | .splatParameter => .restArg
  | .hashSplatParameter => .keyRestArg
  | .blockParameter => .blockArg
  | construct => .other construct.name

/-- A formal parameter, whose name is bound before its value is read. -/
def parameter (c : Concrete) : Arrange Term := do
  let name := (c.part? .name).map l.text
  if let some n := name then declare (String.ofList n)
  match c.construct with
  | .identifier =>
    declare (String.ofList (l.text c))
    return plainTerm .arg c.span [symTerm (l.text c)]
  | .optionalParameter =>
    let value ← l.part c .value
    return plainTerm .optArg c.span (nameChild name ++ [orNil value])
  | .keywordParameter =>
    match ← l.part c .value with
    | some value => return plainTerm .keyOptArg c.span (nameChild name ++ [value])
    | none => return plainTerm .keyArg c.span (nameChild name)
  | .destructuredParameter =>
    let parts ← c.children.attach.filterMapM fun
      | ⟨d, _h⟩ => if d.isPassedOver then return none else some <$> parameter d
    return plainTerm (.other "mlhs") c.span parts
  | construct => return plainTerm (parameterKind construct) c.span (nameChild name)
termination_by sizeOf c
decreasing_by exact Concrete.sizeOf_lt_of_mem _h

def parameters (c : Concrete) : Arrange Term := do
  return plainTerm .args c.span (← c.named.mapM l.parameter)

/-- The parameters of a method or block; without any they are an empty node at the offset. -/
def parametersOr (offset : Nat) : Option Concrete → Arrange Term
  | some c => l.parameters c
  | none => return plainTerm .args ⟨offset, offset⟩ []

/-! ## arguments -/

/-- The argument is part of the hash that the last arguments of a call make. -/
def isPairArgument (c : Concrete) : Bool :=
  c.construct == .pair || c.construct == .hashSplatArgument

/-- Splits arguments: those before the pairs, the pairs, and the rest from a block on. -/
def splitArguments (cs : List Concrete) : List Concrete × List Concrete × List Concrete :=
  let front := cs.takeWhile fun c => c.construct != .blockArgument
  let plain := (front.reverse.dropWhile isPairArgument).reverse
  (plain, front.drop plain.length, cs.drop front.length)

/-- The pairs at the end of the arguments as one hash. -/
def pairsHash (pairs : List Concrete) : Arrange (List Term) := do
  match pairs with
  | [] => return []
  | p :: ps =>
    let span := p.span.join ((ps.getLast?.getD p).span)
    return [plainTerm .hash span (← l.all pairs)]

def arguments (list : Option Concrete) : Arrange (List Term) := do
  let (plain, pairs, rest) := splitArguments (list.elim [] Concrete.named)
  let front ← l.all plain
  let hash ← l.pairsHash pairs
  let back ← l.all rest
  return front ++ hash ++ back

/-! ## calls -/

/-- The operator of a call is the one that skips the call on an absent receiver. -/
def isSafe (c : Concrete) : Bool := l.partText c .operator == "&.".toList

def callKind (c : Concrete) : Kind := if l.isSafe c then .safeSend else .send

/-- Where the call ends, its block apart. -/
def callSpan (c : Concrete) : Span :=
  let last := (c.part? .arguments <|> c.part? .method <|> c.part? .operator)
  ⟨c.span.start, min (last.elim c.span.stop fun d => d.span.stop) c.span.stop⟩

def callLoc (c : Concrete) : Loc :=
  let located : Loc := { Loc.none with
    selector := (c.part? .method).map Concrete.span
    dot := (c.part? .operator).map Concrete.span }
  match c.part? .arguments with
  | some list =>
    if (l.text list).head? = some '(' then
      { located with
        opening := some ⟨list.span.start, list.span.start + 1⟩
        closing := some (closing list.span 1) }
    else located
  | none => located

/-- The body of a block: the part that is one, or else a child that looks like one. -/
def blockBody? (c : Concrete) : Option Concrete :=
  c.part? .body <|> c.named.find? fun d =>
    d.construct == .blockBody || d.construct == .bodyStatement

def blockParameters? (c : Concrete) : Option Concrete :=
  c.part? .parameters <|> c.named.find? fun d => d.construct == .blockParameters

def block (span : Span) (call : Term) (c : Concrete) : Arrange Term := do
  let (openLength, closeLength) := if (l.text c).head? = some '{' then (1, 1) else (2, 3)
  let start := c.span.start + openLength
  let (args, body) ← inScope false do
    let args ← l.parametersOr start (blockParameters? c)
    let body ← l.statementsOf (blockBody? c)
    return (args, body)
  let loc := { Loc.none with
    opening := some ⟨c.span.start, start⟩
    closing := some (closing c.span closeLength) }
  return .node .block span loc [call, args, orNil body]

/-- A call, with its block if it has one. -/
def call (c : Concrete) : Arrange Term := do
  let isSuper := (c.part? .method).any (fun m => m.construct == .superWord) &&
    (c.part? .receiver).isNone
  let call ← if isSuper then
      plainTerm .superCall (callSpan c) <$> l.arguments (c.part? .arguments)
    else do
      let receiver ← l.part c .receiver
      let name := ((c.part? .method).map l.text).getD "call".toList
      let args ← l.arguments (c.part? .arguments)
      pure (.node (l.callKind c) (callSpan c) (l.callLoc c)
        (orNil receiver :: symTerm name :: args))
  match c.part? .block with
  | some b => l.block c.span call b
  | none => return call

/-- The parts of an element reference other than its object. -/
def indices (c : Concrete) : List Concrete := c.named.filter fun d => d.role != .object

def elementReference (c : Concrete) : Arrange Term := do
  let object ← l.part c .object
  let indices ← l.all (indices c)
  let start := (c.part? .object).elim c.span.start fun d => d.span.stop
  let brackets : Span := ⟨start, c.span.stop⟩
  let loc := { Loc.none with
    selector := some brackets
    opening := some (opening brackets 1)
    closing := some (closing c.span 1) }
  return .node .send c.span loc (orNil object :: symTerm "[]".toList :: indices)

/-! ## operators -/

/-- An operator is also the name of the method it calls. -/
def operatorLoc (c : Concrete) : Loc :=
  let span := (c.part? .operator).map Concrete.span
  { Loc.none with operator := span, selector := span }

def binary (c : Concrete) : Arrange Term := do
  let left ← l.part c .left
  let right ← l.part c .right
  let op := l.partText c .operator
  let node := fun (kind : Kind) (children : List Term) =>
    Term.node kind c.span (operatorLoc c) children
  let both := [orNil left, orNil right]
  let isRegexp := (c.part? .left).any fun d => d.construct == .regex
  if op = "&&".toList ∨ op = "and".toList then return node .conjunction both
  else if op = "||".toList ∨ op = "or".toList then return node .disjunction both
  else if op = "=~".toList ∧ isRegexp then return node .matchAssign both
  else return node .send [orNil left, symTerm op, orNil right]

/-- A number behind a minus sign, as the negative number. -/
def negativeNumber? (c : Concrete) : Option Term :=
  if l.partText c .operator = ['-'] then
    match c.part? .operand with
    | some d =>
      match d.construct with
      | .integer => (Literal.readInteger (l.text d)).map fun n =>
        plainTerm .int c.span [.value (.int (-n))]
      | .float =>
        (Number.Double.ofDecimal ((l.text d).filter (· != '_'))).map fun x =>
          plainTerm .float c.span [.value (.float x.neg)]
      | _ => none
    | none => none
  else none

/-- The method that an operator in front of its operand calls. -/
def unaryMethod (op : List Char) : List Char :=
  match String.ofList op with
  | "not" => ['!']
  | "-" => ['-', '@']
  | "+" => ['+', '@']
  | _ => op

def unary (c : Concrete) : Arrange Term := do
  match l.negativeNumber? c with
  | some t => return t
  | none =>
    let operand ← l.part c .operand
    let op := l.partText c .operator
    let loc := operatorLoc c
    if op = "defined?".toList then return .node .definedCheck c.span loc [orNil operand]
    else return .node .send c.span loc [orNil operand, symTerm (unaryMethod op)]

def range (c : Concrete) : Arrange Term := do
  let lower ← l.part c .lower
  let upper ← l.part c .upper
  let kind := if l.partText c .operator = "...".toList then .exclusiveRange else .inclusiveRange
  let loc := { Loc.none with operator := (c.part? .operator).map Concrete.span }
  return .node kind c.span loc [orNil lower, orNil upper]

end Layout

end RubyLint.Ruby
