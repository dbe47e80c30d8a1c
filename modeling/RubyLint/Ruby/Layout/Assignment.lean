import RubyLint.Ruby.Layout.Call

/-!
# Layout of assignments

A target is laid out by what it is: a variable by its name, a call with an equals sign behind its
method.  The target of an operator assignment has no value of its own.
-/

namespace RubyLint.Ruby

/-- The identifiers below a node that are no part of a call. -/
def identifiersIn (c : Concrete) : List Concrete :=
  match c.construct with
  | .identifier => [c]
  | .call | .elementReference => []
  | _ => c.children.attach.flatMap fun
    | ⟨d, _h⟩ => if d.isToken then [] else identifiersIn d
termination_by sizeOf c
decreasing_by exact Concrete.sizeOf_lt_of_mem _h

namespace Layout

variable (l : Layout)

/-- Binds the names that stand as targets of a multiple assignment. -/
def declareTargets (c : Concrete) : Arrange Unit :=
  (identifiersIn c).forM fun d => declare (String.ofList (l.text d))

/-- The target of an assignment with the value that it gets, if it gets one of its own. -/
def target (c : Concrete) (value : Option Term) (span : Span) : Arrange Term := do
  let text := l.text c
  let variableTerm := fun (kind : Kind) => plainTerm kind span (symTerm text :: value.toList)
  match c.construct with
  | .identifier =>
    declare (String.ofList text)
    return variableTerm .localAssign
  | .instanceVariable => return variableTerm .instanceAssign
  | .globalVariable => return variableTerm .globalAssign
  | .classVariable => return variableTerm .classAssign
  | .constant => return plainTerm .constAssign span ([nilTerm, symTerm text] ++ value.toList)
  | .scopeResolution =>
    let scope ← l.part c .scope
    let name := ((c.part? .name).map l.text).getD text
    return plainTerm .constAssign span ([orNil scope, symTerm name] ++ value.toList)
  | .call =>
    let receiver ← l.part c .receiver
    let name := l.partText c .method ++ (if value.isSome then ['='] else [])
    let loc := { Loc.none with
      selector := (c.part? .method).map Concrete.span
      dot := (c.part? .operator).map Concrete.span }
    return .node (l.callKind c) span loc ([orNil receiver, symTerm name] ++ value.toList)
  | .elementReference =>
    let object ← l.part c .object
    let name := if value.isSome then "[]=" else "[]"
    let indices ← l.all (indices c)
    return plainTerm .send span ([orNil object, symTerm name.toList] ++ indices ++ value.toList)
  | .leftAssignmentList =>
    l.declareTargets c
    let parts ← l.all c.named
    return plainTerm (.other "mlhs") span (parts ++ value.toList)
  | construct => return plainTerm (.other construct.name) span value.toList

/-- The value of an assignment, several values being an array. -/
def assignedValue (c : Concrete) : Arrange Term :=
  match c.construct with
  | .rightAssignmentList => l.wrap .array c
  | _ => l.below c

/-- Binds the names of a target before the value is read. -/
def declareTarget (c : Concrete) : Arrange Unit :=
  match c.construct with
  | .identifier => declare (String.ofList (l.text c))
  | .leftAssignmentList => l.declareTargets c
  | _ => return ()

def assignment (c : Concrete) : Arrange Term := do
  match c.part? .left with
  | none => throw (.noTarget c.span.start)
  | some left =>
    l.declareTarget left
    let value ← match c.part? .right with
      | some right => l.assignedValue right
      | none => pure nilTerm
    match left.construct with
    | .leftAssignmentList =>
      let targets ← l.target left none left.span
      return plainTerm (.other "masgn") c.span [targets, value]
    | _ => l.target left (some value) c.span

/-- The operator of an operator assignment, without its equals sign. -/
def assignedOperator (op : List Char) : List Char :=
  if op.getLast? = some '=' then op.dropLast else op

def operatorAssignment (c : Concrete) : Arrange Term := do
  match c.part? .left with
  | none => throw (.noTarget c.span.start)
  | some left =>
    let target ← l.target left none left.span
    let value ← l.part c .right
    let op := l.partText c .operator
    let loc := { Loc.none with operator := (c.part? .operator).map Concrete.span }
    let node := fun (kind : Kind) (children : List Term) => Term.node kind c.span loc children
    if op = "||=".toList then return node .orAssign [target, orNil value]
    else if op = "&&=".toList then return node .andAssign [target, orNil value]
    else return node .opAssign [target, symTerm (assignedOperator op), orNil value]

end Layout

end RubyLint.Ruby
