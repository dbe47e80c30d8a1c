import RubyLint.Ruby.Layout.Assignment
import RubyLint.Ruby.Layout.Literal

/-!
# Layout of a whole tree

The other constructs, and the layout of every node by its construct.  A node whose construct has no
layout of its own keeps its name and its parts.  Nodes may be nested `maxNesting` deep.
-/

namespace RubyLint.Ruby

namespace Layout

variable (l : Layout)

/-! ## names -/

/-- A word: a local variable where it is bound, else a call on the current object. -/
def identifier (c : Concrete) : Arrange Term := do
  let name := l.text c
  if isLocal (String.ofList name) (← get) then return plainTerm .localVar c.span [symTerm name]
  else
    return .node .send c.span { Loc.none with selector := some c.span } [nilTerm, symTerm name]

/-- A constant in a scope; without one before the sign it is the outermost scope. -/
def scopeResolution (c : Concrete) : Arrange Term := do
  let scope ← match c.part? .scope with
    | some s => l.below s
    | none => pure (plainTerm .rootScope ⟨c.span.start, c.span.start + 2⟩ [])
  return plainTerm .constant c.span [scope, symTerm (l.partText c .name)]

/-! ## conditions and loops -/

/-- A branch: another condition, or the statements that the node holds. -/
def branch (c : Option Concrete) : Arrange (Option Term) :=
  match c with
  | some d => if d.construct = .elsifBranch then some <$> l.below d else l.statementsOf c
  | none => return none

def conditional (c : Concrete) (negated : Bool) : Arrange Term := do
  let condition ← l.part c .condition
  let yes ← l.branch (c.part? .consequence)
  let no ← l.branch (c.part? .alternative)
  return plainTerm .conditional c.span
    (if negated then [orNil condition, orNil no, orNil yes]
      else [orNil condition, orNil yes, orNil no])

/-- A condition behind the statement that it guards, which is read first. -/
def modifier (c : Concrete) (negated : Bool) : Arrange Term := do
  let body ← l.part c .body
  let condition ← l.part c .condition
  return plainTerm .conditional c.span
    (if negated then [orNil condition, nilTerm, orNil body]
      else [orNil condition, orNil body, nilTerm])

def loop (c : Concrete) (kind : Kind) : Arrange Term := do
  let condition ← l.part c .condition
  let body ← l.statementsOf (c.part? .body)
  return plainTerm kind c.span [orNil condition, orNil body]

/-- A loop behind the statement that it repeats, which is read first. -/
def loopModifier (c : Concrete) (kind : Kind) : Arrange Term := do
  let body ← l.part c .body
  let condition ← l.part c .condition
  return plainTerm kind c.span [orNil condition, orNil body]

def forLoop (c : Concrete) : Arrange Term := do
  let target ← match c.part? .pattern with
    | some p => some <$> l.target p none p.span
    | none => pure none
  let value ← l.part c .value
  let body ← l.statementsOf (c.part? .body)
  return plainTerm .forLoop c.span [orNil target, orNil value, orNil body]

/-- A case: its value, its branches, and what is left over. -/
def caseOf (c : Concrete) : Arrange Term := do
  let value ← l.part c .value
  let parts := c.named.filter fun d => d.role != .value
  let step := fun (acc : List Term × Option Term) (d : Concrete) => do
    match d.construct with
    | .whenBranch => return (acc.1 ++ [← l.below d], acc.2)
    | .elseBranch => return (acc.1, ← l.statementsOf (some d))
    | _ => return acc
  let (branches, otherwise) ← parts.foldlM step ([], none)
  return plainTerm .caseOf c.span (orNil value :: branches ++ [orNil otherwise])

def whenBranch (c : Concrete) : Arrange Term := do
  let values ← l.all (c.parts .pattern)
  let body ← l.statementsOf (c.part? .body)
  return plainTerm .whenBranch c.span (values ++ [orNil body])

/-! ## definitions -/

/-- The body of a method: statements, or one expression. -/
def methodBody (c : Concrete) : Arrange (Option Term) :=
  match c.part? .body with
  | some b => if b.construct = .bodyStatement then l.statementsOf (some b) else some <$> l.below b
  | none =>
    l.statements (c.named.filter fun d =>
      d.role != .name && d.role != .parameters && d.role != .object)

/-- A method; that of one object has the object in front. -/
def method (c : Concrete) (isSingleton : Bool) : Arrange Term := do
  let object ← if isSingleton then (fun t => [orNil t]) <$> l.part c .object else pure []
  let name := c.part? .name
  let start := name.elim c.span.start fun d => d.span.stop
  let (args, body) ← inScope true do
    let args ← l.parametersOr start (c.part? .parameters)
    let body ← l.methodBody c
    return (args, body)
  let loc := { Loc.none with selector := name.map Concrete.span }
  let kind := if isSingleton then .singletonMethodDef else .methodDef
  return .node kind c.span loc (object ++ [symTerm (l.partText c .name), args, orNil body])

/-- Statements in a closed scope. -/
def closedBody (c : Concrete) : Arrange (Option Term) :=
  inScope true (l.statementsOf (c.part? .body))

def classDefinition (c : Concrete) : Arrange Term := do
  let name ← l.part c .name
  let superclass ← l.part c .superclass
  let body ← l.closedBody c
  return plainTerm .classDef c.span [orNil name, orNil superclass, orNil body]

def moduleDefinition (c : Concrete) : Arrange Term := do
  let name ← l.part c .name
  let body ← l.closedBody c
  return plainTerm .moduleDef c.span [orNil name, orNil body]

def singletonClass (c : Concrete) : Arrange Term := do
  let value ← l.part c .value
  let body ← l.closedBody c
  return plainTerm .singletonClass c.span [orNil value, orNil body]

def jump (c : Concrete) (kind : Kind) : Arrange Term := do
  let parts ← c.named.mapM fun d =>
    if d.construct = .argumentList then l.arguments (some d) else (fun t => [t]) <$> l.below d
  return plainTerm kind c.span parts.flatten

/-- The layout of the only part that counts. -/
def firstPart (c : Concrete) : Arrange Term :=
  match c.named with
  | d :: _ => l.below d
  | [] => return plainTerm (.other "empty") c.span []

/-! ## every node -/

/-- The layout of a node by its construct. -/
def node (c : Concrete) : Arrange Term :=
  let word := fun (kind : Kind) => pure (plainTerm kind c.span [])
  let variableTerm := fun (kind : Kind) => pure (plainTerm kind c.span [symTerm (l.text c)])
  match c.construct with
  | .identifier => l.identifier c
  | .constant => pure (plainTerm .constant c.span [nilTerm, symTerm (l.text c)])
  | .scopeResolution => l.scopeResolution c
  | .selfWord => word .selfRef
  | .superWord => word .bareSuper
  | .nilWord => word .nilLiteral
  | .trueWord => word .trueLiteral
  | .falseWord => word .falseLiteral
  | .instanceVariable => variableTerm .instanceVar
  | .classVariable => variableTerm .classVar
  | .globalVariable => variableTerm .globalVar
  | .integer => pure (l.integer c)
  | .float => pure (l.float c)
  | .character => pure (l.character c)
  | .string => l.string c
  | .chainedString => l.wrap .interpolatedStr c
  | .bareString => pure (plainTerm .str c.span [strTerm (l.text c)])
  | .simpleSymbol => pure (l.simpleSymbol c)
  | .hashKeySymbol | .bareSymbol => variableTerm .sym
  | .delimitedSymbol => l.delimitedSymbol c
  | .regex => l.regexp c
  | .array | .stringArray | .symbolArray => l.array c
  | .hash => l.hash c
  | .pair => l.pair c
  | .splatArgument => l.wrap .splat c
  | .hashSplatArgument => l.wrap .doubleSplat c
  | .blockArgument => l.wrap .blockPass c
  | .call => l.call c
  | .elementReference => l.elementReference c
  | .binary => l.binary c
  | .unary => l.unary c
  | .parenthesized => return .node .sequence c.span (bracketLoc c.span) (← l.all c.named)
  | .beginBlock => l.wrap .beginBlock c
  | .whenPattern | .superclassPart | .inPart => l.firstPart c
  | .assignment => l.assignment c
  | .operatorAssignment => l.operatorAssignment c
  | .ifBranch | .elsifBranch | .conditional => l.conditional c false
  | .unlessBranch => l.conditional c true
  | .ifModifier => l.modifier c false
  | .unlessModifier => l.modifier c true
  | .whileLoop => l.loop c .whileLoop
  | .untilLoop => l.loop c .untilLoop
  | .whileModifier => l.loopModifier c .whileLoop
  | .untilModifier => l.loopModifier c .untilLoop
  | .forLoop => l.forLoop c
  | .caseOf => l.caseOf c
  | .whenBranch => l.whenBranch c
  | .methodDefinition => l.method c false
  | .singletonMethod => l.method c true
  | .classDefinition => l.classDefinition c
  | .moduleDefinition => l.moduleDefinition c
  | .singletonClass => l.singletonClass c
  | .returnJump => l.jump c .returnJump
  | .breakJump => l.jump c .breakJump
  | .nextJump => l.jump c .nextJump
  | .yieldCall => l.jump c .yieldCall
  | .range => l.range c
  | .interpolation => l.wrap .sequence c
  | .blockParameters | .methodParameters | .lambdaParameters => l.parameters c
  | construct => l.wrap (.other construct.name) c

def maxNesting : Nat := 256

/-- The layout of a node below which nodes are nested at most the given number deep. -/
def within (source : List Char) : Nat → Concrete → Arrange Term
  | 0, c => throw (.tooDeep c.span.start)
  | depth + 1, c => Layout.node ⟨source, within source depth⟩ c

/-- The layout of a text by its statements. -/
def ofSource (source : List Char) : Layout := ⟨source, within source maxNesting⟩

end Layout

/-- The root of a program: its statements, or an empty sequence over the whole text. -/
def rootTerm (source : List Char) (statements : List Concrete) : Except LayoutError Term := do
  let root ← ((Layout.ofSource source).statements statements).run' [Scope.fresh true]
  return root.getD (plainTerm .sequence ⟨0, Text.byteLength source⟩ [])

/-- The tree of a term; a value by itself makes an empty one. -/
def treeOfTerm (source : String) : Term → SyntaxTree
  | .node kind span loc children => SyntaxTree.ofNode source kind span loc children
  | .value _ => SyntaxTree.ofNode source .sequence ⟨0, source.utf8ByteSize⟩ Loc.none []

end RubyLint.Ruby
