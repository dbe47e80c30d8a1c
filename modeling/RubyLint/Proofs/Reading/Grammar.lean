import RubyLint.Proofs.Layout.Sound

/-!
# What the productions say about the parts of nodes

The nodes that the steps of a production leave are told apart by their roles and by whether they are
tokens.  For a few phrases that make no node of their own all that they may leave is listed (`shapes`), so
that the parts of calls, blocks, methods and scopes are known.

* `Trait`                  what matters of a node in another one;
* `stepShapes`             the nodes that a step of a production leaves;
* `Production.Checked`     what holds of every production, seen by looking at each of them.
-/

namespace RubyLint.Ruby

/-! ## traits -/

/-- A node is a token, the parameters or the body of a block, or another node. -/
inductive Mark where
  | token | parameters | body | node
deriving DecidableEq

def Construct.mark : Construct → Mark
  | .token => .token
  | .blockParameters => .parameters
  | .blockBody | .bodyStatement => .body
  | _ => .node

/-- What a node is to its parent, and its mark. -/
abbrev Trait := Role × Mark

def Concrete.trait (c : Concrete) : Trait := (c.role, c.construct.mark)

/-- What is left inside a part takes the role of the part if it has none. -/
def Trait.within (role : Role) (t : Trait) : Trait := if t.1 = .plain then (role, t.2) else t

/-! ## terminals and symbols -/

namespace Terminal

def shapes : List Shape :=
  [.dataMark, .integer, .float, .constant, .constantSuffix, .identifier, .identifierSuffix,
    .instanceVariable, .classVariable, .globalVariable, .character, .escape, .blankRun, .uninterpreted,
    .comment]

def scannedTokens : List Scanned :=
  [.lineBreak, .noLineBreak, .simpleSymbol, .stringStart, .symbolStart, .subshellStart, .regexStart,
    .stringArrayStart, .symbolArrayStart, .stringContent, .stringEnd, .heredocBeginning,
    .heredocBodyStart, .heredocContent, .heredocEnd, .shortInterpolation, .blockAmpersand, .splatStar,
    .hashSplatStars, .binaryStar, .binaryStars, .unaryMinus, .numberMinus, .binaryMinus,
    .singletonAngles, .elementBracket, .hashKeySymbol, .markedIdentifier, .markedConstant]

/-- The terminals of the grammar. -/
def all : List Terminal :=
  [.finish, .bodyFinish, .barred .closing, .barred .otherClause] ++ shapes.map .shape ++
    scannedTokens.map .scanned ++ tightSigns.map .tight ++ words.map .word ++ signs.map .sign

/-- The tokens whose text is looked at, with their text. -/
def spelled : List (Terminal × List Char) :=
  [(.sign "\x7b", ['{']), (.word "do", ['d', 'o']), (.sign "::", [':', ':'])]

end Terminal

/-- The token opens a literal that ends with a delimiter. -/
def Scanned.isOpening : Scanned → Bool
  | .stringStart | .symbolStart | .subshellStart | .regexStart | .stringArrayStart
  | .symbolArrayStart => true
  | _ => false

namespace Symbol

def ofPhrase (p : Phrase) : Symbol := .nonterminal p.number
def ofTerminal (t : Terminal) : Symbol := .terminal t.code
def ofScanned (s : Scanned) : Symbol := .ofTerminal (.scanned s)

/-- The end of a literal with delimiters. -/
def closing : Symbol := ofScanned .stringEnd

def openings : List Symbol := (Terminal.scannedTokens.filter Scanned.isOpening).map ofScanned

/-- It neither opens nor closes a literal with delimiters. -/
def IsNeutral (X : Symbol) : Prop := X ∉ closing :: openings

instance (X : Symbol) : Decidable X.IsNeutral := inferInstanceAs (Decidable (X ∉ _))

/-- The phrases that make no node of their own. -/
def hidden : List Nat := (definitions.filter fun d => d.construct.isNone).map fun d => d.phrase.number

/-- The mark of the node that is made of a symbol by itself, if there is one. -/
def mark? : Symbol → Option Mark
  | .terminal code =>
    ((Terminal.all.find? fun t => t.code = code).bind Terminal.construct?).map Construct.mark
  | .nonterminal n =>
    if isRepeated n ∨ n ∈ hidden then none
    else if n = Phrase.blockParameters.number then some .parameters
    else if n = Phrase.blockBody.number ∨ n = Phrase.bodyStatement.number then some .body else some .node

def calls : List Symbol :=
  [Phrase.call, .commandCall, .commandCallWithBlock, .chainedCommand, .methodPath,
    .markedNameCall].map ofPhrase

def blocks : List Symbol := [Phrase.block, .doBlock].map ofPhrase
def scopes : List Symbol := [Phrase.scopeResolution, .constantPath].map ofPhrase
def methods : List Symbol := [Phrase.methodDefinition, .singletonMethod].map ofPhrase
def regex : Symbol := ofPhrase .regex

/-- The phrases that a method is made of, apart from its start. -/
def methodRests : List Symbol := [Phrase.methodRest, .bodyExpression].map ofPhrase

end Symbol

/-- The symbol may become a node of the construct. -/
def Construct.MayBe (k : Construct) (X : Symbol) : Prop :=
  (k = .call → X ∈ Symbol.calls) ∧ (k = .regex → X = .regex) ∧
    (k = .scopeResolution → X ∈ Symbol.scopes) ∧
    (k ∈ [.methodDefinition, .singletonMethod] → X ∈ Symbol.methods)

instance (k : Construct) (X : Symbol) : Decidable (k.MayBe X) := inferInstanceAs (Decidable (_ ∧ _))

/-! ## shapes -/

/-- The phrases that only choose between single nodes. -/
def choices : List Nat :=
  [Phrase.primary, .target, .variableName, .nonlocalVariable, .plainLiteral, .numeric, .simpleNumeric,
    .markedName, .methodName, .argument, .constantPattern].map Phrase.number

/-- The nodes that some phrases leave, one list for each way to write them; for others nothing is
known. -/
def shapes? (n : Nat) : Option (List (List Trait)) :=
  if n ∈ choices then some [[(.plain, .node)]]
  else if n = Phrase.callOperator.number then some [[(.plain, .token)]]
  else if n = Phrase.methodPath.number ∨ n = Phrase.chainedCommand.number then
    some [[(.receiver, .node), (.operator, .token), (.method, .node)]]
  else if n = Phrase.markedNameCall.number then some [[(.method, .node)]]
  else if n = Phrase.terminator.number then some [[], [(.plain, .token)]]
  else none

/-- The nodes that a step leaves. -/
def stepShapes? (s : Step) : Option (List (List Trait)) :=
  match (s.construct.map Construct.mark).or s.symbol.mark?, s.symbol with
  | some mark, _ => some [[(s.role, mark)]]
  | none, .terminal _ => some [[]]
  | none, .nonterminal n => (shapes? n).map (List.map (List.map (Trait.within s.role)))

/-- The nodes that steps leave one behind the other. -/
def sequenceShapes? : List Step → Option (List (List Trait))
  | [] => some [[]]
  | s :: ss => (stepShapes? s).bind fun first => (sequenceShapes? ss).map fun rest =>
    first.flatMap fun a => rest.map (a ++ ·)

/-- Whatever the steps leave has the property. -/
def Leave (P : List Trait → Prop) (ss : List Step) : Prop :=
  ∃ M ∈ sequenceShapes? ss, ∀ ts ∈ M, P ts

instance (P : List Trait → Prop) [DecidablePred P] (ss : List Step) : Decidable (Leave P ss) :=
  inferInstanceAs (Decidable (∃ M ∈ sequenceShapes? ss, _))

/-- The parts of a call stand in their order, and one with a block has a name or arguments. -/
def IsCallShape (ts : List Trait) : Prop :=
  ((ts.map Prod.fst).filter (· ∈ callRoles)).Sublist callRoles ∧
    (.block ∈ ts.map Prod.fst → ∃ t ∈ ts, t.1 ∈ [.operator, .method, .arguments])

instance : DecidablePred IsCallShape := fun _ => inferInstanceAs (Decidable (_ ∧ _))

/-- The node may stand in a block. -/
def IsBlockTrait (t : Trait) : Prop :=
  t ∈ [(.plain, .token), (.parameters, .parameters), (.body, .body)]

instance : DecidablePred IsBlockTrait := fun t =>
  inferInstanceAs (Decidable (t ∈ [(Role.plain, Mark.token), (.parameters, .parameters), (.body, .body)]))

/-- The node may stand in a method. -/
def IsMethodTrait (t : Trait) : Prop := t.2 = .token ∨ t.1 ∈ [.name, .parameters, .object, .body]

instance : DecidablePred IsMethodTrait := fun _ => inferInstanceAs (Decidable (_ ∨ _))

/-! ## productions -/

/-- The step is a word or a sign that leaves no node. -/
def Step.IsToken (s : Step) : Prop :=
  s.role = .plain ∧ (s.construct.map Construct.mark).or s.symbol.mark? = some .token

instance : DecidablePred Step.IsToken := fun _ => inferInstanceAs (Decidable (_ ∧ _))

/-- What a step is made, it may be. -/
structure Step.Checked (s : Step) : Prop where
  made : ∀ k ∈ s.construct, k.MayBe s.symbol
  block : s.role = .block → s.symbol ∈ Symbol.blocks ∧ s.construct = none

instance : DecidablePred Step.Checked := fun s =>
  decidable_of_iff ((∀ k ∈ s.construct, k.MayBe s.symbol) ∧
      (s.role = .block → s.symbol ∈ Symbol.blocks ∧ s.construct = none))
    ⟨fun h => ⟨h.1, h.2⟩, fun h => ⟨h.made, h.block⟩⟩

/-- The literals that are opened in the production are closed in it. -/
def Production.IsBalanced (p : Production) : Prop :=
  (∀ s ∈ p.steps, s.symbol.IsNeutral) ∨
    ∃ first ∈ p.steps.head?, ∃ last ∈ p.steps.getLast?, first.symbol ∈ Symbol.openings ∧
      last.symbol = .closing ∧ ∀ s ∈ p.steps.tail.dropLast, s.symbol.IsNeutral

instance : DecidablePred Production.IsBalanced := fun _ => inferInstanceAs (Decidable (_ ∨ _))

/-- What is left of the steps is listed for the phrase. -/
def Production.IsListed (p : Production) : Prop := ∀ M ∈ shapes? p.goal, Leave (· ∈ M) p.steps

def Production.IsCall (p : Production) : Prop :=
  .nonterminal p.goal ∈ Symbol.calls → Leave IsCallShape p.steps

/-- A block starts with its opening token. -/
def Production.IsBlock (p : Production) : Prop :=
  .nonterminal p.goal ∈ Symbol.blocks →
    (∃ s ∈ p.steps.head?, s.IsToken ∧
      s.symbol ∈ [Symbol.ofTerminal (.sign "\x7b"), .ofTerminal (.word "do")]) ∧
      ∀ s ∈ p.steps, Leave (∀ t ∈ ·, IsBlockTrait t) [s]

/-- A regular expression stands between its opening and its closing token. -/
def Production.IsRegex (p : Production) : Prop :=
  .nonterminal p.goal = Symbol.regex →
    (∃ s ∈ p.steps.head?, s.IsToken ∧ s.symbol = .ofScanned .regexStart) ∧
      ∃ s ∈ p.steps.getLast?, s.IsToken

/-- What stands in a scope has one, or starts with the sign for the outermost one. -/
def Production.IsScope (p : Production) : Prop :=
  .nonterminal p.goal ∈ Symbol.scopes →
    (∃ s ∈ p.steps.head?, s.symbol = .ofTerminal (.sign "::")) ∨
      Leave (fun ts => ∃ t ∈ ts, t.1 = .scope) p.steps

def Production.IsMethod (p : Production) : Prop :=
  .nonterminal p.goal ∈ Symbol.methods ++ Symbol.methodRests → ∀ s ∈ p.steps,
    Leave (∀ t ∈ ·, IsMethodTrait t) [s] ∨
      s.symbol ∈ Symbol.methodRests ∧ s.role = .plain ∧ s.construct = none

section
variable (p : Production)

instance : Decidable p.IsListed := inferInstanceAs (Decidable (∀ M ∈ shapes? p.goal, _))
instance : Decidable p.IsCall := inferInstanceAs (Decidable (_ → _))
instance : Decidable p.IsBlock := inferInstanceAs (Decidable (_ → _))
instance : Decidable p.IsRegex := inferInstanceAs (Decidable (_ → _))
instance : Decidable p.IsScope := inferInstanceAs (Decidable (_ → _))
instance : Decidable p.IsMethod := inferInstanceAs (Decidable (_ → _))

end

/-- What a production says about the nodes that are made of its steps. -/
structure Production.Checked (p : Production) : Prop where
  steps : ∀ s ∈ p.steps, s.Checked
  ne_nil : p.goal ≠ Phrase.program.number → p.steps ≠ []
  balanced : p.IsBalanced
  mark : p.construct.map Construct.mark = (Symbol.nonterminal p.goal).mark?
  made : ∀ k ∈ p.construct, k.MayBe (.nonterminal p.goal)
  listed : p.IsListed
  call : p.IsCall
  block : p.IsBlock
  regex : p.IsRegex
  scope : p.IsScope
  method : p.IsMethod

instance : DecidablePred Production.Checked := fun _ =>
  decidable_of_iff (_ ∧ _ ∧ _ ∧ _ ∧ _ ∧ _ ∧ _ ∧ _ ∧ _ ∧ _ ∧ _)
    ⟨fun ⟨h₁, h₂, h₃, h₄, h₅, h₆, h₇, h₈, h₉, h₁₀, h₁₁⟩ => ⟨h₁, h₂, h₃, h₄, h₅, h₆, h₇, h₈, h₉, h₁₀, h₁₁⟩,
      fun h => ⟨h.steps, h.ne_nil, h.balanced, h.mark, h.made, h.listed, h.call, h.block, h.regex,
        h.scope, h.method⟩⟩

theorem productions_checked : ∀ p ∈ productions, p.Checked := by decide +kernel

/-! ## terminals -/

/-- What a terminal says about the part that is read from it. -/
structure Terminal.Checked (t : Terminal) : Prop where
  mark : t.construct?.map Construct.mark = (Symbol.ofTerminal t).mark?
  made : ∀ k ∈ t.construct?, k.MayBe (.ofTerminal t)
  neutral : (Symbol.ofTerminal t).IsNeutral ∨
    t ∈ (.stringEnd :: scannedTokens.filter Scanned.isOpening).map Terminal.scanned
  spelled : ∀ e ∈ Terminal.spelled, t.code = e.1.code → t = e.1

instance : DecidablePred Terminal.Checked := fun _ =>
  decidable_of_iff (_ ∧ _ ∧ _ ∧ _)
    ⟨fun ⟨h₁, h₂, h₃, h₄⟩ => ⟨h₁, h₂, h₃, h₄⟩, fun h => ⟨h.mark, h.made, h.neutral, h.spelled⟩⟩

theorem terminals_checked : ∀ t ∈ Terminal.all, t.Checked := by decide +kernel

end RubyLint.Ruby
