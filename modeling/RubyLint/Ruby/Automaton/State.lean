import RubyLint.Ruby.Automaton.Table

/-!
# States

Where a text stands in the productions.  An `Item` is a production that has been followed up to some
step, with the terminals that may come behind it; a `State` holds the items that fit what has been
read.  A state knows which terminals may come next (`State.valid`) and what each of them asks for
(`State.action`): to be read on (`shift`), or that a production is complete first (`reduce`).
Where both fit, the levels of the signs around decide, then the side to which they group.
-/

namespace RubyLint.Ruby

/-- A production that has been followed up to some step. -/
structure Item where
  production : Production
  /-- the steps that are to come -/
  rest : List Step
  /-- the level and side of the last step behind -/
  level : Int
  side : Option Side
  lookahead : TerminalSet

namespace Item

def start (p : Production) (lookahead : TerminalSet) : Item := ⟨p, p.steps, 0, none, lookahead⟩

def isComplete (i : Item) : Bool := i.rest.isEmpty

/-- The item behind its next step, if that has the symbol. -/
def advance? (symbol : Symbol) (i : Item) : Option Item :=
  match i.rest with
  | [] => none
  | s :: rest =>
    if s.symbol = symbol then some { i with rest, level := s.level, side := s.side } else none

def expected (t : Table) (i : Item) : TerminalSet :=
  match i.rest with
  | [] => i.lookahead
  | s :: _ => t.firstOf s.symbol

/-- The terminals that may come behind the next step. -/
def behindNext (t : Table) (i : Item) : TerminalSet :=
  match i.rest with
  | _ :: s :: _ => t.firstOf s.symbol
  | _ => i.lookahead

end Item

/-- The items that fit what has been read.  Kept with them: the terminals that may come next, the
nonterminals that may start here with what may follow each of them, and the groups of words that
cannot be names here. -/
structure State where
  kernel : List Item
  valid : TerminalSet
  anchors : List (Nat × TerminalSet)
  barred : TerminalSet

namespace State

/-- The nonterminals that items have next. -/
def anchorsOf (t : Table) (kernel : List Item) : List (Nat × TerminalSet) :=
  kernel.filterMap fun i =>
    match i.rest with
    | ⟨.nonterminal n, _, _, _, _⟩ :: _ => some (n, i.behindNext t)
    | _ => none

/-- The groups of words that bar names: those that may follow every item, if one is complete. -/
def barredBy (kernel : List Item) : TerminalSet :=
  match kernel with
  | [] => .empty
  | i :: is =>
    if kernel.any Item.isComplete then is.foldl (fun a j => a.inter j.lookahead) i.lookahead
    else .empty

def ofKernel (t : Table) (kernel : List Item) : State where
  kernel
  valid := kernel.foldl (fun a i => a.union (i.expected t)) .empty
  anchors := anchorsOf t kernel
  barred := barredBy kernel

/-- The terminals that may follow a nonterminal that starts here. -/
def followOf (t : Table) (s : State) (n : Nat) : TerminalSet :=
  s.anchors.foldl (fun a (m, after) => a.union ((t.corner m n).followBy after)) .empty

def advance (t : Table) (s : State) (symbol : Symbol) : State :=
  let moved := s.kernel.filterMap (Item.advance? symbol)
  let begun := (t.starting symbol).filterMap fun p =>
    let follow := s.followOf t p.goal
    if follow.isEmpty then none else (Item.start p follow).advance? symbol
  ofKernel t (moved ++ begun)

def initial (t : Table) : State :=
  ofKernel t ((productions.filter fun p => p.goal = Phrase.program.number).map fun p =>
    Item.start p (.single Terminal.finish.code))

/-- The state behind the start of the body of a here-document. -/
def heredocBody (t : Table) : State :=
  let symbol : Symbol := .terminal (Terminal.scanned .heredocBodyStart).code
  ofKernel t ((t.starting symbol).filterMap fun p =>
    (Item.start p (.single Terminal.bodyFinish.code)).advance? symbol)

/-! ## actions -/

inductive Action where
  | shift
  | reduce (production : Production)
  | refuse

/-- The complete items behind which the terminal may come. -/
def completed (s : State) (code : Nat) : List Item :=
  s.kernel.filter fun i => i.isComplete && i.lookahead.hasCode code

/-- The items that have been started and go on with the terminal. -/
def continued (t : Table) (s : State) (code : Nat) : List Item :=
  s.kernel.filter fun i => !i.isComplete && (i.expected t).hasCode code

/-- The items of the highest level. -/
def tightest : List Item → List Item
  | [] => []
  | i :: is => match tightest is with
    | [] => [i]
    | j :: js =>
      if i.level < j.level then j :: js else if j.level < i.level then [i] else i :: j :: js

/-- Whether to read on, where items of a level are complete and others go on.  Of a repetition and
one that goes on, the first is complete; otherwise the higher level wins, and on one level the side
to which all complete items group. -/
def readsOn (complete : List Item) (level : Int) (ahead : List Item) : Bool :=
  let goals := (complete ++ ahead).map fun i => i.production.goal
  if goals.all fun g => isRepeated g && goals.head? == some g then false
  else
    let more := ahead.any fun i => decide (level < i.level)
    let less := ahead.any fun i => decide (i.level < level)
    if more || less then !less
    else complete.all fun i => i.level != level || i.side == some .right

/-- What a terminal asks for in a state. -/
def action (t : Table) (s : State) (code : Nat) : Action :=
  if !s.valid.hasCode code then .refuse
  else
    let complete := s.completed code
    let ahead := s.continued t code
    match tightest complete, ahead with
    | [], _ => .shift
    | i :: _, [] => .reduce i.production
    | i :: _, _ => if readsOn complete i.level ahead then .shift else .reduce i.production

end State

end RubyLint.Ruby
