import RubyLint.Ruby.Grammar.Production

/-!
# Tables of the grammar

What is worked out once from the productions, for following a text through them: which terminals
each nonterminal may start with (`Table.first`), which productions start with a symbol
(`Table.starting`), and which nonterminals stand at the very start of another one (`Table.corner`),
with the terminals that may follow them there.
-/

namespace RubyLint.Ruby

/-- How a nonterminal may stand at the start of another: the terminals that may follow it inside,
and whether it may also be all of it. -/
structure Corner where
  follow : TerminalSet
  isWhole : Bool
deriving DecidableEq

namespace Corner

/-- It stands nowhere at the start. -/
def none : Corner := ⟨.empty, false⟩

/-- It is the nonterminal itself. -/
def self : Corner := ⟨.empty, true⟩

def join (a b : Corner) : Corner := ⟨a.follow.union b.follow, a.isWhole || b.isWhole⟩

/-- What may follow it, where the terminals are known that follow the whole. -/
def followBy (c : Corner) (after : TerminalSet) : TerminalSet :=
  if c.isWhole then c.follow.union after else c.follow

end Corner

/-- An association of nonterminals with values; others have a default. -/
abbrev ByNumber (α : Type) := Array α

structure Table where
  first : ByNumber TerminalSet
  /-- the productions whose first symbol is a terminal, and those where it is a nonterminal -/
  startingTerminal : Array (List Production)
  startingNonterminal : ByNumber (List Production)
  corners : ByNumber (Thunk (ByNumber Corner))

namespace Table

/-- The terminals that a symbol may start with. -/
def firstIn (first : ByNumber TerminalSet) : Symbol → TerminalSet
  | .terminal code => .single code
  | .nonterminal n => first.getD n .empty

/-- One round: each production adds what its first symbol may start with. -/
def firstRound (first : ByNumber TerminalSet) : ByNumber TerminalSet :=
  productions.foldl (fun first p =>
    match p.steps with
    | [] => first
    | s :: _ => first.modify p.goal (·.union (firstIn first s.symbol))) first

/-- Rounds until nothing is added; there are at most as many as there are nonterminals. -/
def firstFrom : Nat → ByNumber TerminalSet → ByNumber TerminalSet
  | 0, first => first
  | rounds + 1, first =>
    let next := firstRound first
    if next == first then first else firstFrom rounds next

/-- The productions by what a function says of them. -/
def grouped (size : Nat) (key : Production → Option Nat) : Array (List Production) :=
  productions.foldr (fun p groups =>
    match key p with
    | some n => groups.modify n (p :: ·)
    | none => groups) (Array.replicate size [])

/-- The nonterminals that the productions of a nonterminal start with, and how they stand there. -/
def cornerSteps (first : ByNumber TerminalSet) (byGoal : Array (List Production)) (n : Nat) :
    List (Nat × Corner) :=
  (byGoal.getD n []).filterMap fun p =>
    match p.steps with
    | ⟨.nonterminal m, _, _, _, _⟩ :: rest => some (m, match rest with
      | [] => Corner.self
      | s :: _ => ⟨firstIn first s.symbol, false⟩)
    | _ => none

/-- Adds what the nonterminals of a list start with, and goes on with those that this changed. -/
def cornersFrom (steps : Nat → List (Nat × Corner)) : Nat → List Nat → ByNumber Corner →
    ByNumber Corner
  | 0, _, corners => corners
  | _ + 1, [], corners => corners
  | fuel + 1, n :: work, corners =>
    let here := corners.getD n Corner.none
    let (work, corners) := (steps n).foldl (fun (work, corners) (m, c) =>
      let old := corners.getD m Corner.none
      let new := old.join ⟨c.followBy here.follow, c.isWhole && here.isWhole⟩
      if new = old then (work, corners) else (m :: work, corners.setIfInBounds m new))
      (work, corners)
    cornersFrom steps fuel work corners

/-- The nonterminals that stand at the start of one. -/
def cornersOf (steps : Nat → List (Nat × Corner)) (n : Nat) : ByNumber Corner :=
  cornersFrom steps (64 * nonterminalCount * nonterminalCount) [n]
    ((Array.replicate nonterminalCount Corner.none).setIfInBounds n Corner.self)

def ofGrammar : Table :=
  let first := firstFrom nonterminalCount (Array.replicate nonterminalCount .empty)
  let byGoal := grouped nonterminalCount fun p => some p.goal
  let steps := (Array.range nonterminalCount).map (cornerSteps first byGoal)
  { first
    startingTerminal := grouped 256 fun p =>
      match p.steps with
      | ⟨.terminal code, _, _, _, _⟩ :: _ => some code
      | _ => none
    startingNonterminal := grouped nonterminalCount fun p =>
      match p.steps with
      | ⟨.nonterminal n, _, _, _, _⟩ :: _ => some n
      | _ => none
    corners := (Array.range nonterminalCount).map fun n =>
      Thunk.mk fun _ => cornersOf (fun m => steps.getD m []) n }

/-- The terminals that a symbol may start with. -/
def firstOf (t : Table) (s : Symbol) : TerminalSet := firstIn t.first s

/-- The productions whose first symbol is the given one. -/
def starting (t : Table) : Symbol → List Production
  | .terminal code => t.startingTerminal.getD code []
  | .nonterminal n => t.startingNonterminal.getD n []

/-- How the nonterminal `m` stands at the start of `n`. -/
def corner (t : Table) (n m : Nat) : Corner :=
  match t.corners[n]? with
  | some corners => corners.get.getD m Corner.none
  | none => Corner.none

end Table

def rubyTable : Table := .ofGrammar

end RubyLint.Ruby
