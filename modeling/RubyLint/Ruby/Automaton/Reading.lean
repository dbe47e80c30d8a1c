import RubyLint.Ruby.Lexical.Lexeme
import RubyLint.Text.Bytes

/-!
# Readings

How far a text has been read.  A `Reading` is a place in the text and the stack of what has been
read before it: a `Part` for each symbol, with the state behind it.  A token is either put on the
stack (`Reading.shift`), or first the steps of a production that is complete become one part
(`Reading.reduce`).
-/

namespace RubyLint.Ruby

/-- A place in a text: what comes next, and how many bytes are before it. -/
structure Cursor where
  rest : List Char
  offset : Nat

def Cursor.advance (c : Cursor) (n : Nat) : Cursor :=
  ⟨c.rest.drop n, c.offset + Text.byteLength (c.rest.take n)⟩

namespace Cursor

theorem advance_zero (c : Cursor) : c.advance 0 = c := by
  simp [advance, Text.byteLength]

theorem advance_add (c : Cursor) (m n : Nat) : c.advance (m + n) = (c.advance m).advance n := by
  simp [advance, List.take_add, Text.byteLength_append, Nat.add_assoc]

theorem offset_le_advance (c : Cursor) (n : Nat) : c.offset ≤ (c.advance n).offset :=
  Nat.le_add_right _ _

end Cursor

/-- What a symbol has been read from: its span, its construct if it is a node, and the nodes in it,
the last first. -/
structure Part where
  span : Span
  construct : Option Construct
  inside : List Concrete

namespace Part

/-- The nodes of a list that a node keeps: tokens count only in a role. -/
def kept (cs : List Concrete) : List Concrete :=
  cs.filter fun c => !(c.isToken && c.role == .plain)

/-- What a part adds to the node it stands in, the last first. -/
def nodes (step : Step) (part : Part) : List Concrete :=
  match step.construct.or part.construct with
  | some construct => [.node step.role construct part.span (kept part.inside).reverse]
  | none =>
    if step.role = .plain then part.inside
    else part.inside.map fun c => if c.role = .plain then c.withRole step.role else c

/-- A part becomes a node only where it stands. -/
def isNamedBy (step : Step) (part : Part) : Bool := step.construct.isSome && part.construct.isNone

end Part

/-- A symbol that has been read, and the state behind it. -/
structure Frame where
  part : Part
  state : State

structure Reading where
  place : Cursor
  scanner : Scanner
  /-- the last frame first -/
  stack : List Frame
  /-- how many nodes have been read, words and signs among them -/
  nodes : Nat

namespace Reading

/-- The front of a text; a mark of the byte order before it is passed over. -/
def front (text : List Char) : Cursor :=
  let place : Cursor := ⟨text, 0⟩
  if text.head? = some '\ufeff' then place.advance 1 else place

def start (text : List Char) : Reading := ⟨front text, .fresh, [], 0⟩

def firstState : State := .initial rubyTable

def stateOf : List Frame → State
  | [] => firstState
  | f :: _ => f.state

def state (r : Reading) : State := stateOf r.stack

def lexeme? (r : Reading) : Option Lexeme := Ruby.lexeme? r.state r.scanner r.place.rest

def behind (r : Reading) (l : Lexeme) : Reading :=
  { r with place := r.place.advance (l.before + l.length), scanner := l.scanner }

def spanOf (r : Reading) (l : Lexeme) : Span :=
  let first := r.place.advance l.before
  ⟨first.offset, (first.advance l.length).offset⟩

def push (r : Reading) (state : State) (part : Part) : Reading :=
  { r with stack := ⟨part, state⟩ :: r.stack }

def shift (r : Reading) (terminal : Terminal) (span : Span) : Reading :=
  let construct := terminal.construct?
  let counted := { r with nodes := r.nodes + (if construct.isSome then 1 else 0) }
  counted.push (r.state.advance rubyTable (.terminal terminal.code)) ⟨span, construct, []⟩

/-- The frames of the steps of a production, which come last first, as one: the span, the nodes
inside, how many parts became nodes, and the frames before them. -/
def gather : List Step → List Frame → Span → List Concrete → Nat →
    Span × List Concrete × Nat × List Frame
  | step :: steps, f :: below, span, inside, named =>
    gather steps below ⟨f.part.span.start, span.stop⟩ (inside ++ f.part.nodes step)
      (named + if f.part.isNamedBy step then 1 else 0)
  | _, below, span, inside, named => (span, inside, named, below)

/-- The part that the steps of a production on the stack make, and the reading before it. -/
def gathered (r : Reading) (p : Production) : Part × Reading :=
  let last := match r.stack with
    | f :: _ => f.part.span.stop
    | [] => r.place.offset
  let (span, inside, named, below) := gather p.steps.reverse r.stack ⟨last, last⟩ [] 0
  let itself := if p.construct.isSome then 1 else 0
  (⟨span, p.construct, inside⟩, { r with stack := below, nodes := r.nodes + named + itself })

/-- The steps of a production on the stack become one symbol.  The body of a here-document leaves
nothing on the stack. -/
def reduce (r : Reading) (p : Production) : Reading :=
  let (part, before) := r.gathered p
  if p.goal = Phrase.heredocBody.number then before
  else before.push (before.state.advance rubyTable (.nonterminal p.goal)) part

inductive Outcome where
  /-- it has been read -/
  | read (r : Reading)
  /-- the text is complete -/
  | complete (statements : List Concrete)
  /-- it cannot come here -/
  | refused

/-- The terminal is spelled like a name. -/
def looksLikeName : Terminal → Bool
  | .word _ | .barred _ => true
  | _ => false

/-- Gives a terminal to a reading: productions that are complete are reduced until it can be put on
the stack.  A word that cannot come is taken for a name. -/
def feedFrom : Nat → Reading → Terminal → Span → Outcome
  | 0, _, _, _ => .refused
  | fuel + 1, r, terminal, span =>
    match r.state.action rubyTable terminal.code with
    | .shift =>
      match terminal with
      | .barred _ => .refused
      | _ => .read (r.shift terminal span)
    | .reduce p =>
      if p.goal = Phrase.program.number then
        .complete (Part.kept (r.gathered p).1.inside).reverse
      else if terminal = .bodyFinish then .read (r.reduce p)
      else feedFrom fuel (r.reduce p) terminal span
    | .refuse =>
      if looksLikeName terminal && r.state.valid.has (.shape .identifier) then
        feedFrom fuel r (.shape .identifier) span
      else .refused

/-- A bound for the reductions before a terminal: a reduction that takes no frame away goes on to
another nonterminal. -/
def feedBound (r : Reading) : Nat := (r.stack.length + 2) * (nonterminalCount + 1)

def feed (r : Reading) (terminal : Terminal) (span : Span) : Outcome :=
  feedFrom r.feedBound r terminal span

/-- Reads the next token.  Comments are passed over. -/
def step (r : Reading) : Outcome :=
  if r.state.valid.has .bodyFinish then r.feed .bodyFinish (.empty r.place.offset)
  else
    match r.lexeme? with
    | none => .refused
    | some l =>
      let span := r.spanOf l
      match l.terminal with
      | .shape .comment => .read { r.behind l with nodes := r.nodes + 1 }
      | .scanned .heredocBodyStart =>
        .read ((r.behind l).push (.heredocBody rubyTable) ⟨span, none, []⟩)
      | terminal => (r.behind l).feed terminal span

/-! ## whole texts -/

/-- What comes of a text: its statements, or how far it could be read. -/
inductive Result where
  | complete (statements : List Concrete)
  | stuck (r : Reading)

/-- Reads on for at most so many tokens. -/
def runFor : Nat → Reading → Result
  | 0, r => .stuck r
  | fuel + 1, r =>
    match r.step with
    | .read next => runFor fuel next
    | .complete statements => .complete statements
    | .refused => .stuck r

/-- Reads to the end.  Tokens without characters come at most once for each character and once for
each that is open. -/
def run (r : Reading) : Result := runFor (4 * (r.place.rest.length + r.stack.length + 4)) r

end Reading

end RubyLint.Ruby
