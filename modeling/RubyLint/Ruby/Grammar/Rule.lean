import RubyLint.Ruby.Grammar.Phrase
import RubyLint.Ruby.Grammar.Terminal

/-!
# Rules

The right-hand sides of the grammar.  A `Rule` says what a phrase may consist of, and

* how tightly its last sign binds and to which side it groups (`bound`), which decides between two
  readings of one text;
* which parts have a role in the node of the phrase (`part`);
* which parts are nodes of another construct than their own (`named`).

A text may be written for the word or sign that it spells, and a phrase for the rule that it is.
-/

namespace RubyLint.Ruby

/-- The side to which operators of one level group. -/
inductive Side where
  | left | right
deriving DecidableEq

inductive Rule where
  | nothing
  | token (terminal : Terminal)
  | phrase (phrase : Phrase)
  | seq (first second : Rule)
  | alt (first second : Rule)
  /-- one or more -/
  | several (one : Rule)
  /-- a level, a side, or both, for the signs in it -/
  | bound (level : Option Int) (side : Option Side) (rule : Rule)
  | part (role : Role) (rule : Rule)
  | named (construct : Construct) (rule : Rule)
deriving DecidableEq

/-! ## levels of binding, the looser ones first -/

namespace Level

def not : Int := 5
def defined : Int := 10
def assign : Int := 15
def rescued : Int := 16
def conditional : Int := 20
def range : Int := 25
def or : Int := 30
def and : Int := 35
def equality : Int := 40
def comparison : Int := 45
def bitOr : Int := 50
def bitAnd : Int := 55
def shift : Int := 60
def sum : Int := 65
def product : Int := 70
def minus : Int := 75
def power : Int := 80
def complement : Int := 85

end Level

/-! ## writing rules -/

namespace Rule

def ofText (text : String) : Rule :=
  .token (if Terminal.words.contains text then .word text else .sign text)

instance : Coe String Rule := ⟨ofText⟩
instance : Coe Phrase Rule := ⟨.phrase⟩

/-- One behind the other. -/
def all : List Rule → Rule
  | [] => nothing
  | [r] => r
  | r :: rs => seq r (all rs)

def oneOf : List Rule → Rule
  | [] => nothing
  | [r] => r
  | r :: rs => alt r (oneOf rs)

def maybe (r : Rule) : Rule := alt r nothing

def many (r : Rule) : Rule := maybe (several r)

/-- One or more with a separator between them. -/
def separated (by' r : Rule) : Rule := seq r (many (seq by' r))

/-- One or more with commas between them. -/
def commas (r : Rule) : Rule := separated "," r

def leftAt (level : Int) (r : Rule) : Rule := bound (some level) (some .left) r
def rightAt (level : Int) (r : Rule) : Rule := bound (some level) (some .right) r
def atLevel (level : Int) (r : Rule) : Rule := bound (some level) none r

def shape (s : Shape) : Rule := token (.shape s)
def scanned (s : Scanned) : Rule := token (.scanned s)
def tight (text : String) : Rule := token (.tight text)
def barred (group : Barred) : Rule := token (.barred group)

def identifier : Rule := shape .identifier
def constant : Rule := shape .constant

/-- The tokens of a rule, as words or signs that are written out. -/
def asToken (r : Rule) : Rule := named .token r

end Rule

/-- What a phrase consists of, and the construct of its nodes if it makes any. -/
structure Definition where
  phrase : Phrase
  construct : Option Construct
  rule : Rule

/-- A phrase that is a node. -/
def shown (phrase : Phrase) (construct : Construct) (rule : Rule) : Definition :=
  ⟨phrase, some construct, rule⟩

/-- A phrase that only groups its parts. -/
def hidden (phrase : Phrase) (rule : Rule) : Definition := ⟨phrase, none, rule⟩

end RubyLint.Ruby
