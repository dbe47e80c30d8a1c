import RubyLint.Ruby.Grammar.Call
import RubyLint.Ruby.Grammar.Definition
import RubyLint.Ruby.Grammar.Expression
import RubyLint.Ruby.Grammar.Literal

/-!
# Productions

The rules of the grammar as plain sequences.  A rule is spread into its alternatives
(`Rule.sequences`), each of them a list of `Step`s; where one or more of something may stand, the
rule for it becomes a nonterminal of its own with the two productions "two runs of them" and "one of
them".  No production is empty, but for that of the empty text.
-/

namespace RubyLint.Ruby

def definitions : List Definition :=
  statementRules ++ modifierRules ++ bodyRules ++ branchRules ++ methodRules ++ parameterRules ++
  classRules ++ matchRules ++ patternRules ++ valuePatternRules ++ callRules ++ argumentRules ++
  blockRules ++ jumpRules ++ expressionRules ++ assignmentRules ++ operatorRules ++ numberRules ++
  textRules ++ collectionRules

/-- What a sequence is made of; nonterminals are the phrases and, behind them, the repeated
rules. -/
inductive Symbol where
  | terminal (code : Nat)
  | nonterminal (number : Nat)
deriving DecidableEq

/-- A place in a sequence: its symbol, how tightly it binds and to which side it groups, and what
it is in the node of the phrase. -/
structure Step where
  symbol : Symbol
  level : Int
  side : Option Side
  role : Role
  construct : Option Construct
deriving DecidableEq

namespace Rule

/-- The rules that are repeated somewhere in a rule. -/
def repeated : Rule → List Rule
  | nothing | token _ | phrase _ => []
  | seq r s | alt r s => repeated r ++ repeated s
  | several r => r :: repeated r
  | bound _ _ r | part _ r | named _ r => repeated r

/-- What the rules around a rule say about its steps. -/
structure Surroundings where
  level : Int
  side : Option Side
  role : Role
  construct : Option Construct

def Surroundings.step (around : Surroundings) (symbol : Symbol) : Step :=
  ⟨symbol, around.level, around.side, around.role, around.construct⟩

/-- The sequence with its last step loosened to what is around it. -/
def Surroundings.loosen (around : Surroundings) (level side : Bool) : List Step → List Step
  | [] => []
  | [s] =>
    [{ s with
      level := if level then around.level else s.level
      side := if side then around.side else s.side }]
  | s :: ss => s :: around.loosen level side ss

/-- The sequences of a rule.  What is bound in the middle of a sequence binds up to its last step,
which lies between it and what follows. -/
def sequences (number : Rule → Nat) (around : Surroundings) (atEnd : Bool) :
    Rule → List (List Step)
  | nothing => [[]]
  | token t => [[around.step (.terminal t.code)]]
  | phrase p => [[around.step (.nonterminal p.number)]]
  | several r => [[around.step (.nonterminal (number r))]]
  | seq r s =>
    (sequences number around false r).flatMap fun a =>
      (sequences number around atEnd s).map (a ++ ·)
  | alt r s => sequences number around atEnd r ++ sequences number around atEnd s
  | bound level side r =>
    let inside := { around with level := level.getD around.level, side := side.or around.side }
    let all := sequences number inside atEnd r
    if atEnd then all else all.map (around.loosen level.isSome side.isSome)
  | part role r => sequences number { around with role } atEnd r
  | named construct r => sequences number { around with construct := some construct } atEnd r

/-- The sequences of a rule that nothing is around. -/
def alternatives (number : Rule → Nat) (r : Rule) : List (List Step) :=
  (sequences number ⟨0, none, .plain, none⟩ true r).eraseDups

end Rule

/-- The rules that are repeated somewhere in the grammar. -/
def repeatedRules : List Rule := (definitions.flatMap fun d => d.rule.repeated).eraseDups

/-- The number of the nonterminal for one or more of a rule. -/
def repeatedNumber (r : Rule) : Nat := Phrase.count + repeatedRules.idxOf r

def nonterminalCount : Nat := Phrase.count + repeatedRules.length

/-- The nonterminal stands for one or more of a rule. -/
def isRepeated (nonterminal : Nat) : Bool := Phrase.count ≤ nonterminal

/-- A nonterminal, the construct of its nodes if it makes any, and one of its sequences. -/
structure Production where
  goal : Nat
  construct : Option Construct
  steps : List Step

def Definition.productions (d : Definition) : List Production :=
  (d.rule.alternatives repeatedNumber).map fun steps => ⟨d.phrase.number, d.construct, steps⟩

/-- The productions for one or more of a rule. -/
def repeatedProductions (r : Rule) : List Production :=
  let self : Step := ⟨.nonterminal (repeatedNumber r), 0, none, .plain, none⟩
  ([self, self] :: r.alternatives repeatedNumber).map fun steps => ⟨repeatedNumber r, none, steps⟩

def productions : List Production :=
  definitions.flatMap Definition.productions ++ repeatedRules.flatMap repeatedProductions

end RubyLint.Ruby
