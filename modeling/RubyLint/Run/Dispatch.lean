import RubyLint.Config.Basic
import RubyLint.Rule.Basic

/-!
# Which rules are asked about a node

`Config.activate` picks the rules that are not allowed away and that suit the target version, with
their severities.  A `Dispatch` lists them by the kinds of the nodes that they are asked about.
-/

namespace RubyLint

/-- A rule that is asked, with the severity of its offenses. -/
structure ActiveRule where
  rule : Rule
  severity : Severity

namespace Config

/-- What the rules are told. -/
def context (c : Config) : RuleContext := ⟨c.target, c.loopLiteralSize, c.methodLiteralSize⟩

/-- The target version has what the rule suggests. -/
def suits (c : Config) (r : Rule) : Bool :=
  r.minimum?.all fun minimum => minimum.notAfter c.target

/-- The rule as it is asked, unless it is not asked at all. -/
def activate? (c : Config) (r : Rule) : Option ActiveRule :=
  match c.severity? r.id r.severity with
  | some severity => if c.suits r then some ⟨r, severity⟩ else none
  | none => none

/-- The rules that are asked, in their order. -/
def activate (c : Config) (rules : List Rule) : List ActiveRule := rules.filterMap c.activate?

end Config

/-- The rules by the kinds of nodes that they are asked about. -/
structure Dispatch where
  entries : List (Kind × List ActiveRule)

namespace Dispatch

def empty : Dispatch := ⟨[]⟩

/-- The rules that are asked about nodes of the kind. -/
def rulesFor (d : Dispatch) (kind : Kind) : List ActiveRule :=
  match d.entries.find? fun e => e.1 == kind with
  | some e => e.2
  | none => []

/-- Puts a rule behind the others of the kind. -/
def addEntry (kind : Kind) (rule : ActiveRule) :
    List (Kind × List ActiveRule) → List (Kind × List ActiveRule)
  | [] => [(kind, [rule])]
  | e :: rest => if e.1 = kind then (kind, e.2 ++ [rule]) :: rest else e :: addEntry kind rule rest

def add (d : Dispatch) (kind : Kind) (rule : ActiveRule) : Dispatch :=
  ⟨addEntry kind rule d.entries⟩

/-- Adds a rule under each of its kinds. -/
def addRule (d : Dispatch) (rule : ActiveRule) : Dispatch :=
  rule.rule.kinds.foldl (fun d kind => d.add kind rule) d

def ofRules (rules : List ActiveRule) : Dispatch := rules.foldl addRule empty

theorem rulesFor_add (d : Dispatch) (kind other : Kind) (rule : ActiveRule) :
    (d.add kind rule).rulesFor other =
      if other = kind then d.rulesFor other ++ [rule] else d.rulesFor other := by
  obtain ⟨entries⟩ := d
  simp only [add, rulesFor]
  induction entries with
  | nil =>
    by_cases h : other = kind
    · simp [addEntry, h]
    · have h' : kind ≠ other := fun hk => h hk.symm
      simp [addEntry, h, h']
  | cons e rest ih =>
    unfold addEntry
    by_cases he : e.1 = kind
    · by_cases h : other = kind
      · simp [he, h]
      · have h' : kind ≠ other := fun hk => h hk.symm
        simp [he, h, h']
    · by_cases ho : e.1 = other
      · have h : other ≠ kind := fun hk => he (ho.trans hk)
        rw [if_neg he, if_neg h]
        simp [ho]
      · simpa [he, ho] using ih

end Dispatch

end RubyLint
