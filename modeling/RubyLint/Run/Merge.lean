import RubyLint.Edit.Set
import RubyLint.Rule.Basic

/-!
# The corrections of one pass

Corrections are taken in the order of their offenses, each as a whole.  One that is in conflict with
itself or with what has been taken waits for a later pass.
-/

namespace RubyLint

/-- What is taken in one pass. -/
structure Merge where
  edits : EditSet
  /-- the rules whose corrections are taken, each once -/
  rules : List String
  /-- the number of corrections that are taken -/
  taken : Nat

namespace Merge

def empty : Merge := ⟨EditSet.empty, [], 0⟩

/-- Puts a name at the end, unless it is there. -/
def addOnce (rules : List String) (rule : String) : List String :=
  if rules.contains rule then rules else rules ++ [rule]

/-- Takes the correction of an offense if it fits. -/
def add (m : Merge) (o : Offense) : Merge :=
  match o.correction with
  | none => m
  | some c =>
    match m.edits.addAll c.edits with
    | .ok edits => ⟨edits, addOnce m.rules o.rule, m.taken + 1⟩
    | .error _ => m

/-- Takes what fits, first come, first served. -/
def ofOffenses (offenses : List Offense) : Merge := offenses.foldl add empty

end Merge

end RubyLint
