import RubyLint.Run.Inspection
import RubyLint.Run.Merge

/-!
# Correcting a text

A run parses a text and inspects it.  If it is to correct, it goes on in rounds (`Runner.round`): it
makes the corrections of the pending offenses, parses what comes out and inspects that.  It ends
when nothing is left to correct, when a text comes back, or when the passes are used up.

A text is known again by its fingerprint.  `Run.texts` holds every text that has been parsed, so
that a run can be followed from outside.
-/

namespace RubyLint

/-- Why a run has no outcome. -/
inductive RunError where
  | parse (e : ParseError)
  /-- the corrections of these rules have made a text that does not parse -/
  | reparse (rules : List String) (e : ParseError)
  | edit (e : EditError)
  | cancelled
deriving DecidableEq

def RunError.message : RunError → String
  | .parse e => "failed to parse source: " ++ e.message
  | .reparse rules e => "corrected source no longer parses after edits by " ++
      String.intercalate ", " rules ++ ": " ++ e.message
  | .edit e => "invalid edit: " ++ e.message
  | .cancelled => "run cancelled"

/-- Why the passes ended although something is left to correct. -/
inductive RunWarning where
  /-- the passes were used up -/
  | passesUsedUp (max : Nat)
  /-- the pass made a text that had been there before -/
  | cycle (pass : Nat)
deriving DecidableEq

inductive Mode where
  | inspect
  | correct
deriving DecidableEq, Inhabited

structure Outcome where
  /-- the offenses of the text that was given -/
  offenses : List Offense
  /-- the last text, if there was a pass -/
  corrected? : Option String
  passes : Nat
  /-- the number of corrections that were made in all passes -/
  applied : Nat
  warnings : List RunWarning
deriving DecidableEq

structure Run where
  result : Except RunError Outcome
  /-- the texts that were parsed, in order -/
  texts : List String
  /-- the run was to be abandoned -/
  cancelled : Bool

abbrev Parser := String → Except ParseError SyntaxTree

/-- A run between two rounds. -/
structure Progress where
  /-- the offenses of the text that was given -/
  offenses : List Offense
  current : String
  /-- the texts so far, the current one included, in order -/
  texts : List String
  /-- the fingerprints of the texts so far -/
  seen : List UInt64
  /-- the offenses of the current text -/
  pending : List Offense
  passes : Nat
  applied : Nat
  warnings : List RunWarning
  cancelled : Bool

namespace Progress

/-- The run ends with the current text. -/
def done (p : Progress) : Run where
  result := .ok {
    offenses := p.offenses
    corrected? := if p.passes = 0 then none else some p.current
    passes := p.passes
    applied := p.applied
    warnings := p.warnings }
  texts := p.texts
  cancelled := p.cancelled

def failed (p : Progress) (e : RunError) : Run := ⟨.error e, p.texts, p.cancelled⟩

def warn (p : Progress) (w : RunWarning) : Progress := { p with warnings := p.warnings ++ [w] }

/-- After a pass that has made the given text. -/
def advance (p : Progress) (text : String) (fingerprint : UInt64) (taken : Nat) : Progress :=
  { p with
    current := text
    texts := p.texts ++ [text]
    seen := p.seen ++ [fingerprint]
    passes := p.passes + 1
    applied := p.applied + taken }

end Progress

/-- Where a round leads to. -/
inductive Round where
  | ended (run : Run)
  | goesOn (p : Progress)

namespace Runner

/-- A run that has parsed and inspected the text it was given. -/
def start (r : Runner) (source : String) (offenses : List Offense) (cancelled : Bool) : Progress where
  offenses
  current := source
  texts := [source]
  seen := [r.fingerprint source]
  pending := offenses
  passes := 0
  applied := 0
  warnings := []
  cancelled

/-- One round: collects the corrections of the pending offenses and, if there are any and a pass is
left, makes them, parses what comes out and inspects that. -/
def round (r : Runner) (parse : Parser) (p : Progress) : Round :=
  let merge := Merge.ofOffenses p.pending
  if merge.edits.isEmpty then .ended p.done
  else if r.config.maxIterations ≤ p.passes then
    .ended (p.warn (.passesUsedUp r.config.maxIterations)).done
  else
    match merge.edits.apply p.current with
    | .error e => .ended (p.failed (.edit e))
    | .ok text =>
      match parse text with
      | .error e => .ended { p.failed (.reparse merge.rules e) with texts := p.texts ++ [text] }
      | .ok tree =>
        let next := p.advance text (r.fingerprint text) merge.taken
        if p.seen.contains (r.fingerprint text) then
          .ended (next.warn (.cycle next.passes)).done
        else
          let inspection := r.inspect tree p.cancelled
          match inspection.offenses? with
          | none => .ended ({ next with cancelled := inspection.cancelled }.failed .cancelled)
          | some pending => .goesOn { next with pending, cancelled := inspection.cancelled }

/-- A round that goes on has used up one pass of those that were left. -/
theorem passes_of_round {r : Runner} {parse : Parser} {p q : Progress}
    (h : r.round parse p = .goesOn q) :
    p.passes < r.config.maxIterations ∧ q.passes = p.passes + 1 := by
  simp only [round] at h
  split at h
  · cases h
  split at h
  · cases h
  next hlt =>
    refine ⟨by omega, ?_⟩
    repeat' split at h
    all_goals cases h
    rfl

/-- Goes on round after round. -/
def correctFrom (r : Runner) (parse : Parser) (p : Progress) : Run :=
  match _h : r.round parse p with
  | .ended run => run
  | .goesOn q => r.correctFrom parse q
termination_by r.config.maxIterations - p.passes
decreasing_by
  have := passes_of_round _h
  omega

/-- Parses and inspects a text, and corrects it if that is the mode, in a run that may have been
abandoned before. -/
def run (r : Runner) (parse : Parser) (mode : Mode) (source : String) (cancelled : Bool) : Run :=
  match parse source with
  | .error e => ⟨.error (.parse e), [source], cancelled⟩
  | .ok tree =>
    let inspection := r.inspect tree cancelled
    let started := fun offenses => r.start source offenses inspection.cancelled
    match inspection.offenses?, mode with
    | none, _ => (started []).failed .cancelled
    | some offenses, .inspect => (started offenses).done
    | some offenses, .correct => r.correctFrom parse (started offenses)

end Runner

end RubyLint
