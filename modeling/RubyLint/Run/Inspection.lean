import RubyLint.Run.Dispatch
import RubyLint.Suppression
import RubyLint.Text.Bytes

/-!
# Inspecting a tree

A `Runner` holds the rules that a configuration leaves.  `Runner.inspect` visits the nodes of a tree
in pre-order and asks about each the rules for its kind.  An offense is reported if it and its
correction stay inside the node and no comment suppresses it.

A rule may ask that the run be abandoned; the inspection then ends before the next node.
-/

namespace RubyLint

/-- The rules and the configuration of a run. -/
structure Runner where
  config : Config
  active : List ActiveRule
  dispatch : Dispatch
  dispatch_eq : dispatch = Dispatch.ofRules active
  /-- the number by which a corrected text is known again -/
  fingerprint : String → UInt64

namespace Runner

/-- The runner for the rules that the configuration leaves. -/
def ofRules (rules : List Rule) (config : Config)
    (fingerprint : String → UInt64 := Text.fingerprint) : Runner :=
  let active := config.activate rules
  ⟨config, active, Dispatch.ofRules active, rfl, fingerprint⟩

/-- The identifiers of the rules that are asked, in their order. -/
def activeIds (r : Runner) : List String := r.active.map fun a => a.rule.id

end Runner

/-- The offense and all its edits lie inside the span. -/
def Offense.isInside (o : Offense) (bounds : Span) : Bool :=
  bounds.contains o.span &&
    o.correction.all fun c => c.edits.all fun e => bounds.contains e.span

/-- What has been reported, and whether the run is to be abandoned. -/
structure Report where
  offenses : List Offense
  cancelled : Bool

/-- The offenses that lie inside the span; a rule that fails has none. -/
def Evaluation.offensesIn (e : Evaluation) (bounds : Span) : List Offense :=
  match e.offenses with
  | .ok answered => answered.filter fun o => o.isInside bounds
  | .error _ => []

namespace ActiveRule

/-- What is reported of the rule's offenses: those that no comment suppresses, with the severity
that the configuration gives the rule. -/
def reported (a : ActiveRule) (s : Suppressions) (answered : List Offense) : List Offense :=
  (answered.filter fun o => !s.isSuppressed o.rule o.position.line).map fun o =>
    { o with severity := a.severity }

/-- Asks the rule about a node if it concerns the node. -/
def report (a : ActiveRule) (context : RuleContext) (s : Suppressions) {t : SyntaxTree}
    (n : Node t) : Report :=
  if a.rule.concerns n then
    let e := a.rule.evaluate context n
    ⟨a.reported s (e.offensesIn n.span), e.cancels⟩
  else ⟨[], false⟩

end ActiveRule

/-- The offenses of a tree, if the inspection came to its end, and whether the run is to be
abandoned. -/
structure Inspection where
  offenses? : Option (List Offense)
  cancelled : Bool

namespace Runner

/-- What the rules report about a node. -/
def reportOn (r : Runner) (s : Suppressions) {t : SyntaxTree} (n : Node t) : Report :=
  let reports := (r.dispatch.rulesFor n.kind).map fun a => a.report r.config.context s n
  ⟨reports.flatMap Report.offenses, reports.any Report.cancelled⟩

/-- Visits the nodes one after the other. -/
def visit (r : Runner) (s : Suppressions) {t : SyntaxTree} : Bool → List (Node t) → Inspection
  | cancelled, [] => ⟨some [], cancelled⟩
  | true, _ :: _ => ⟨none, true⟩
  | false, n :: rest =>
    let here := r.reportOn s n
    let behind := r.visit s here.cancelled rest
    ⟨behind.offenses?.map (here.offenses ++ ·), behind.cancelled⟩

/-- Inspects a tree, in a run that may have been abandoned before. -/
def inspect (r : Runner) (t : SyntaxTree) (cancelled : Bool) : Inspection :=
  r.visit (Suppressions.ofText t.source.toList) cancelled t.preorder

end Runner

end RubyLint
