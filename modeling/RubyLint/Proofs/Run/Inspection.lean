import Mathlib.Data.List.Basic
import RubyLint.Proofs.Syntax.Preorder
import RubyLint.Run.Inspection

/-!
# What an inspection reports

An inspection finds the rules for a node in a table and walks the tree with a stack.
`Config.plainLoop` says what comes of it without either: two loops, over the nodes and over the
rules, in which every offense is attributed to the rule that has it.

* `rulesFor_ofRules`      the table lists the rules in their order, each once for each time it names
                          the kind;
* `offenses_reportOn`     so the report about a node is what the rules contribute, one by one;
* `inspect_eq`            without being abandoned, an inspection reports what the nodes give;
* `forget_plainLoop_eraseIdx`, `forget_plainLoop_allowing`   a rule that is left out takes its own
                          offenses along and no others.
-/

namespace RubyLint

/-! ## the table -/

namespace Dispatch

theorem rulesFor_foldl_add (kinds : List Kind) (d : Dispatch) (a : ActiveRule) (kind : Kind) :
    (kinds.foldl (fun d k => d.add k a) d).rulesFor kind =
      d.rulesFor kind ++ (kinds.filter (· == kind)).map fun _ => a := by
  induction kinds generalizing d with
  | nil => simp
  | cons k kinds ih =>
    rw [List.foldl_cons, ih, rulesFor_add, List.filter_cons]
    by_cases hk : kind = k
    · simp [hk]
    · have hk' : ¬ k = kind := fun h => hk h.symm
      simp [hk, hk']

theorem rulesFor_foldl_addRule (rules : List ActiveRule) (d : Dispatch) (kind : Kind) :
    (rules.foldl addRule d).rulesFor kind = d.rulesFor kind ++
      rules.flatMap fun a => (a.rule.kinds.filter (· == kind)).map fun _ => a := by
  induction rules generalizing d with
  | nil => simp
  | cons a rules ih =>
    rw [List.foldl_cons, ih, addRule, rulesFor_foldl_add, List.flatMap_cons, List.append_assoc]

/-- the rules for a kind are those that name it, in their order, each as often as it names it -/
theorem rulesFor_ofRules (rules : List ActiveRule) (kind : Kind) :
    (ofRules rules).rulesFor kind =
      rules.flatMap fun a => (a.rule.kinds.filter (· == kind)).map fun _ => a :=
  rulesFor_foldl_addRule rules empty kind

end Dispatch

/-! ## the plain loop -/

/-- an offense with the rule that has it: its place in the list of rules and its identifier -/
structure Attributed where
  place : Nat
  id : String
  offense : Offense

def contributed (contribution : Rule → List Offense) (rules : List (Rule × Nat)) :
    List Attributed :=
  rules.flatMap fun (r, place) => (contribution r).map fun o => ⟨place, r.id, o⟩

namespace Config

section
variable (c : Config) (s : Suppressions) {t : SyntaxTree}

/-- what a rule answers about a node: the offenses inside the node that no comment suppresses, with
the given severity; nothing if it fails -/
def answer (r : Rule) (severity : Severity) (n : Node t) : List Offense :=
  match (r.evaluate c.context n).offenses with
  | .error _ => []
  | .ok offenses =>
    (offenses.filter fun o => o.isInside n.span && !s.isSuppressed o.rule o.position.line).map
      fun o => { o with severity := severity }

/-- what a rule contributes to the report about a node: unless the configuration or the version
leaves it out, or the node is a call of a method that it does not name, its answer, once for each
time it names the kind of the node -/
def contribution (r : Rule) (n : Node t) : List Offense :=
  match c.severity? r.id r.severity with
  | none => []
  | some severity =>
    if (r.minimum?.all fun minimum => minimum.notAfter c.target) &&
        (!n.isCall || r.methods?.all fun methods => n.methodName?.any methods.contains) then
      r.kinds.flatMap fun kind => if kind = n.kind then c.answer s r severity n else []
    else []

/-- **the two loops**: over the nodes in pre-order, and over the rules in their order -/
def plainLoop (rules : List Rule) (t : SyntaxTree) : List Attributed :=
  t.rootNode.subtree.flatMap fun n =>
    contributed (fun r => c.contribution (Suppressions.ofText t.source.toList) r n) rules.zipIdx

end

/-- the configuration that allows what the rule forbids -/
def allowing (c : Config) (id : String) : Config := { c with rules := (id, .allow) :: c.rules }

end Config

/-! ## the report about a node -/

section
variable {c : Config} {s : Suppressions} {t : SyntaxTree}

theorem Rule.concerns_eq (r : Rule) (n : Node t) :
    r.concerns n =
      (!n.isCall || r.methods?.all fun methods => n.methodName?.any methods.contains) := by
  unfold concerns
  cases r.methods? with
  | none => simp
  | some methods => rfl

theorem ActiveRule.offenses_report (a : ActiveRule) (n : Node t) :
    (a.report c.context s n).offenses =
      if a.rule.concerns n then c.answer s a.rule a.severity n else [] := by
  unfold report Config.answer
  split
  · show a.reported s ((a.rule.evaluate c.context n).offensesIn n.span) = _
    unfold Evaluation.offensesIn reported
    split
    · next answered hanswer =>
      rw [List.filter_filter]
      simp only [hanswer, Bool.and_comm]
    · next fault hanswer => simp [hanswer]
  · rfl

theorem flatMap_report_eq (a : ActiveRule) (n : Node t) :
    ((a.rule.kinds.filter (· == n.kind)).flatMap fun _ => (a.report c.context s n).offenses) =
      if a.rule.concerns n then
        a.rule.kinds.flatMap fun kind =>
          if kind = n.kind then c.answer s a.rule a.severity n else []
      else [] := by
  rw [ActiveRule.offenses_report]
  by_cases hconcerns : a.rule.concerns n = true
  · simp only [if_pos hconcerns]
    induction a.rule.kinds with
    | nil => rfl
    | cons k kinds ih =>
      rw [List.filter_cons, List.flatMap_cons]
      by_cases hk : k = n.kind
      · simp [hk, ih]
      · simp [hk, ih]
  · simp [hconcerns]

/-- what a rule contributes is what the table gives for it, if it is active at all -/
theorem Config.contribution_eq (r : Rule) (n : Node t) :
    c.contribution s r n = (c.activate? r).toList.flatMap fun a =>
      (a.rule.kinds.filter (· == n.kind)).flatMap fun _ => (a.report c.context s n).offenses := by
  unfold contribution activate?
  cases c.severity? r.id r.severity with
  | none => rfl
  | some severity =>
    have hdef : c.suits r = r.minimum?.all fun minimum => minimum.notAfter c.target := rfl
    simp only [← hdef]
    cases c.suits r with
    | false => rfl
    | true =>
      simp only [if_true, Option.toList_some, List.flatMap_cons, List.flatMap_nil,
        List.append_nil, Bool.true_and]
      rw [flatMap_report_eq, Rule.concerns_eq]

end

/-! ## attribution -/

section
variable (f : Rule → List Offense) (rules : List Rule)

theorem contributed_cons (r : Rule) (place : Nat) (rest : List (Rule × Nat)) :
    contributed f ((r, place) :: rest) =
      (f r).map (fun o => ⟨place, r.id, o⟩) ++ contributed f rest := List.flatMap_cons

theorem forget_contributed (first : Nat) :
    (contributed f (rules.zipIdx first)).map Attributed.offense = rules.flatMap f := by
  induction rules generalizing first with
  | nil => rfl
  | cons r rules ih =>
    rw [List.zipIdx_cons, contributed_cons, List.map_append, List.map_map, ih, List.flatMap_cons]
    simp [Function.comp_def]

theorem filter_contributed_of_lt {place first : Nat} (h : place < first) :
    (contributed f (rules.zipIdx first)).filter (fun a => a.place != place) =
      contributed f (rules.zipIdx first) := by
  induction rules generalizing first with
  | nil => rfl
  | cons r rules ih =>
    have hkeep : (first != place) = true := by
      rw [bne_iff_ne]
      omega
    rw [List.zipIdx_cons, contributed_cons, List.filter_append, ih (Nat.lt_succ_of_lt h),
      List.filter_map]
    simp [Function.comp_def, hkeep]

/-- without the offenses of one place, there is what the rules without the one at that place
contribute -/
theorem forget_filter_place (k first : Nat) :
    ((contributed f (rules.zipIdx first)).filter fun a => a.place != first + k).map
      Attributed.offense = (rules.eraseIdx k).flatMap f := by
  induction rules generalizing k first with
  | nil => rfl
  | cons r rules ih =>
    rw [List.zipIdx_cons, contributed_cons, List.filter_append, List.map_append, List.filter_map]
    cases k with
    | zero =>
      rw [Nat.add_zero, filter_contributed_of_lt f rules (Nat.lt_succ_self first),
        forget_contributed]
      simp [Function.comp_def]
    | succ k =>
      have hne : first ≠ first + (k + 1) := by omega
      have hplace : first + (k + 1) = first + 1 + k := by omega
      rw [hplace] at hne ⊢
      rw [ih, List.eraseIdx_cons_succ, List.flatMap_cons]
      simp [Function.comp_def, hne]

/-- without the offenses of one identifier, there is what the rules contribute if those with that
identifier contribute nothing -/
theorem forget_filter_id (id : String) (first : Nat) :
    ((contributed f (rules.zipIdx first)).filter fun a => a.id != id).map Attributed.offense =
      rules.flatMap fun r => if r.id = id then [] else f r := by
  induction rules generalizing first with
  | nil => rfl
  | cons r rules ih =>
    rw [List.zipIdx_cons, contributed_cons, List.filter_append, List.map_append, List.filter_map,
      ih, List.flatMap_cons]
    by_cases hid : r.id = id
    · simp [Function.comp_def, hid]
    · simp [Function.comp_def, hid]

end

namespace Runner

section
variable {rules : List Rule} {c : Config} {fingerprint : String → UInt64} {s : Suppressions}
  {t : SyntaxTree}

theorem offenses_reportOn (n : Node t) :
    ((ofRules rules c fingerprint).reportOn s n).offenses =
      rules.flatMap fun r => c.contribution s r n := by
  show (((Dispatch.ofRules (c.activate rules)).rulesFor n.kind).map fun a =>
    a.report c.context s n).flatMap Report.offenses = _
  rw [Dispatch.rulesFor_ofRules, List.flatMap_map, List.flatMap_assoc, Config.activate,
    List.filterMap_eq_flatMap_toList, List.flatMap_assoc]
  simp only [List.flatMap_map, Config.contribution_eq]

/-! ## inspections that are not abandoned -/

theorem cancelled_report {context : RuleContext} (a : ActiveRule) (n : Node t) :
    (a.report context s n).cancelled =
      (a.rule.concerns n && (a.rule.evaluate context n).cancels) := by
  unfold ActiveRule.report
  cases a.rule.concerns n <;> rfl

theorem cancelled_reportOn (r : Runner) (n : Node t) :
    (r.reportOn s n).cancelled = r.active.any fun a => a.rule.kinds.any (· == n.kind) &&
      (a.rule.concerns n && (a.rule.evaluate r.config.context n).cancels) := by
  show ((r.dispatch.rulesFor n.kind).map fun a =>
    a.report r.config.context s n).any Report.cancelled = _
  rw [r.dispatch_eq, Dispatch.rulesFor_ofRules, List.any_map, List.any_flatMap]
  congr 1
  funext a
  rw [List.any_map, List.any_filter]
  simp only [Function.comp, cancelled_report]
  induction a.rule.kinds with
  | nil => rfl
  | cons k kinds ih =>
    rw [List.any_cons, List.any_cons, ih, Bool.and_or_distrib_right]

theorem cancelled_visit (r : Runner) (ns : List (Node t)) :
    (r.visit s false ns).cancelled = ns.any fun n => (r.reportOn s n).cancelled := by
  induction ns with
  | nil => rfl
  | cons n ns ih =>
    rw [visit, List.any_cons]
    cases hn : (r.reportOn s n).cancelled with
    | false => simpa [hn] using ih
    | true =>
      simp only [Bool.true_or]
      cases ns <;> rfl

theorem offenses?_visit {r : Runner} {ns : List (Node t)}
    (h : ∀ n ∈ ns, (r.reportOn s n).cancelled = false) :
    (r.visit s false ns).offenses? = some (ns.flatMap fun n => (r.reportOn s n).offenses) := by
  induction ns with
  | nil => rfl
  | cons n ns ih =>
    have hrest := ih fun m hm => h m (List.mem_cons_of_mem n hm)
    simp only [visit, h n List.mem_cons_self, hrest, Option.map_some, List.flatMap_cons]

/-- while a tree is inspected, no rule that is asked about a node abandons the run -/
theorem cancelled_inspect_iff :
    ((ofRules rules c fingerprint).inspect t false).cancelled = false ↔
      ∀ n ∈ t.preorder, ∀ a ∈ c.activate rules, n.kind ∈ a.rule.kinds → a.rule.concerns n = true →
        (a.rule.evaluate c.context n).cancels = false := by
  rw [inspect, cancelled_visit]
  simp only [cancelled_reportOn, List.any_eq_false, Bool.and_eq_true, List.any_eq_true, beq_iff_eq,
    exists_eq_right, not_exists, not_and, Bool.not_eq_true]
  rfl

/-- an inspection that is not abandoned reports what the plain loop gives -/
theorem inspect_eq (h : ((ofRules rules c fingerprint).inspect t false).cancelled = false) :
    ((ofRules rules c fingerprint).inspect t false).offenses? =
      some ((c.plainLoop rules t).map Attributed.offense) := by
  have hquiet : ∀ n ∈ t.preorder, ((ofRules rules c fingerprint).reportOn
      (Suppressions.ofText t.source.toList) n).cancelled = false := by
    rw [inspect, cancelled_visit] at h
    exact fun n hn => by simpa using List.any_eq_false.1 h n hn
  rw [inspect, offenses?_visit hquiet, SyntaxTree.preorder, Node.descendants_eq_subtree,
    Config.plainLoop, List.map_flatMap]
  simp only [offenses_reportOn, forget_contributed]

/-! ## rules that are left out -/

/-- asking fewer rules, a runner is not abandoned where it was not before -/
theorem not_cancelled_of_subset {rules' : List Rule} {c' : Config}
    (hcontext : c'.context = c.context) (hsub : c'.activate rules' ⊆ c.activate rules)
    (h : ((ofRules rules c fingerprint).inspect t false).cancelled = false) :
    ((ofRules rules' c' fingerprint).inspect t false).cancelled = false := by
  rw [cancelled_inspect_iff] at h ⊢
  intro n hn a ha hkind hconcerns
  rw [hcontext]
  exact h n hn a (hsub ha) hkind hconcerns

theorem activate_eraseIdx_subset (k : Nat) :
    c.activate (rules.eraseIdx k) ⊆ c.activate rules :=
  ((List.eraseIdx_sublist rules k).filterMap c.activate?).subset

theorem severity?_allowing (id rule : String) (otherwise : Severity) :
    (c.allowing id).severity? rule otherwise =
      if rule = id then none else c.severity? rule otherwise := by
  unfold Config.severity? Config.level? Config.allowing
  by_cases h : rule = id
  · simp [h, RuleLevel.severity?]
  · have h' : (id == rule) = false := by simpa using fun heq => h (Eq.symm heq)
    simp [h, h']

theorem activate_allowing_subset (id : String) :
    (c.allowing id).activate rules ⊆ c.activate rules := by
  intro a ha
  obtain ⟨r, hr, hactive⟩ := List.mem_filterMap.1 ha
  refine List.mem_filterMap.2 ⟨r, hr, ?_⟩
  unfold Config.activate? at hactive ⊢
  rw [severity?_allowing] at hactive
  split at hactive
  · next severity hseverity =>
    split at hseverity
    · cases hseverity
    · rw [hseverity]
      exact hactive
  · cases hactive

theorem contribution_allowing (id : String) (r : Rule) (n : Node t) :
    (c.allowing id).contribution s r n = if r.id = id then [] else c.contribution s r n := by
  unfold Config.contribution
  rw [severity?_allowing]
  by_cases h : r.id = id
  · simp only [if_pos h]
  · simp only [if_neg h]
    rfl

theorem forget_plainLoop_eraseIdx (k : Nat) :
    (c.plainLoop (rules.eraseIdx k) t).map Attributed.offense =
      ((c.plainLoop rules t).filter fun a => a.place != k).map Attributed.offense := by
  simp only [Config.plainLoop, List.map_flatMap, List.filter_flatMap]
  congr 1
  funext n
  have hplace := forget_filter_place
    (fun r => c.contribution (Suppressions.ofText t.source.toList) r n) rules k 0
  rw [Nat.zero_add] at hplace
  rw [forget_contributed, hplace]

theorem forget_plainLoop_allowing (id : String) :
    ((c.allowing id).plainLoop rules t).map Attributed.offense =
      ((c.plainLoop rules t).filter fun a => a.id != id).map Attributed.offense := by
  simp only [Config.plainLoop, List.map_flatMap, List.filter_flatMap]
  congr 1
  funext n
  rw [forget_contributed, forget_filter_id]
  simp only [contribution_allowing]

end

/-- **An inspection that no rule abandons reports what the two loops give, in their order.  If one
rule is taken out of the list, or the rules of one identifier are allowed away, their offenses are
missing from the report, and nothing else changes.** -/
theorem inspect_eq_plainLoop (rules : List Rule) (c : Config) (fingerprint : String → UInt64)
    (t : SyntaxTree)
    (h : ((ofRules rules c fingerprint).inspect t false).cancelled = false) :
    ((ofRules rules c fingerprint).inspect t false).offenses? =
      some ((c.plainLoop rules t).map Attributed.offense) ∧
    (∀ k, ((ofRules (rules.eraseIdx k) c fingerprint).inspect t false).offenses? =
      some (((c.plainLoop rules t).filter fun a => a.place != k).map Attributed.offense)) ∧
    ∀ id, ((ofRules rules (c.allowing id) fingerprint).inspect t false).offenses? =
      some (((c.plainLoop rules t).filter fun a => a.id != id).map Attributed.offense) := by
  refine ⟨inspect_eq h, fun k => ?_, fun id => ?_⟩
  · rw [← forget_plainLoop_eraseIdx]
    exact inspect_eq (not_cancelled_of_subset rfl (activate_eraseIdx_subset k) h)
  · have hquiet : ((ofRules rules (c.allowing id) fingerprint).inspect t false).cancelled = false :=
      not_cancelled_of_subset (c := c) rfl (activate_allowing_subset id) h
    rw [← forget_plainLoop_allowing]
    exact inspect_eq hquiet

/-- one that fails, one that reports something outside the node, one that names a kind twice -/
def unevenRules : List Rule := [
  Rule.performance "Failing" "fails" [.int] fun _ _ => .error (.failed "no answer"),
  Rule.performance "Beyond" "reports too much" [.int] fun _ n =>
    .ok (some (Finding.plain ⟨n.span.start, n.span.stop + 1⟩ "beyond")),
  Rule.performance "Twice" "is asked twice" [.int, .int] fun _ n =>
    .ok (some (Finding.plain n.span "here"))]

def strict : Config := { Config.standard with rules := [("Performance/Twice", .deny)] }

def oneInteger : SyntaxTree := SyntaxTree.ofNode "1" .int ⟨0, 1⟩ Loc.none []

theorem unevenRules_plainLoop : ∃ o : Offense, o.rule = "Performance/Twice" ∧ o.severity = .error ∧
    (strict.plainLoop unevenRules oneInteger).map Attributed.offense = [o, o] ∧
    ((strict.plainLoop unevenRules oneInteger).filter fun (a : Attributed) => a.place != 2).map
      Attributed.offense = [] := by
  obtain ⟨hall, herased, -⟩ := inspect_eq_plainLoop unevenRules strict Text.fingerprint oneInteger
    (by decide +kernel)
  have htwice : ((ofRules unevenRules strict).inspect oneInteger false).offenses? =
      some [⟨"Performance/Twice", .error, "here", ⟨0, 1⟩, ⟨1, 1⟩, none⟩,
        ⟨"Performance/Twice", .error, "here", ⟨0, 1⟩, ⟨1, 1⟩, none⟩] := by
    decide +kernel
  have hnone : ((ofRules (unevenRules.eraseIdx 2) strict).inspect oneInteger false).offenses? =
      some [] := by
    decide +kernel
  exact ⟨_, rfl, rfl, Option.some.inj (hall.symm.trans htwice),
    Option.some.inj ((herased 2).symm.trans hnone)⟩

end Runner

end RubyLint
