import RubyLint.Proofs.Run.Correction
import RubyLint.Proofs.Run.Inspection

/-!
# Runs that are to be abandoned

A rule can ask that the run be abandoned.  An inspection looks whether that is so before each node, and
nothing else does, so that a run whose inspections have all come to their ends has an outcome even then.

* `Abandons`, `IsSetBy`      the rules ask for it at a node; they have done so in some texts;
* `visit_abandoned_iff`, `cancelled_visit_iff`   an inspection ends before a node if it was asked for;
* `KeepsOn`                  what holds between two rounds: nothing was asked for before the current text;
* `run_abandoned`            of a run with an outcome, only a pass that makes a cycle comes too late;
* `quitting_abandoned`       a run that asks for it behind its last pass, and has an outcome;
* `stopping_abandoned`       a run with a pass that comes too late.
-/

namespace RubyLint.Runner

/-! ## inspections -/

section
variable {t : SyntaxTree} {s : Suppressions}

/-- a rule that is asked about the node asks that the run be abandoned -/
def Abandons (r : Runner) (n : Node t) : Prop :=
  ∃ a ∈ r.active, n.kind ∈ a.rule.kinds ∧ a.rule.concerns n = true ∧
    (a.rule.evaluate r.config.context n).cancels = true

variable {r : Runner} {c : Bool}

theorem cancelled_reportOn_iff {n : Node t} : (r.reportOn s n).cancelled = true ↔ r.Abandons n := by
  rw [cancelled_reportOn]
  simp only [Abandons, List.any_eq_true, Bool.and_eq_true, beq_iff_eq, exists_eq_right]

theorem cancelled_visit_iff {ns : List (Node t)} :
    (r.visit s c ns).cancelled = true ↔ c = true ∨ ∃ n ∈ ns, r.Abandons n := by
  cases c with
  | true =>
    refine iff_of_true ?_ (.inl rfl)
    cases ns <;> rfl
  | false =>
    rw [cancelled_visit, List.any_eq_true]
    simp only [cancelled_reportOn_iff, Bool.false_eq_true, false_or]

/-- The nodes are not all visited exactly if the run is to be abandoned when it is the turn of one. -/
theorem visit_abandoned_iff {ns : List (Node t)} : (r.visit s c ns).offenses? = none ↔
    ∃ front n back, ns = front ++ n :: back ∧ (c = true ∨ ∃ m ∈ front, r.Abandons m) := by
  induction ns generalizing c with
  | nil =>
    refine iff_of_false ?_ ?_
    · cases c <;> exact fun h => nomatch h
    · rintro ⟨front, n, back, h, -⟩
      cases front <;> cases h
  | cons n ns ih =>
    cases c with
    | true => exact iff_of_true rfl ⟨[], n, ns, rfl, .inl rfl⟩
    | false =>
      rw [visit]
      dsimp only
      rw [Option.map_eq_none_iff, ih]
      constructor
      · rintro ⟨front, m, back, rfl, hset⟩
        refine ⟨n :: front, m, back, rfl, .inr ?_⟩
        rcases hset with hset | ⟨k, hk, hset⟩
        · exact ⟨n, List.mem_cons_self, cancelled_reportOn_iff.1 hset⟩
        · exact ⟨k, List.mem_cons_of_mem _ hk, hset⟩
      · rintro ⟨front, m, back, hsplit, hset⟩
        obtain ⟨k, hk, habandons⟩ := hset.resolve_left Bool.false_ne_true
        cases front with
        | nil => exact absurd hk List.not_mem_nil
        | cons _ front =>
          cases hsplit
          refine ⟨front, m, back, rfl, ?_⟩
          rcases List.mem_cons.1 hk with rfl | hk
          · exact .inl (cancelled_reportOn_iff.2 habandons)
          · exact .inr ⟨k, hk, habandons⟩

end

/-! ## runs -/

section
variable (r : Runner) (parse : Parser)

/-- a rule has asked, while one of the texts was inspected, that the run be abandoned -/
def IsSetBy (texts : List String) : Prop :=
  ∃ text ∈ texts, ∃ tree, parse text = .ok tree ∧ ∃ n ∈ tree.preorder, r.Abandons n

theorem isSetBy_append {texts more : List String} :
    r.IsSetBy parse (texts ++ more) ↔ r.IsSetBy parse texts ∨ r.IsSetBy parse more := by
  simp only [IsSetBy, List.mem_append, or_and_right, exists_or]

theorem isSetBy_singleton {text : String} {tree : SyntaxTree} (h : parse text = .ok tree) :
    r.IsSetBy parse [text] ↔ (r.inspect tree false).cancelled = true := by
  rw [inspect, cancelled_visit_iff]
  simp only [IsSetBy, List.mem_singleton, exists_eq_left, h, Except.ok.injEq, Bool.false_eq_true,
    false_or, exists_eq_left']

/-- what holds between two rounds of a run that was not abandoned before -/
structure KeepsOn (earlier : List String) (p : Progress) : Prop where
  not_isSetBy : ¬ r.IsSetBy parse earlier
  cancelled_iff : p.cancelled = true ↔ r.IsSetBy parse [p.current]

variable {r parse} {source : String} {earlier : List String} {p q : Progress} {c : Bool}

theorem KeepsOn.start {tree : SyntaxTree} {os : List Offense} (hparse : parse source = .ok tree)
    (hos : (r.inspect tree c).offenses? = some os) :
    r.KeepsOn parse [] (r.start source os (r.inspect tree c).cancelled) where
  not_isSetBy := by
    rintro ⟨text, htext, -⟩
    exact absurd htext List.not_mem_nil
  cancelled_iff := by
    obtain rfl := not_cancelled_of_inspect hos
    exact (r.isSetBy_singleton parse hparse).symm

/-- a pass that is inspected to the end has been made before anything was asked for -/
theorem KeepsOn.pass (h : r.KeepsOn parse earlier p) (hq : r.Turn parse p (.goesOn q)) :
    r.KeepsOn parse (earlier ++ [p.current]) q := by
  obtain ⟨text, tree, pending, -, -, -, hparse, -, hinspect, rfl⟩ := hq.exists_pass r parse
  have hquiet := not_cancelled_of_inspect hinspect
  refine ⟨?_, ?_⟩
  · rw [isSetBy_append, ← h.cancelled_iff, hquiet]
    exact not_or.2 ⟨h.not_isSetBy, Bool.false_ne_true⟩
  · rw [hquiet]
    exact (r.isSetBy_singleton parse hparse).symm

/-- none of the passes that have been made of the earlier texts comes too late -/
theorem KeepsOn.not_isSetBy_take (h : r.KeepsOn parse earlier p) (rest : List String) {i : Nat}
    (hi : i < earlier.length) : ¬ r.IsSetBy parse ((earlier ++ rest).take (i + 1)) := by
  rintro ⟨text, htext, hset⟩
  rw [List.take_append_of_le_length hi] at htext
  exact h.not_isSetBy ⟨text, List.mem_of_mem_take htext, hset⟩

/-- a pass comes too late only if it is the last one and makes a cycle; the texts are those before and
after the passes -/
structure LateOnly (r : Runner) (parse : Parser) (texts : List String) (o : Outcome) : Prop where
  length_texts : texts.length = o.passes + 1
  late : ∀ i < o.passes, r.IsSetBy parse (texts.take (i + 1)) →
    i + 1 = o.passes ∧ .cycle o.passes ∈ o.warnings

theorem KeepsOn.lateOnly (h : r.KeepsOn parse earlier p) {o : Outcome}
    (hpasses : o.passes = earlier.length) : r.LateOnly parse (earlier ++ [p.current]) o where
  length_texts := by rw [List.length_append, List.length_singleton, hpasses]
  late i hi hset := absurd hset (h.not_isSetBy_take _ (hpasses ▸ hi))

theorem KeepsOn.lateOnly_cycle (h : r.KeepsOn parse earlier p) (text : String) {o : Outcome}
    (hpasses : o.passes = earlier.length + 1) (hcycle : .cycle o.passes ∈ o.warnings) :
    r.LateOnly parse (earlier ++ [p.current] ++ [text]) o where
  length_texts := by rw [List.length_append, List.length_append, hpasses]; rfl
  late i hi hset := by
    refine ⟨?_, hcycle⟩
    by_contra hne
    rw [List.append_assoc] at hset
    exact h.not_isSetBy_take _ (by omega) hset

/-- wherever a run stands between two rounds, only a pass that makes a cycle comes too late -/
theorem KeepsOn.lateOnly_correctFrom {o : Outcome} (h : r.KeepsOn parse earlier p)
    (hp : r.Consistent parse source earlier p) (ho : (r.correctFrom parse p).result = .ok o) :
    r.LateOnly parse (r.correctFrom parse p).texts o := by
  fun_induction r.correctFrom parse p generalizing earlier with
  | case1 p run hround =>
    cases r.turn_of_round parse hround with
    | nothingLeft =>
      rw [Progress.result_done, Except.ok.injEq] at ho
      subst ho
      show r.LateOnly parse p.texts _
      rw [hp.texts_eq]
      exact h.lateOnly hp.passes_eq
    | usedUp =>
      rw [Progress.result_done, Except.ok.injEq] at ho
      subst ho
      show r.LateOnly parse p.texts _
      rw [hp.texts_eq]
      exact h.lateOnly hp.passes_eq
    | failed run e he =>
      rw [he] at ho
      cases ho
    | cycle text =>
      rw [Progress.result_done, Except.ok.injEq] at ho
      subst ho
      show r.LateOnly parse (p.texts ++ [text]) _
      rw [hp.texts_eq]
      exact h.lateOnly_cycle text (congrArg (· + 1) hp.passes_eq)
        (List.mem_append_right _ List.mem_cons_self)
  | case2 p q hround ih =>
    have hturn := r.turn_of_round parse hround
    exact ih (h.pass hturn) (hp.pass hturn) ho

/-- **When a run is abandoned.**  An inspection is abandoned exactly if, when it is the turn of some node of
the pre-order, the run was to be abandoned before, or a rule that was asked about an earlier node has asked
for it.  Of a correcting run with an outcome, every pass has been made before that, but for the last one of
a run that ends with a cycle: then no node is visited any more. -/
theorem run_abandoned (r : Runner) (parse : Parser) (c : Bool) :
    (∀ t : SyntaxTree, (r.inspect t c).offenses? = none ↔
      ∃ (front : List (Node t)) (n : Node t) (back : List (Node t)),
        t.preorder = front ++ n :: back ∧ (c = true ∨ ∃ m ∈ front, r.Abandons m)) ∧
    ∀ source o, (r.run parse .correct source c).result = .ok o →
      c = false ∧ (r.run parse .correct source c).texts.length = o.passes + 1 ∧
      ∀ i < o.passes, r.IsSetBy parse ((r.run parse .correct source c).texts.take (i + 1)) →
        i + 1 = o.passes ∧ .cycle o.passes ∈ o.warnings := by
  refine ⟨fun t => visit_abandoned_iff, fun source o ho => ?_⟩
  obtain ⟨tree, os, hparse, hos⟩ := exists_offenses_of_run ho
  have hstart := Consistent.start (r.inspect tree c).cancelled
    (r.offensesOf?_of_inspect parse hparse hos)
  rw [run_correct_eq hparse hos] at ho ⊢
  have hlate := (KeepsOn.start hparse hos).lateOnly_correctFrom hstart ho
  exact ⟨not_cancelled_of_inspect hos, hlate.length_texts, hlate.late⟩

/-- replaces a text by another one, and asks when it sees that one that the run be abandoned -/
def quitting : Runner :=
  ofRules [{ replacing (fun text => if text = "a" then some "b" else none) with
    evaluate := fun context n =>
      { (replacing fun text => if text = "a" then some "b" else none).evaluate context n with
        cancels := n.source? == some "b" } }]
    Config.standard

/-- the one pass is made before the rule asks, and the run comes to its end -/
theorem quitting_abandoned : ∃ o, (quitting.run oneNode .correct "a" false).result = .ok o ∧
    o.passes = 1 ∧ o.corrected? = some "b" ∧ o.warnings = [] ∧
    quitting.IsSetBy oneNode (quitting.run oneNode .correct "a" false).texts ∧
    ¬ quitting.IsSetBy oneNode ((quitting.run oneNode .correct "a" false).texts.take o.passes) := by
  have hrun : ((quitting.run oneNode .correct "a" false).result.toOption.map fun o =>
      (o.passes, o.corrected?, o.warnings)) = some (1, some "b", []) := by
    decide +kernel
  have htexts : (quitting.run oneNode .correct "a" false).texts = ["a"] ++ ["b"] := by
    decide +kernel
  obtain ⟨o, ho, hval⟩ := Option.map_eq_some_iff.1 hrun
  obtain ⟨hpasses, hval⟩ := Prod.mk.inj hval
  obtain ⟨hcorrected, hwarnings⟩ := Prod.mk.inj hval
  refine ⟨o, ok_of_toOption ho, hpasses, hcorrected, hwarnings, ?_, fun hset => ?_⟩
  · have hset : quitting.IsSetBy oneNode ["b"] := by
      rw [quitting.isSetBy_singleton oneNode rfl]
      decide +kernel
    rw [htexts, isSetBy_append]
    exact .inr hset
  · obtain ⟨-, -, hlate⟩ := (run_abandoned quitting oneNode false).2 "a" o (ok_of_toOption ho)
    rw [hpasses] at hset
    obtain ⟨-, hcycle⟩ := hlate 0 (hpasses ▸ Nat.one_pos) hset
    rw [hwarnings] at hcycle
    exact absurd hcycle List.not_mem_nil

/-- replaces the text of a node by itself, and asks that the run be abandoned -/
def stopping : Runner :=
  ofRules [{ replacing some with
    evaluate := fun context n => { (replacing some).evaluate context n with cancels := true } }]
    Config.standard

/-- the pass is made after the rule has asked that the run be abandoned, and makes a cycle -/
theorem stopping_abandoned : ∃ o, (stopping.run oneNode .correct "1" false).result = .ok o ∧
    o.passes = 1 ∧ o.corrected? = some "1" ∧ o.warnings = [.cycle 1] ∧
    stopping.IsSetBy oneNode ((stopping.run oneNode .correct "1" false).texts.take 1) := by
  have hrun : ((stopping.run oneNode .correct "1" false).result.toOption.map fun o =>
      (o.passes, o.corrected?, o.warnings)) = some (1, some "1", [.cycle 1]) := by
    decide +kernel
  have htexts : (stopping.run oneNode .correct "1" false).texts.take 1 = ["1"] := by
    decide +kernel
  obtain ⟨o, ho, hval⟩ := Option.map_eq_some_iff.1 hrun
  obtain ⟨hpasses, hval⟩ := Prod.mk.inj hval
  obtain ⟨hcorrected, hwarnings⟩ := Prod.mk.inj hval
  refine ⟨o, ok_of_toOption ho, hpasses, hcorrected, hwarnings, ?_⟩
  rw [htexts, stopping.isSetBy_singleton oneNode rfl]
  decide +kernel

end

end RubyLint.Runner
