import RubyLint.Proofs.Run.Correction

/-!
# Going on with an interrupted run

A run that has used up its passes leaves a text that could be corrected further.  Another run on
that text goes on where the first one stopped, although it knows none of the texts before, and its
counts begin anew.

* `Observes`               the pending offenses are those of the current text;
* `exists_interrupted`     where a run stands that has used up its passes, and that a run with more
                           passes comes by there;
* `Follows`                what two runs have in common from there on, pass by pass;
* `Follows.exists_rest`    the second run comes to an outcome with the first one;
* `run_resumed`            the three runs together.
-/

namespace RubyLint.Runner

section
variable (r : Runner)

/-- the same rules with another limit to the number of passes -/
def withLimit (limit : Nat) : Runner :=
  { r with config := { r.config with maxIterations := limit } }

@[simp] theorem withLimit_maxIterations (limit : Nat) :
    (r.withLimit limit).config.maxIterations = limit := rfl

theorem withLimit_visit (limit : Nat) (s : Suppressions) {t : SyntaxTree} (c : Bool)
    (nodes : List (Node t)) : (r.withLimit limit).visit s c nodes = r.visit s c nodes := by
  induction nodes generalizing c with
  | nil => rw [visit, visit]
  | cons n rest ih =>
    cases c with
    | true => rw [visit, visit]
    | false =>
      have hhere : (r.withLimit limit).reportOn s n = r.reportOn s n := rfl
      simp only [visit, hhere, ih]

@[simp] theorem withLimit_inspect (limit : Nat) : (r.withLimit limit).inspect = r.inspect := by
  funext t c
  exact r.withLimit_visit limit _ c _

theorem round_withLimit {parse : Parser} {n k : Nat} {p q : Progress} (hk : p.passes < k)
    (h : (r.withLimit n).round parse p = .goesOn q) :
    (r.withLimit k).round parse p = .goesOn q := by
  obtain ⟨text, tree, pending, hm, -, happly, hparse, hseen, hinspect, rfl⟩ :=
    ((r.withLimit n).turn_of_round parse h).exists_pass
  rw [withLimit_inspect] at hinspect ⊢
  have hround := (r.withLimit k).round_of_pass parse hm hk happly hparse hseen
    (by rwa [withLimit_inspect])
  rwa [withLimit_inspect] at hround

end

/-! ## the current text -/

/-- what is pending, and whether the run is to be abandoned, is what a look at the current text
says -/
def Observes (r : Runner) (parse : Parser) (p : Progress) : Prop :=
  ∃ tree, parse p.current = .ok tree ∧ r.inspect tree false = ⟨some p.pending, p.cancelled⟩

section
variable {r : Runner} {parse : Parser} {p q : Progress}

theorem inspect_eq_of_offenses {tree : SyntaxTree} {c : Bool} {os : List Offense}
    (h : (r.inspect tree c).offenses? = some os) :
    r.inspect tree false = ⟨some os, (r.inspect tree c).cancelled⟩ := by
  obtain rfl := not_cancelled_of_inspect h
  rw [← h]

theorem Observes.start {source : String} {tree : SyntaxTree} {c : Bool} {os : List Offense}
    (hparse : parse source = .ok tree) (h : (r.inspect tree c).offenses? = some os) :
    r.Observes parse (r.start source os (r.inspect tree c).cancelled) :=
  ⟨tree, hparse, inspect_eq_of_offenses h⟩

theorem Observes.pass {limit : Nat} (h : (r.withLimit limit).Turn parse p (.goesOn q)) :
    r.Observes parse q := by
  obtain ⟨text, tree, pending, -, -, -, hparse, -, hinspect, rfl⟩ := h.exists_pass
  rw [withLimit_inspect] at hinspect ⊢
  exact ⟨tree, hparse, inspect_eq_of_offenses hinspect⟩

theorem Observes.unique (hp : r.Observes parse p) (hq : r.Observes parse q)
    (h : q.current = p.current) : q.pending = p.pending ∧ q.cancelled = p.cancelled := by
  obtain ⟨tree, hparse, hinspect⟩ := hp
  obtain ⟨tree', hparse', hinspect'⟩ := hq
  rw [h, hparse, Except.ok.injEq] at hparse'
  subst hparse'
  rw [hinspect, Inspection.mk.injEq, Option.some.injEq] at hinspect'
  exact ⟨hinspect'.1.symm, hinspect'.2.symm⟩

end

/-! ## the run that has used up its passes -/

section
variable {r : Runner} {parse : Parser} {source : String} {earlier : List String} {p q : Progress}
  {n m : Nat}

/-- a run with more passes goes through the same rounds, and on from where they would be used up -/
theorem exists_interrupted {o : Outcome}
    (hp : (r.withLimit (n + m)).Consistent parse source earlier p)
    (hobs : r.Observes parse p) (hle : p.passes ≤ n)
    (ho : ((r.withLimit n).correctFrom parse p).result = .ok o)
    (hw : ∃ max, .passesUsedUp max ∈ o.warnings) :
    ∃ earlier' q, (r.withLimit (n + m)).Consistent parse source earlier' q ∧ r.Observes parse q ∧
      q.passes = n ∧ o = (q.warn (.passesUsedUp n)).outcome ∧
      (r.withLimit (n + m)).correctFrom parse p = (r.withLimit (n + m)).correctFrom parse q := by
  fun_induction (r.withLimit n).correctFrom parse p generalizing earlier with
  | case1 p run hround =>
    obtain ⟨max, hmem⟩ := hw
    cases (r.withLimit n).turn_of_round parse hround with
    | nothingLeft hm =>
      rw [Progress.result_done, Except.ok.injEq] at ho
      subst ho
      have hnone : RunWarning.passesUsedUp max ∈ p.warnings := hmem
      rw [hp.warnings_eq] at hnone
      cases hnone
    | usedUp hm hmax =>
      rw [Progress.result_done, Except.ok.injEq] at ho
      exact ⟨earlier, p, hp, hobs, Nat.le_antisymm hle hmax, ho.symm, rfl⟩
    | failed run e he =>
      rw [he] at ho
      cases ho
    | cycle text tree hm hmax happly hparse hseen =>
      rw [Progress.result_done, Except.ok.injEq] at ho
      subst ho
      have hcycle : RunWarning.passesUsedUp max ∈ p.warnings ++ [.cycle (p.passes + 1)] := hmem
      rw [hp.warnings_eq] at hcycle
      cases List.mem_singleton.1 hcycle
  | case2 p q hround ih =>
    obtain ⟨hlt, hpasses⟩ := passes_of_round hround
    rw [withLimit_maxIterations] at hlt
    have hlong := r.round_withLimit (Nat.lt_add_right m hlt) hround
    have hturn := (r.withLimit (n + m)).turn_of_round parse hlong
    rw [correctFrom_of_goesOn _ parse hlong]
    exact ih (hp.pass hturn) (.pass hturn) (by omega) ho

/-! ## the two runs from there on -/

variable {middle : String} {later : List String} {passes applied : Nat}

structure IsRest (source middle : String) (passes applied : Nat) (whole rest : Outcome) : Prop where
  final_eq : rest.final middle = whole.final source
  passes_eq : whole.passes = passes + rest.passes
  applied_eq : whole.applied = applied + rest.applied
  usedUp_iff : (∃ max, .passesUsedUp max ∈ rest.warnings) ↔
    ∃ max, .passesUsedUp max ∈ whole.warnings

/-- the first run has come to where the second one is, with so many passes and so many corrections
more; of the texts that it has been through, the second run need not know all -/
structure Follows (passes applied : Nat) (p q : Progress) : Prop where
  current_eq : q.current = p.current
  seen_subset : q.seen ⊆ p.seen
  passes_eq : p.passes = passes + q.passes
  applied_eq : p.applied = applied + q.applied

theorem Follows.advance (h : Follows passes applied p q) (text : String) (fingerprint : UInt64)
    (taken : Nat) (pending : List Offense) (cancelled : Bool) :
    Follows passes applied { p.advance text fingerprint taken with pending, cancelled }
      { q.advance text fingerprint taken with pending, cancelled } where
  current_eq := rfl
  seen_subset := List.append_subset.2 ⟨fun x hx => List.mem_append_left _ (h.seen_subset hx),
    List.subset_append_right _ _⟩
  passes_eq := by
    show p.passes + 1 = passes + (q.passes + 1)
    rw [h.passes_eq, Nat.add_assoc]
  applied_eq := by
    show p.applied + taken = applied + (q.applied + taken)
    rw [h.applied_eq, Nat.add_assoc]

theorem Follows.warn (h : Follows passes applied p q) (w w' : RunWarning) :
    Follows passes applied (p.warn w) (q.warn w') where
  current_eq := h.current_eq
  seen_subset := h.seen_subset
  passes_eq := h.passes_eq
  applied_eq := h.applied_eq

/-- the outcomes of two runs that end there, either with their passes used up or with neither's -/
theorem Follows.isRest (h : Follows passes applied p q) (hp : p.passes = 0 → p.current = source)
    (hq : q.passes = 0 → q.current = middle)
    (hw : (∃ max, .passesUsedUp max ∈ q.warnings) ↔ ∃ max, .passesUsedUp max ∈ p.warnings) :
    IsRest source middle passes applied p.outcome q.outcome where
  final_eq := by
    rw [Progress.final_outcome hp, Progress.final_outcome hq, h.current_eq]
  passes_eq := h.passes_eq
  applied_eq := h.applied_eq
  usedUp_iff := hw

/-- **Where the first run comes to an outcome without a cycle, the second one does.**  A text that
is new to the first run is new to the second one, which has been through fewer. -/
theorem Follows.exists_rest {k m : Nat} {o : Outcome} (h : Follows passes applied p q)
    (hk : k = passes + m) (hp : (r.withLimit k).Consistent parse source earlier p)
    (hq : (r.withLimit m).Consistent parse middle later q)
    (hpobs : r.Observes parse p) (hqobs : r.Observes parse q)
    (ho : ((r.withLimit k).correctFrom parse p).result = .ok o)
    (hw : ∀ pass, .cycle pass ∉ o.warnings) :
    ∃ o', ((r.withLimit m).correctFrom parse q).result = .ok o' ∧
      IsRest source middle passes applied o o' := by
  fun_induction (r.withLimit k).correctFrom parse p generalizing earlier q later with
  | case1 p run hround =>
    obtain ⟨hpending, -⟩ := hpobs.unique hqobs h.current_eq
    cases (r.withLimit k).turn_of_round parse hround with
    | nothingLeft hm =>
      rw [Progress.result_done, Except.ok.injEq] at ho
      subst ho
      rw [correctFrom_of_isEmpty (hpending ▸ hm)]
      refine ⟨q.outcome, rfl, h.isRest hp.current_of_no_pass hq.current_of_no_pass ?_⟩
      rw [hp.warnings_eq, hq.warnings_eq]
    | usedUp hm hmax =>
      rw [Progress.result_done, Except.ok.injEq] at ho
      subst ho
      have hused : (r.withLimit m).config.maxIterations ≤ q.passes := by
        have hpasses := h.passes_eq
        rw [withLimit_maxIterations] at hmax ⊢
        omega
      rw [correctFrom_of_ended _ parse (round_of_usedUp _ parse (hpending ▸ hm) hused)]
      refine ⟨(q.warn (.passesUsedUp m)).outcome, rfl, (h.warn _ _).isRest hp.current_of_no_pass
        hq.current_of_no_pass (iff_of_true ⟨m, ?_⟩ ⟨k, ?_⟩)⟩
      · exact List.mem_append_right _ (List.mem_singleton.2 rfl)
      · exact List.mem_append_right _ (List.mem_singleton.2 rfl)
    | failed run e he =>
      rw [he] at ho
      cases ho
    | cycle text tree hm hmax happly hparse hseen =>
      rw [Progress.result_done, Except.ok.injEq] at ho
      subst ho
      exact absurd (List.mem_append_right _ (List.mem_singleton.2 rfl)) (hw (p.passes + 1))
  | case2 p p' hround ih =>
    obtain ⟨hpending, hcancelled⟩ := hpobs.unique hqobs h.current_eq
    have hturn := (r.withLimit k).turn_of_round parse hround
    obtain ⟨text, tree, pending, hm, hmax, happly, hparse, hseen, hinspect, rfl⟩ :=
      hturn.exists_pass
    have hleft : q.passes < (r.withLimit m).config.maxIterations := by
      have hpasses := h.passes_eq
      rw [withLimit_maxIterations] at hmax ⊢
      omega
    have hnew : (r.withLimit m).fingerprint text ∉ q.seen := fun hback =>
      hseen (h.seen_subset hback)
    have hpass : (r.withLimit m).round parse q = _ :=
      round_of_pass (r.withLimit m) parse (hpending ▸ hm) hleft
        (by rw [hpending, h.current_eq]; exact happly) hparse hnew
        (by rw [hcancelled, withLimit_inspect, ← r.withLimit_inspect k]; exact hinspect)
    have hturn' := (r.withLimit m).turn_of_round parse hpass
    rw [correctFrom_of_goesOn _ parse hpass]
    refine ih ?_ (hp.pass hturn) (hq.pass hturn') (.pass hturn) (.pass hturn') ho
    rw [hpending, hcancelled, withLimit_inspect, withLimit_inspect]
    exact h.advance text _ _ pending _

/-! ## whole runs -/

theorem run_withLimit_eq {tree : SyntaxTree} {os : List Offense} {c : Bool} (limit : Nat)
    (hparse : parse source = .ok tree) (hos : (r.inspect tree c).offenses? = some os) :
    (r.withLimit limit).run parse .correct source c =
      (r.withLimit limit).correctFrom parse (r.start source os (r.inspect tree c).cancelled) := by
  rw [run_correct_eq hparse (by rwa [withLimit_inspect]), withLimit_inspect]
  rfl

/-- where a run stands that begins with a text; the limit has no part in it -/
theorem consistent_start {tree : SyntaxTree} {os : List Offense} {c : Bool} (limit : Nat)
    (hparse : parse source = .ok tree) (hos : (r.inspect tree c).offenses? = some os) :
    (r.withLimit limit).Consistent parse source []
      (r.start source os (r.inspect tree c).cancelled) :=
  Consistent.start _ (offensesOf?_of_inspect _ parse hparse (by rwa [withLimit_inspect]))

end

/-- **An interrupted run can be resumed.**  If a run has used up its passes, and with so many passes
more it comes to an outcome without a cycle, then a new run on the text it has left, with those
passes, comes to the same text; the passes and the corrections of the two add up to those of the
one, and the new run has used up its passes exactly if the longer one has. -/
theorem run_resumed (r : Runner) (parse : Parser) (source : String) (c : Bool) (n m : Nat)
    (short long : Outcome)
    (hshort : ((r.withLimit n).run parse .correct source c).result = .ok short)
    (hused : ∃ max, .passesUsedUp max ∈ short.warnings)
    (hlong : ((r.withLimit (n + m)).run parse .correct source c).result = .ok long)
    (hcycle : ∀ pass, .cycle pass ∉ long.warnings) :
    ∃ rest, ((r.withLimit m).run parse .correct (short.final source) false).result = .ok rest ∧
      rest.final (short.final source) = long.final source ∧
      long.passes = short.passes + rest.passes ∧ long.applied = short.applied + rest.applied ∧
      ((∃ max, .passesUsedUp max ∈ rest.warnings) ↔ ∃ max, .passesUsedUp max ∈ long.warnings) := by
  obtain ⟨tree, os, hparse, hos⟩ := exists_offenses_of_run hshort
  rw [withLimit_inspect] at hos
  rw [run_withLimit_eq n hparse hos] at hshort
  rw [run_withLimit_eq (n + m) hparse hos] at hlong
  obtain ⟨earlier, p, hp, hobs, hpasses, rfl, hsame⟩ := exists_interrupted
    (consistent_start (n + m) hparse hos) (.start hparse hos) (Nat.zero_le n) hshort hused
  rw [hsame] at hlong
  have hfinal : (p.warn (.passesUsedUp n)).outcome.final source = p.current :=
    Progress.final_outcome hp.current_of_no_pass
  rw [hfinal]
  -- the new run finds in the text what the first one has found there last
  obtain ⟨last, hlast, hinspect⟩ := hobs
  have hpending : (r.inspect last false).offenses? = some p.pending := by rw [hinspect]
  have hfollows : Follows n p.applied p
      (r.start p.current p.pending (r.inspect last false).cancelled) :=
    ⟨rfl, List.cons_subset.2 ⟨hp.fingerprint_mem, List.nil_subset _⟩, by rw [hpasses]; rfl, rfl⟩
  obtain ⟨rest, hrest, hisRest⟩ := hfollows.exists_rest rfl hp (consistent_start m hlast hpending)
    ⟨last, hlast, hinspect⟩ (.start hlast hpending) hlong hcycle
  refine ⟨rest, ?_, hisRest.final_eq, ?_, hisRest.applied_eq, hisRest.usedUp_iff⟩
  · rw [run_withLimit_eq m hlast hpending]
    exact hrest
  · rw [hisRest.passes_eq, ← hpasses]
    rfl

def stepping : Runner :=
  ofRules [replacing fun text =>
    if text = "a" then some "b" else if text = "b" then some "c" else if text = "c" then some "d"
    else none] Config.standard

/-- after the first of the three passes, the second one alone -/
theorem stepping_resumed : ∃ short long,
    ((stepping.withLimit 1).run oneNode .correct "a" false).result = .ok short ∧
    short.corrected? = some "b" ∧ short.warnings = [.passesUsedUp 1] ∧
    ((stepping.withLimit (1 + 1)).run oneNode .correct "a" false).result = .ok long ∧
    long.corrected? = some "c" ∧ long.warnings = [.passesUsedUp 2] ∧
    ∃ rest, ((stepping.withLimit 1).run oneNode .correct "b" false).result = .ok rest ∧
      rest.final "b" = "c" ∧ long.passes = short.passes + rest.passes ∧
      ∃ max, .passesUsedUp max ∈ rest.warnings := by
  have hrun : (((stepping.withLimit 1).run oneNode .correct "a" false).result.toOption.map fun o =>
      (o.corrected?, o.warnings)) = some (some "b", [.passesUsedUp 1]) := by
    decide +kernel
  have hmore : (((stepping.withLimit (1 + 1)).run oneNode .correct "a" false).result.toOption.map
      fun o => (o.corrected?, o.warnings)) = some (some "c", [.passesUsedUp 2]) := by
    decide +kernel
  obtain ⟨short, hshort, hval⟩ := Option.map_eq_some_iff.1 hrun
  obtain ⟨hmiddle, hused⟩ := Prod.mk.inj hval
  obtain ⟨long, hlong, hval⟩ := Option.map_eq_some_iff.1 hmore
  obtain ⟨hlast, hwarnings⟩ := Prod.mk.inj hval
  have hfinal : short.final "a" = "b" := by
    rw [Outcome.final, hmiddle]
    rfl
  obtain ⟨rest, hrest, hend, hpasses, -, hiff⟩ := run_resumed stepping oneNode "a" false 1 1 short
    long (ok_of_toOption hshort) ⟨1, by simp [hused]⟩ (ok_of_toOption hlong) (by simp [hwarnings])
  rw [hfinal] at hrest hend
  refine ⟨short, long, ok_of_toOption hshort, hmiddle, hused, ok_of_toOption hlong, hlast,
    hwarnings, rest, hrest, ?_, hpasses, hiff.2 ⟨2, by simp [hwarnings]⟩⟩
  rw [hend, Outcome.final, hlast]
  rfl

end RubyLint.Runner
