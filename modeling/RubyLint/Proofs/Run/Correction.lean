import RubyLint.Proofs.Run.Round

/-!
# What a correcting run says about its last text

`Runner.Report` collects what holds of every outcome of a correcting run: how often it corrected,
which texts it went through, what its warnings mean.

* `Consistent.exists_exit`  the ways in which a run comes to an outcome;
* `report_of_correctFrom`   the report, from any point between two rounds;
* `run_correct_report`      the report of a whole run, and the number of its rounds;
* `run_final_settled`       a run without warnings leaves nothing to a second one.
-/

namespace RubyLint

/-- the corrected text, or the given one if nothing was corrected -/
def Outcome.final (o : Outcome) (source : String) : String := o.corrected?.getD source

namespace Progress

def outcome (p : Progress) : Outcome where
  offenses := p.offenses
  corrected? := if p.passes = 0 then none else some p.current
  passes := p.passes
  applied := p.applied
  warnings := p.warnings

theorem result_done (p : Progress) : p.done.result = .ok p.outcome := rfl

theorem isSome_corrected (p : Progress) : p.outcome.corrected?.isSome = true ↔ 0 < p.passes := by
  unfold outcome
  by_cases h : p.passes = 0
  · simp [h]
  · simp [h, Nat.pos_of_ne_zero h]

theorem corrected_eq {p : Progress} {text : String} (h : p.outcome.corrected? = some text) :
    text = p.current := by
  unfold outcome at h
  by_cases h0 : p.passes = 0
  · simp [h0] at h
  · simpa [h0] using h.symm

theorem final_outcome {p : Progress} {source : String} (h : p.passes = 0 → p.current = source) :
    p.outcome.final source = p.current := by
  unfold Outcome.final outcome
  by_cases h0 : p.passes = 0
  · simp [h0, h h0]
  · simp [h0]

end Progress

namespace Runner

section
variable (r : Runner) (parse : Parser)

/-- the text's offenses bring edits that a pass would make -/
def LeavesEdits (text : String) : Prop :=
  ∃ os, r.offensesOf? parse text = some os ∧ (Merge.ofOffenses os).edits.isEmpty = false

def IsSettled (text : String) : Prop :=
  ∃ os, r.offensesOf? parse text = some os ∧ (Merge.ofOffenses os).edits.isEmpty = true

theorem IsSettled.not_leavesEdits {text : String} (h : r.IsSettled parse text) :
    ¬ r.LeavesEdits parse text := by
  rintro ⟨os, hos, hedits⟩
  obtain ⟨os', hos', hempty⟩ := h
  rw [hos, Option.some.injEq] at hos'
  rw [hos', hempty] at hedits
  cases hedits

/-- what holds of an outcome of a correcting run; `earlier` are the texts before the last -/
structure Report (source : String) (earlier : List String) (run : Run) (o : Outcome) : Prop where
  /-- the run went from the source through `earlier` to its last text -/
  trail : r.Trail parse source earlier (o.final source)
  texts_eq : run.texts = earlier ++ [o.final source]
  passes_eq : o.passes = earlier.length
  offenses_eq : r.offensesOf? parse source = some o.offenses
  passes_le : o.passes ≤ r.config.maxIterations
  corrected_iff : o.corrected?.isSome = true ↔ 0 < o.passes
  corrected_parses : ∀ text, o.corrected? = some text → ∃ tree, parse text = .ok tree
  passes_le_applied : o.passes ≤ o.applied
  warnings_le : o.warnings.length ≤ 1
  usedUp_iff : ∀ max, .passesUsedUp max ∈ o.warnings ↔
    max = r.config.maxIterations ∧ o.passes = r.config.maxIterations ∧
      r.fingerprint (o.final source) ∉ earlier.map r.fingerprint ∧
      r.LeavesEdits parse (o.final source)
  settled : o.warnings = [] → r.IsSettled parse (o.final source)

variable {r parse} {source : String} {earlier : List String} {p : Progress}

theorem Traced.warn (h : r.Traced parse source earlier p) (w : RunWarning) :
    r.Traced parse source earlier (p.warn w) where
  offenses_eq := h.offenses_eq
  trail := h.trail
  texts_eq := h.texts_eq
  passes_eq := h.passes_eq
  passes_le := h.passes_le
  passes_le_applied := h.passes_le_applied

theorem Traced.report (h : r.Traced parse source earlier p) (hle : p.warnings.length ≤ 1)
    (husedUp : ∀ max, .passesUsedUp max ∈ p.warnings ↔
      max = r.config.maxIterations ∧ p.passes = r.config.maxIterations ∧
        r.fingerprint p.current ∉ earlier.map r.fingerprint ∧ r.LeavesEdits parse p.current)
    (hsettled : p.warnings = [] → r.IsSettled parse p.current) :
    r.Report parse source earlier p.done p.outcome := by
  have hfinal : p.outcome.final source = p.current :=
    Progress.final_outcome h.current_of_no_pass
  exact {
    trail := hfinal ▸ h.trail
    texts_eq := hfinal ▸ h.texts_eq
    passes_eq := h.passes_eq
    offenses_eq := h.offenses_eq
    passes_le := h.passes_le
    corrected_iff := p.isSome_corrected
    corrected_parses := fun text ht => by
      obtain rfl := Progress.corrected_eq ht
      exact h.parses
    passes_le_applied := h.passes_le_applied
    warnings_le := hle
    usedUp_iff := hfinal ▸ husedUp
    settled := hfinal ▸ hsettled }

theorem Consistent.report_nothingLeft (h : r.Consistent parse source earlier p)
    (hm : (Merge.ofOffenses p.pending).edits.isEmpty = true) :
    r.Report parse source earlier p.done p.outcome := by
  have hsettled : r.IsSettled parse p.current := ⟨p.pending, h.pending_eq, hm⟩
  apply h.toTraced.report
  · rw [h.warnings_eq]
    exact Nat.zero_le _
  · intro max
    rw [h.warnings_eq]
    constructor
    · intro hmem
      cases hmem
    · rintro ⟨-, -, -, hleaves⟩
      exact absurd hleaves (hsettled.not_leavesEdits r parse)
  · exact fun _ => hsettled

theorem Consistent.report_usedUp (h : r.Consistent parse source earlier p)
    (hm : (Merge.ofOffenses p.pending).edits.isEmpty = false)
    (hmax : r.config.maxIterations ≤ p.passes) :
    r.Report parse source earlier (p.warn (.passesUsedUp r.config.maxIterations)).done
      (p.warn (.passesUsedUp r.config.maxIterations)).outcome := by
  have hpasses : p.passes = r.config.maxIterations := Nat.le_antisymm h.passes_le hmax
  have hw : (p.warn (.passesUsedUp r.config.maxIterations)).warnings =
      [.passesUsedUp r.config.maxIterations] := by
    show p.warnings ++ _ = _
    rw [h.warnings_eq, List.nil_append]
  apply (h.toTraced.warn _).report
  · rw [hw]
    exact Nat.le_refl _
  · intro max
    rw [hw]
    constructor
    · intro hmem
      obtain rfl : max = r.config.maxIterations := by simpa using hmem
      exact ⟨rfl, hpasses, h.fingerprint_notMem, p.pending, h.pending_eq, hm⟩
    · rintro ⟨rfl, -⟩
      exact List.mem_singleton.2 rfl
  · intro hnil
    rw [hw] at hnil
    cases hnil

/-- a text has come back: the only warning says so, and names the last pass -/
theorem Consistent.report_cycle (h : r.Consistent parse source earlier p) {text : String}
    {tree : SyntaxTree} (hm : (Merge.ofOffenses p.pending).edits.isEmpty = false)
    (hmax : p.passes < r.config.maxIterations)
    (happly : (Merge.ofOffenses p.pending).edits.apply p.current = .ok text)
    (hparse : parse text = .ok tree) (hseen : r.fingerprint text ∈ p.seen) :
    r.Report parse source (earlier ++ [p.current])
      ((p.advance text (r.fingerprint text) (Merge.ofOffenses p.pending).taken).warn
        (.cycle (p.passes + 1))).done
      ((p.advance text (r.fingerprint text) (Merge.ofOffenses p.pending).taken).warn
        (.cycle (p.passes + 1))).outcome := by
  have hw : ((p.advance text (r.fingerprint text) (Merge.ofOffenses p.pending).taken).warn
      (.cycle (p.passes + 1))).warnings = [.cycle (p.passes + 1)] := by
    show p.warnings ++ _ = _
    rw [h.warnings_eq, List.nil_append]
  have hrepeat : r.fingerprint text ∈ (earlier ++ [p.current]).map r.fingerprint := by
    rw [← h.texts_eq, ← h.seen_eq]
    exact hseen
  apply ((h.advance hm hmax happly hparse).warn _).report
  · rw [hw]
    exact Nat.le_refl _
  · intro max
    rw [hw]
    constructor
    · intro hmem
      simp at hmem
    · rintro ⟨-, -, hnew, -⟩
      exact absurd hrepeat hnew
  · intro hnil
    rw [hw] at hnil
    cases hnil

/-! ### the three ways out -/

section
variable (r parse)

/-- how a correcting run comes to an outcome; `earlier` are the texts before the last -/
inductive Exit (source : String) : List String → Run → Outcome → Prop
  | nothingLeft {earlier : List String} {p : Progress} (h : r.Consistent parse source earlier p)
      (hm : (Merge.ofOffenses p.pending).edits.isEmpty = true) :
      Exit source earlier p.done p.outcome
  | usedUp {earlier : List String} {p : Progress} (h : r.Consistent parse source earlier p)
      (hm : (Merge.ofOffenses p.pending).edits.isEmpty = false)
      (hmax : r.config.maxIterations ≤ p.passes) :
      Exit source earlier (p.warn (.passesUsedUp r.config.maxIterations)).done
        (p.warn (.passesUsedUp r.config.maxIterations)).outcome
  | cycle {earlier : List String} {p : Progress} {text : String} {tree : SyntaxTree}
      (h : r.Consistent parse source earlier p)
      (hm : (Merge.ofOffenses p.pending).edits.isEmpty = false)
      (hmax : p.passes < r.config.maxIterations)
      (happly : (Merge.ofOffenses p.pending).edits.apply p.current = .ok text)
      (hparse : parse text = .ok tree) (hseen : r.fingerprint text ∈ p.seen) :
      Exit source (earlier ++ [p.current])
        ((p.advance text (r.fingerprint text) (Merge.ofOffenses p.pending).taken).warn
          (.cycle (p.passes + 1))).done
        ((p.advance text (r.fingerprint text) (Merge.ofOffenses p.pending).taken).warn
          (.cycle (p.passes + 1))).outcome

end

/-- wherever a run stands between two rounds, it comes to its outcome in one of these ways -/
theorem Consistent.exists_exit {o : Outcome} (h : r.Consistent parse source earlier p)
    (ho : (r.correctFrom parse p).result = .ok o) :
    ∃ earlier', r.Exit parse source earlier' (r.correctFrom parse p) o := by
  fun_induction r.correctFrom parse p generalizing earlier with
  | case1 p run hround =>
    cases r.turn_of_round parse hround with
    | nothingLeft hm =>
      rw [Progress.result_done, Except.ok.injEq] at ho
      subst ho
      exact ⟨earlier, .nothingLeft h hm⟩
    | usedUp hm hmax =>
      rw [Progress.result_done, Except.ok.injEq] at ho
      subst ho
      exact ⟨earlier, .usedUp h hm hmax⟩
    | failed run e he =>
      rw [he] at ho
      cases ho
    | cycle text tree hm hmax happly hparse hseen =>
      rw [Progress.result_done, Except.ok.injEq] at ho
      subst ho
      exact ⟨_, .cycle h hm hmax happly hparse hseen⟩
  | case2 p q hround ih =>
    exact ih (h.pass (r.turn_of_round parse hround)) ho

theorem Exit.report {run : Run} {o : Outcome} (h : r.Exit parse source earlier run o) :
    r.Report parse source earlier run o := by
  cases h with
  | nothingLeft h hm => exact h.report_nothingLeft hm
  | usedUp h hm hmax => exact h.report_usedUp hm hmax
  | cycle h hm hmax happly hparse hseen => exact h.report_cycle hm hmax happly hparse hseen

/-- wherever a run stands between two rounds, its outcome has a report -/
theorem report_of_correctFrom {o : Outcome} (h : r.Consistent parse source earlier p)
    (ho : (r.correctFrom parse p).result = .ok o) :
    ∃ earlier', r.Report parse source earlier' (r.correctFrom parse p) o := by
  obtain ⟨earlier', hexit⟩ := h.exists_exit ho
  exact ⟨earlier', hexit.report⟩

/-! ## whole runs -/

theorem exists_offenses_of_run {mode : Mode} {c : Bool} {o : Outcome}
    (h : (r.run parse mode source c).result = .ok o) :
    ∃ tree os, parse source = .ok tree ∧ (r.inspect tree c).offenses? = some os := by
  unfold run at h
  split at h
  · cases h
  next tree hparse =>
  cases hos : (r.inspect tree c).offenses? with
  | none =>
    simp only [hos] at h
    cases h
  | some os => exact ⟨tree, os, hparse, hos⟩

theorem run_correct_eq {tree : SyntaxTree} {os : List Offense} {c : Bool}
    (hparse : parse source = .ok tree) (hos : (r.inspect tree c).offenses? = some os) :
    r.run parse .correct source c =
      r.correctFrom parse (r.start source os (r.inspect tree c).cancelled) := by
  simp only [run, hparse, hos]

theorem exists_exit_of_run {c : Bool} {o : Outcome}
    (h : (r.run parse .correct source c).result = .ok o) :
    ∃ earlier, r.Exit parse source earlier (r.run parse .correct source c) o := by
  obtain ⟨tree, os, hparse, hos⟩ := exists_offenses_of_run h
  have hstart := Consistent.start (r.inspect tree c).cancelled
    (r.offensesOf?_of_inspect parse hparse hos)
  rw [run_correct_eq hparse hos] at h ⊢
  exact hstart.exists_exit h

theorem run_inspect_eq {tree : SyntaxTree} {os : List Offense} {c : Bool}
    (hparse : parse source = .ok tree) (hos : (r.inspect tree c).offenses? = some os) :
    r.run parse .inspect source c = (r.start source os (r.inspect tree c).cancelled).done := by
  simp only [run, hparse, hos]

theorem correctFrom_of_isEmpty (hm : (Merge.ofOffenses p.pending).edits.isEmpty = true) :
    r.correctFrom parse p = p.done :=
  r.correctFrom_of_ended parse (r.round_of_isEmpty parse hm)

/-- no two of the texts have the same fingerprint -/
def Distinguishes (r : Runner) (texts : List String) : Prop :=
  ∀ a ∈ texts, ∀ b ∈ texts, r.fingerprint a = r.fingerprint b → a = b

/-- where fingerprints tell the texts apart, a text has come back if its fingerprint has -/
theorem mem_map_fingerprint_iff {texts : List String} {text : String}
    (hd : r.Distinguishes (texts ++ [text])) :
    r.fingerprint text ∈ texts.map r.fingerprint ↔ text ∈ texts := by
  constructor
  · intro hf
    obtain ⟨other, hother, heq⟩ := List.mem_map.1 hf
    have hsame := hd other (List.mem_append_left _ hother) text (by simp) heq
    exact hsame ▸ hother
  · exact fun hf => List.mem_map_of_mem hf

/-- where fingerprints tell the texts apart, the passes are used up on a text that is new -/
theorem Report.usedUp_iff_of_distinguishes {run : Run} {o : Outcome}
    (h : r.Report parse source earlier run o)
    (hd : r.Distinguishes (earlier ++ [o.final source])) (max : Nat) :
    .passesUsedUp max ∈ o.warnings ↔
      max = r.config.maxIterations ∧ o.passes = r.config.maxIterations ∧
        o.final source ∉ earlier ∧ r.LeavesEdits parse (o.final source) := by
  rw [h.usedUp_iff, mem_map_fingerprint_iff hd]

end

/-- **A correcting run ends after at most one round more than it has passes.  If it has an outcome,
this has the offenses of the inspecting run, and a report.** -/
theorem run_correct_report (r : Runner) (parse : Parser) (source : String) (c : Bool) :
    (∀ tree os, parse source = .ok tree → (r.inspect tree c).offenses? = some os →
      ∃ n, n ≤ r.config.maxIterations + 1 ∧
        r.EndsAfter parse n (r.start source os (r.inspect tree c).cancelled)
          (r.run parse .correct source c)) ∧
    ∀ o, (r.run parse .correct source c).result = .ok o →
      (∃ i, (r.run parse .inspect source c).result = .ok i ∧ i.offenses = o.offenses) ∧
      ∃ earlier, r.Report parse source earlier (r.run parse .correct source c) o ∧
        (r.Distinguishes (earlier ++ [o.final source]) →
          ∀ max, .passesUsedUp max ∈ o.warnings ↔
            max = r.config.maxIterations ∧ o.passes = r.config.maxIterations ∧
              o.final source ∉ earlier ∧ r.LeavesEdits parse (o.final source)) := by
  constructor
  · intro tree os hparse hos
    rw [run_correct_eq hparse hos]
    exact r.exists_endsAfter parse (r.start source os (r.inspect tree c).cancelled)
  · intro o ho
    obtain ⟨tree, os, hparse, hos⟩ := exists_offenses_of_run ho
    have hstart := Consistent.start (r.inspect tree c).cancelled
      (r.offensesOf?_of_inspect parse hparse hos)
    have hreport : ∃ earlier, r.Report parse source earlier (r.run parse .correct source c) o := by
      rw [run_correct_eq hparse hos] at ho ⊢
      exact report_of_correctFrom hstart ho
    obtain ⟨earlier, hearlier⟩ := hreport
    refine ⟨⟨_, by rw [run_inspect_eq hparse hos, Progress.result_done], ?_⟩, earlier, hearlier,
      fun hd => hearlier.usedUp_iff_of_distinguishes hd⟩
    have hfirst := hstart.offenses_eq
    rw [hearlier.offenses_eq, Option.some.injEq] at hfirst
    exact hfirst.symm

/-- a text as a tree of one node, which covers its first byte -/
def oneNode : Parser := fun text => .ok (SyntaxTree.ofNode text .int ⟨0, 1⟩ Loc.none [])

def replacing (next : String → Option String) : Rule :=
  Rule.performance "Replacing" "replaces a text" [.int] fun _ n => .ok (do
    let text ← n.source?
    let other ← next text
    return Finding.replacing n.span "replace" n.span other)

def restless : Runner :=
  ofRules [replacing fun text => if text = "a" then some "b" else some "a"]
    { Config.standard with maxIterations := 1 }

theorem ok_of_toOption {x : Except RunError Outcome} {o : Outcome} (h : x.toOption = some o) :
    x = .ok o := by
  cases x with
  | error e => cases h
  | ok o' =>
    cases h
    rfl

theorem restless_report : ∃ o, (restless.run oneNode .correct "a" false).result = .ok o ∧
    o.corrected? = some "b" ∧ o.warnings = [.passesUsedUp 1] ∧
    (∃ earlier, restless.Report oneNode "a" earlier
      (restless.run oneNode .correct "a" false) o ∧ "b" ∉ earlier) ∧
    ∃ n p, n ≤ 2 ∧ restless.EndsAfter oneNode n p (restless.run oneNode .correct "a" false) := by
  have hrun : ((restless.run oneNode .correct "a" false).result.toOption.map fun o =>
      (o.corrected?, o.warnings)) = some (some "b", [.passesUsedUp 1]) := by
    decide +kernel
  have htexts : (restless.run oneNode .correct "a" false).texts = ["a"] ++ ["b"] := by
    decide +kernel
  have hdistinct : ∀ x ∈ ["a", "b"], ∀ y ∈ ["a", "b"],
      restless.fingerprint x = restless.fingerprint y → x = y := by
    decide +kernel
  obtain ⟨o, ho, hval⟩ := Option.map_eq_some_iff.1 hrun
  obtain ⟨hcorrected, hwarnings⟩ := Prod.mk.inj hval
  have hok := ok_of_toOption ho
  have hfinal : o.final "a" = "b" := by
    rw [Outcome.final, hcorrected]
    rfl
  obtain ⟨hrounds, houtcome⟩ := run_correct_report restless oneNode "a" false
  obtain ⟨-, earlier, hreport, hnew⟩ := houtcome o hok
  have hearlier : earlier = ["a"] := by
    have heq := hreport.texts_eq
    rw [htexts, hfinal] at heq
    exact (List.append_cancel_right heq).symm
  have hwarned : .passesUsedUp 1 ∈ o.warnings := by simp [hwarnings]
  obtain ⟨-, -, hnotMem, -⟩ := (hnew (by rw [hearlier, hfinal]; exact hdistinct) 1).1 hwarned
  obtain ⟨tree, os, hparse, hos⟩ := exists_offenses_of_run hok
  obtain ⟨n, hn, hends⟩ := hrounds tree os hparse hos
  exact ⟨o, hok, hcorrected, hwarnings, ⟨earlier, hreport, hfinal ▸ hnotMem⟩, n, _, hn, hends⟩

/-- **A run without warnings leaves nothing to correct: run again on its last text, the runner makes
no pass, and no offense it finds there can be mended.** -/
theorem run_final_settled (r : Runner) (parse : Parser) (source : String) (c : Bool) (o : Outcome)
    (h : (r.run parse .correct source c).result = .ok o) (hw : o.warnings = []) :
    ∃ o', (r.run parse .correct (o.final source) false).result = .ok o' ∧ o'.passes = 0 ∧
      o'.corrected? = none ∧ o'.applied = 0 ∧ o'.warnings = [] ∧
      ∀ f ∈ o'.offenses, f.CannotMend := by
  obtain ⟨tree, os, hparse, hos⟩ := exists_offenses_of_run h
  have hstart := Consistent.start (r.inspect tree c).cancelled
    (r.offensesOf?_of_inspect parse hparse hos)
  rw [run_correct_eq hparse hos] at h
  obtain ⟨earlier, hreport⟩ := report_of_correctFrom hstart h
  obtain ⟨pending, hpending, hempty⟩ := hreport.settled hw
  obtain ⟨last, hlast, hinspect⟩ := r.inspect_of_offensesOf? parse hpending
  refine ⟨(r.start (o.final source) pending (r.inspect last false).cancelled).outcome,
    ?_, rfl, rfl, rfl, rfl, (Merge.isEmpty_ofOffenses_iff pending).1 hempty⟩
  rw [run_correct_eq hlast hinspect, correctFrom_of_isEmpty hempty, Progress.result_done]

def content : Runner :=
  ofRules [replacing fun text => if text = "a" then some "b" else none] Config.standard

theorem content_settled : ∃ o, (content.run oneNode .correct "a" false).result = .ok o ∧
    o.corrected? = some "b" ∧ o.warnings = [] ∧
    ∃ o', (content.run oneNode .correct "b" false).result = .ok o' ∧ o'.passes = 0 := by
  have hrun : ((content.run oneNode .correct "a" false).result.toOption.map fun o =>
      (o.corrected?, o.warnings)) = some (some "b", []) := by
    decide +kernel
  obtain ⟨o, ho, hval⟩ := Option.map_eq_some_iff.1 hrun
  obtain ⟨hcorrected, hwarnings⟩ := Prod.mk.inj hval
  have hok := ok_of_toOption ho
  have hfinal : o.final "a" = "b" := by
    rw [Outcome.final, hcorrected]
    rfl
  obtain ⟨o', hok', hpasses, -⟩ := run_final_settled content oneNode "a" false o hok hwarnings
  exact ⟨o, hok, hcorrected, hwarnings, o', hfinal ▸ hok', hpasses⟩

end Runner

end RubyLint
