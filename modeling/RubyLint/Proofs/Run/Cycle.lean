import RubyLint.Proofs.Run.Correction

/-!
# Texts that come back

A run knows a text again by its fingerprint, and it keeps the fingerprints of all texts so far, so
that it ends with the first one that has been there before.

* `Consistent.nodup_texts`   between two rounds, no text has been there twice;
* `run_cycle_iff`            a run says that a text has come back exactly if its last one has.
-/

namespace RubyLint.Runner

variable {r : Runner} {parse : Parser} {source : String} {earlier : List String} {p : Progress}

/-- the fingerprints are kept apart, so the texts are -/
theorem Consistent.nodup_texts (h : r.Consistent parse source earlier p) :
    (earlier ++ [p.current]).Nodup := by
  have hnodup := h.nodup_seen
  rw [h.seen_eq, h.texts_eq] at hnodup
  refine List.Pairwise.of_map r.fingerprint (fun a b hne heq => ?_) hnodup
  exact hne (congrArg r.fingerprint heq)

/-- what holds of the texts of a run that has come to an outcome, apart from its last one, and what
the run says of that -/
structure Returns (r : Runner) (source : String) (earlier : List String) (o : Outcome) : Prop where
  nodup : earlier.Nodup
  cycle_iff : ∀ pass, .cycle pass ∈ o.warnings ↔
    pass = earlier.length ∧ r.fingerprint (o.final source) ∈ earlier.map r.fingerprint
  corrected_eq : ∀ pass, .cycle pass ∈ o.warnings → o.corrected? = some (o.final source)

theorem Consistent.returns_of_new (h : r.Consistent parse source earlier p) {o : Outcome}
    (hfinal : o.final source = p.current) (hw : ∀ pass, .cycle pass ∉ o.warnings) :
    r.Returns source earlier o where
  nodup := (List.nodup_append.1 h.nodup_texts).1
  cycle_iff pass := by
    rw [hfinal]
    exact iff_of_false (hw pass) fun hback => h.fingerprint_notMem hback.2
  corrected_eq pass hmem := absurd hmem (hw pass)

theorem Exit.returns {run : Run} {o : Outcome} (h : r.Exit parse source earlier run o) :
    r.Returns source earlier o := by
  cases h with
  | nothingLeft h hm =>
    refine h.returns_of_new (Progress.final_outcome h.current_of_no_pass) fun pass hmem => ?_
    rw [Progress.outcome, h.warnings_eq] at hmem
    cases hmem
  | usedUp h hm hmax =>
    refine h.returns_of_new (Progress.final_outcome h.current_of_no_pass) fun pass hmem => ?_
    have hw : RunWarning.cycle pass ∈ [RunWarning.passesUsedUp r.config.maxIterations] := by
      have hall : RunWarning.cycle pass ∈ _ ++ _ := hmem
      rw [h.warnings_eq] at hall
      exact hall
    cases List.mem_singleton.1 hw
  | @cycle earlier p text tree h hm hmax happly hparse hseen =>
    have hwarnings : p.warnings ++ [RunWarning.cycle (p.passes + 1)] =
        [RunWarning.cycle (p.passes + 1)] := by
      rw [h.warnings_eq, List.nil_append]
    have hback : r.fingerprint text ∈ (earlier ++ [p.current]).map r.fingerprint := by
      rw [← h.texts_eq, ← h.seen_eq]
      exact hseen
    have hlength : (earlier ++ [p.current]).length = p.passes + 1 := by
      rw [List.length_append, List.length_singleton, h.passes_eq]
    refine ⟨h.nodup_texts, fun pass => ?_, fun _ _ => rfl⟩
    show RunWarning.cycle pass ∈ p.warnings ++ [RunWarning.cycle (p.passes + 1)] ↔
      pass = (earlier ++ [p.current]).length ∧
        r.fingerprint text ∈ (earlier ++ [p.current]).map r.fingerprint
    rw [hwarnings, List.mem_singleton, RunWarning.cycle.injEq, hlength]
    exact ⟨fun hpass => ⟨hpass, hback⟩, fun hpass => hpass.1⟩

/-- **When a run speaks of a cycle.**  The texts of a run before its last one are all different, and
if fingerprints tell its texts apart, the run speaks of a cycle exactly if the last text is one of
the others; it names the number of the passes then, and answers with that text. -/
theorem run_cycle_iff (r : Runner) (parse : Parser) (source : String) (c : Bool) (o : Outcome)
    (h : (r.run parse .correct source c).result = .ok o) :
    ∃ earlier, r.Trail parse source earlier (o.final source) ∧
      (r.run parse .correct source c).texts = earlier ++ [o.final source] ∧
      o.passes = earlier.length ∧ earlier.Nodup ∧
      (r.Distinguishes (earlier ++ [o.final source]) →
        ((∃ pass, .cycle pass ∈ o.warnings) ↔ o.final source ∈ earlier)) ∧
      ∀ pass, .cycle pass ∈ o.warnings →
        pass = o.passes ∧ o.corrected? = some (o.final source) := by
  obtain ⟨earlier, hexit⟩ := exists_exit_of_run h
  have hreport := hexit.report
  have hreturns := hexit.returns
  refine ⟨earlier, hreport.trail, hreport.texts_eq, hreport.passes_eq, hreturns.nodup, fun hd => ?_,
    fun pass hpass => ⟨?_, hreturns.corrected_eq pass hpass⟩⟩
  · rw [← mem_map_fingerprint_iff hd]
    constructor
    · rintro ⟨pass, hpass⟩
      exact ((hreturns.cycle_iff pass).1 hpass).2
    · exact fun hback => ⟨_, (hreturns.cycle_iff _).2 ⟨rfl, hback⟩⟩
  · rw [((hreturns.cycle_iff pass).1 hpass).1, hreport.passes_eq]

def swinging : Runner :=
  ofRules [replacing fun text => if text = "a" then some "b" else some "a"]
    { Config.standard with maxIterations := 2 }

/-- the cycle closes with the last pass -/
theorem swinging_cycle : ∃ o, (swinging.run oneNode .correct "a" false).result = .ok o ∧
    o.warnings = [.cycle 2] ∧ o.passes = 2 ∧ o.corrected? = some "a" ∧
    ∃ earlier, (swinging.run oneNode .correct "a" false).texts = earlier ++ ["a"] ∧
      swinging.Distinguishes (earlier ++ ["a"]) ∧ earlier.Nodup ∧ "a" ∈ earlier := by
  have hrun : ((swinging.run oneNode .correct "a" false).result.toOption.map fun o =>
      (o.corrected?, o.warnings)) = some (some "a", [.cycle 2]) := by
    decide +kernel
  have htexts : (swinging.run oneNode .correct "a" false).texts = ["a", "b"] ++ ["a"] := by
    decide +kernel
  have hdistinct : ∀ x ∈ ["a", "b", "a"], ∀ y ∈ ["a", "b", "a"],
      swinging.fingerprint x = swinging.fingerprint y → x = y := by
    decide +kernel
  obtain ⟨o, ho, hval⟩ := Option.map_eq_some_iff.1 hrun
  obtain ⟨hcorrected, hwarnings⟩ := Prod.mk.inj hval
  have hok := ok_of_toOption ho
  have hfinal : o.final "a" = "a" := by
    rw [Outcome.final, hcorrected]
    rfl
  have hcycle : .cycle 2 ∈ o.warnings := by simp [hwarnings]
  obtain ⟨earlier, -, heq, -, hnodup, hiff, hpass⟩ :=
    run_cycle_iff swinging oneNode "a" false o hok
  rw [hfinal] at heq hiff
  obtain rfl : earlier = ["a", "b"] := by
    rw [htexts] at heq
    exact (List.append_cancel_right heq).symm
  obtain ⟨hpasses, hlast⟩ := hpass 2 hcycle
  exact ⟨o, hok, hwarnings, hpasses.symm, hfinal ▸ hlast, _, heq, hdistinct, hnodup,
    (hiff hdistinct).1 ⟨2, hcycle⟩⟩

end RubyLint.Runner
