import RubyLint.Proofs.Rule.Accumulating
import RubyLint.Proofs.Rule.Chains
import RubyLint.Proofs.Rule.Conditions
import RubyLint.Proofs.Run.Isolation
import RubyLint.Run.Check

/-!
# The rules of the library are sound

On a well-formed tree no rule of the library fails.  What it answers about a node passes as standing
inside that node, and the edits of a correction can be made together.  So a run with these rules never
fails over an edit, and no correction has to wait for ever:

* `sound_of_mem_standard`   every rule of the library is sound, two of them if they are only asked
                            about the nodes that they are about;
* `canMend_of_offensesOf?`  an offense with a correction brings edits that can be made;
* `exists_apply_ofOffenses` and so can those that are collected from all offenses of a text;
* `standard_sound`          both, for a tree and for a whole run.
-/

namespace RubyLint

namespace Rule

/-- every rule of the library looks for itself whether a node is one for it, except for two -/
theorem sound_of_mem_standard : ∀ r ∈ standard,
    r.Sound ∨ (r.id = count.id ∨ r.id = shortCircuitAnd.id) ∧ r.SoundIfAsked := by
  simp only [standard, List.forall_mem_cons]
  exact ⟨.inl ancestorsIncludeRule_sound, .inl arrayConcatLiteral_sound, .inl arrayInsert_sound,
    .inl arrayPushSingle_sound, .inl bigDecimalWithNumericArgument_sound,
    .inl collectionLiteralInLoop_sound, .inl collectionLiteralInMethod_sound,
    .inl conditionalDefinition_sound, .inr ⟨.inl trivial, count_soundIfAsked⟩, .inl defined_sound,
    .inl deletePrefix_sound, .inl deleteSuffix_sound, .inl (matchRule_sound _ _ _ _),
    .inl intersectionCheckRule_sound, .inl mapCompact_sound, .inl numericPredicate_sound,
    .inl predicateOnSelectResult_sound, .inl redundantSortBlock_sound,
    .inl redundantSplitRegexpArgument_sound, .inl reduceMerge_sound, .inl reverseEach_sound,
    .inr ⟨.inr trivial, shortCircuitAnd_soundIfAsked⟩, .inl size_sound, .inl sortReverse_sound,
    .inl (matchRule_sound _ _ _ _), .inl (matchRule_sound _ _ _ _), .inl unnecessaryStackframe_sound,
    fun _ hr => absurd hr List.not_mem_nil⟩

theorem soundIfAsked_of_mem_standard {r : Rule} (hr : r ∈ standard) : r.SoundIfAsked := by
  rcases sound_of_mem_standard r hr with h | ⟨-, h⟩
  · exact h.ifAsked
  · exact h

end Rule

/-! ## runs -/

namespace Runner

section
variable {parse : Parser} {config : Config} {fingerprint : String → UInt64} {text : String}
  {os : List Offense}

theorem rule_mem_of_active {rules : List Rule} {a : ActiveRule}
    (h : a ∈ (ofRules rules config fingerprint).active) : a.rule ∈ rules := by
  obtain ⟨rule, hrule, ha⟩ := List.mem_filterMap.1 h
  unfold Config.activate? at ha
  split at ha
  · split at ha
    · cases ha
      exact hrule
    · cases ha
  · cases ha

/-- whatever the rules of the library report about a text, its correction comes from a sound
offense -/
theorem exists_soundAt_of_mem
    (hparse : ∀ text tree, parse text = .ok tree → tree.source = text ∧ tree.WellFormed)
    (hos : (ofRules Rule.standard config fingerprint).offensesOf? parse text = some os)
    {o : Offense} (ho : o ∈ os) : ∃ (tree : SyntaxTree) (n : Node tree) (o' : Offense),
      tree.source = text ∧ o'.SoundAt n ∧ o.correction = o'.correction := by
  obtain ⟨tree, htree, hinspect⟩ := inspect_of_offensesOf? _ _ hos
  obtain ⟨n, -, hreport⟩ := exists_report_of_mem hinspect ho
  obtain ⟨a, ha, hkind, hconcerns, answered, hanswered, o', hmem, -, hsame⟩ :=
    exists_asked_of_report hreport
  obtain ⟨hsource, ht⟩ := hparse text tree htree
  obtain ⟨os', hos', hsound⟩ :=
    Rule.soundIfAsked_of_mem_standard (rule_mem_of_active ha) tree ht _ n
  obtain rfl : answered = os' := Except.ok.inj (hanswered.symm.trans hos')
  exact ⟨tree, n, o', hsource, hsound (List.contains_iff_mem.2 hkind) hconcerns o' hmem, hsame⟩

/-- an offense with a correction brings edits that can be made -/
theorem canMend_of_offensesOf?
    (hparse : ∀ text tree, parse text = .ok tree → tree.source = text ∧ tree.WellFormed)
    (hos : (ofRules Rule.standard config fingerprint).offensesOf? parse text = some os)
    {o : Offense} (ho : o ∈ os) (hcorrectable : o.isCorrectable = true) : ¬ o.CannotMend := by
  obtain ⟨tree, n, o', -, hsound, hsame⟩ := exists_soundAt_of_mem hparse hos ho
  obtain ⟨c, hc⟩ := Option.isSome_iff_exists.1 hcorrectable
  rintro (hnone | ⟨c', hc', hedits⟩)
  · rw [hnone] at hc
    cases hc
  · rw [hsame] at hc'
    rcases hedits with hnil | hconflict
    · exact hsound.edits_ne_nil c' hc' hnil
    · exact hconflict (hsound.compatible c' hc')

/-- the edits that are collected from the offenses of a text can be made on it -/
theorem exists_apply_ofOffenses
    (hparse : ∀ text tree, parse text = .ok tree → tree.source = text ∧ tree.WellFormed)
    (hos : (ofRules Rule.standard config fingerprint).offensesOf? parse text = some os) :
    ∃ corrected, (Merge.ofOffenses os).edits.apply text = .ok corrected := by
  have hfits : ∀ e ∈ (Merge.ofOffenses os).edits.edits, e.Fits text.toList := by
    intro e he
    obtain ⟨o, ho, c, hc, hedit⟩ := Merge.exists_offense_of_mem he
    obtain ⟨tree, n, o', rfl, hsound, hsame⟩ := exists_soundAt_of_mem hparse hos ho
    rw [hsame] at hc
    exact hsound.fits c hc e hedit
  have hfault := (Merge.ordered_ofOffenses os).fault?_eq_none_iff.2 hfits
  unfold EditSet.apply
  rw [hfault]
  exact ⟨_, rfl⟩

theorem run_ne_edit
    (hparse : ∀ text tree, parse text = .ok tree → tree.source = text ∧ tree.WellFormed)
    (mode : Mode) (source : String) (c : Bool) (err : EditError) :
    ((ofRules Rule.standard config fingerprint).run parse mode source c).result ≠
      .error (.edit err) := by
  intro h
  cases mode with
  | correct =>
    obtain ⟨text, os, hos, happly⟩ := exists_apply_of_run h
    obtain ⟨corrected, hcorrected⟩ := exists_apply_ofOffenses hparse hos
    rw [hcorrected] at happly
    cases happly
  | inspect =>
    cases htree : parse source with
    | error e =>
      simp only [run, htree] at h
      cases h
    | ok tree =>
      cases hos : ((ofRules Rule.standard config fingerprint).inspect tree c).offenses? with
      | none =>
        simp only [run, htree, hos] at h
        cases h
      | some os =>
        rw [run_inspect_eq htree hos] at h
        cases h

end

end Runner

/-- **On a well-formed tree every rule of the library has an answer about every node.  The offenses
pass as standing inside the node; a correction has edits, they can be made together, and each of them
fits the text.  Of `count` and `shortCircuitAnd` this is said only for the nodes that a run hands to them,
because `count` does not look at the name of the call itself, nor `shortCircuitAnd` at the kind of the node.
In runs over well-formed trees every correction can therefore
be made, as can what is collected from all of them, and no run fails over an edit.** -/
theorem standard_sound :
    (∀ t : SyntaxTree, t.WellFormed → ∀ r ∈ Rule.standard, ∀ (context : RuleContext) (n : Node t),
      ∃ os, (r.evaluate context n).offenses = .ok os ∧
        ((r.id = Rule.count.id ∨ r.id = Rule.shortCircuitAnd.id →
            r.triggers n.kind = true ∧ r.concerns n = true) → ∀ o ∈ os,
          o.isInside n.span = true ∧ ∀ c, o.correction = some c →
            c.edits ≠ [] ∧ Edit.Compatible c.edits ∧ ∀ e ∈ c.edits, e.Fits t.source.toList)) ∧
    ∀ (parse : Parser) (config : Config) (fingerprint : String → UInt64),
      (∀ text tree, parse text = .ok tree → tree.source = text ∧ tree.WellFormed) →
      (∀ text os, (Runner.ofRules Rule.standard config fingerprint).offensesOf? parse text = some os →
        (∀ o ∈ os, o.isCorrectable = true → ¬ o.CannotMend) ∧
        ∃ corrected, (Merge.ofOffenses os).edits.apply text = .ok corrected) ∧
      ∀ mode source cancelled err,
        ((Runner.ofRules Rule.standard config fingerprint).run parse mode source cancelled).result ≠
          .error (.edit err) := by
  refine ⟨fun t ht r hr context n => ?_, fun parse config fingerprint hparse => ⟨?_, ?_⟩⟩
  · have hanswer : ∃ os, (r.evaluate context n).offenses = .ok os ∧
        ((r.id = Rule.count.id ∨ r.id = Rule.shortCircuitAnd.id →
          r.triggers n.kind = true ∧ r.concerns n = true) → ∀ o ∈ os, o.SoundAt n) := by
      rcases Rule.sound_of_mem_standard r hr with hsound | ⟨hid, hsound⟩
      · obtain ⟨os, hos, hall⟩ := hsound t ht context n
        exact ⟨os, hos, fun _ => hall⟩
      · obtain ⟨os, hos, hall⟩ := hsound t ht context n
        exact ⟨os, hos, fun hasked => hall (hasked hid).1 (hasked hid).2⟩
    obtain ⟨os, hos, hall⟩ := hanswer
    refine ⟨os, hos, fun hasked o ho => ?_⟩
    have h := hall hasked o ho
    exact ⟨h.isInside, fun c hc => ⟨h.edits_ne_nil c hc, h.compatible c hc, h.fits c hc⟩⟩
  · intro text os hos
    exact ⟨fun o ho => Runner.canMend_of_offensesOf? hparse hos ho,
      Runner.exists_apply_ofOffenses hparse hos⟩
  · exact fun mode source cancelled err => Runner.run_ne_edit hparse mode source cancelled err

/-! ## a chain that is mended by three edits -/

def mappedThenCompact : SyntaxTree :=
  SyntaxTree.ofNode "x.map(&:y).compact" .send ⟨0, 18⟩ ⟨some ⟨11, 18⟩, some ⟨10, 11⟩, none, none, none⟩
    [.node .send ⟨0, 10⟩ ⟨some ⟨2, 5⟩, some ⟨1, 2⟩, some ⟨5, 6⟩, some ⟨9, 10⟩, none⟩
      [.node .localVar ⟨0, 1⟩ Loc.none [.value (.sym "x")], .value (.sym "map"),
        .node .blockPass ⟨6, 9⟩ Loc.none
          [.node .sym ⟨7, 9⟩ Loc.none [.value (.sym "y")]]],
      .value (.sym "compact")]

def mappedThenCompactParser : Parser := fun text =>
  if text = "x.map(&:y).compact" then .ok mappedThenCompact else Runner.wholeText text

theorem wholeText_wellFormed {text : String} {tree : SyntaxTree}
    (h : Runner.wholeText text = .ok tree) : tree.source = text ∧ tree.WellFormed := by
  cases h
  refine ⟨rfl, SyntaxTree.wellFormed_iff.2 ?_⟩
  -- the only node is the first one
  refine ⟨?_, ?_, ?_, ?_, ?_, ?_, ?_, ?_⟩
  all_goals
    rintro ⟨index, hindex⟩
    obtain rfl : index = 0 := Nat.lt_one_iff.1 hindex
  · rfl
  · exact List.Pairwise.nil
  · exact Span.cuts_text _
  · exact fun s hs => absurd hs List.not_mem_nil
  · exact fun hcall => nomatch hcall
  · exact fun hblock => nomatch hblock
  · exact fun hcall => nomatch hcall
  · exact fun hconjunction => nomatch hconjunction

theorem mappedThenCompactParser_wellFormed (text : String) (tree : SyntaxTree)
    (h : mappedThenCompactParser text = .ok tree) : tree.source = text ∧ tree.WellFormed := by
  unfold mappedThenCompactParser at h
  split at h
  · next htext =>
    cases h
    have hsource : mappedThenCompact.source = "x.map(&:y).compact" := by decide +kernel
    exact ⟨hsource.trans htext.symm, by decide +kernel⟩
  · exact wholeText_wellFormed h

theorem mappedThenCompact_sound :
    (mappedThenCompact.WellFormed ∧ Rule.mapCompact ∈ Rule.standard ∧
      Rule.mapCompact.triggers mappedThenCompact.rootNode.kind = true ∧
      Rule.mapCompact.concerns mappedThenCompact.rootNode = true ∧
      ∃ os o c, (Rule.mapCompact.evaluate Config.standard.context
          mappedThenCompact.rootNode).offenses = .ok os ∧ o ∈ os ∧ o.correction = some c ∧
        c.edits.length = 3 ∧ o.isInside mappedThenCompact.rootNode.span = true ∧
        Edit.Compatible c.edits ∧ ∀ e ∈ c.edits, e.Fits mappedThenCompact.source.toList) ∧
    (∀ text tree, mappedThenCompactParser text = .ok tree →
      tree.source = text ∧ tree.WellFormed) ∧
    (∃ os o, (Runner.ofRules Rule.standard Config.standard).offensesOf? mappedThenCompactParser
        "x.map(&:y).compact" = some os ∧ o ∈ os ∧ o.isCorrectable = true ∧ ¬ o.CannotMend ∧
      ∃ corrected, (Merge.ofOffenses os).edits.apply "x.map(&:y).compact" = .ok corrected) ∧
    ∀ err, ((Runner.ofRules Rule.standard Config.standard).run mappedThenCompactParser .correct
      "x.map(&:y).compact" false).result ≠ .error (.edit err) := by
  have ht : mappedThenCompact.WellFormed := by decide +kernel
  have hrule : Rule.mapCompact ∈ Rule.standard := by simp [Rule.standard]
  have htriggers : Rule.mapCompact.triggers mappedThenCompact.rootNode.kind = true := by
    decide +kernel
  have hconcerns : Rule.mapCompact.concerns mappedThenCompact.rootNode = true := by decide +kernel
  obtain ⟨hrules, hruns⟩ := standard_sound
  refine ⟨⟨ht, hrule, htriggers, hconcerns, ?_⟩, mappedThenCompactParser_wellFormed, ?_, ?_⟩
  · obtain ⟨os, hos, hsound⟩ := hrules _ ht _ hrule Config.standard.context
      mappedThenCompact.rootNode
    have hfound : ((Rule.mapCompact.evaluate Config.standard.context
        mappedThenCompact.rootNode).offenses.toOption.any fun os => os.any fun o =>
          o.correction.any fun c => c.edits.length == 3) = true := by
      decide +kernel
    rw [hos] at hfound
    obtain ⟨o, ho, hfound⟩ := List.any_eq_true.1 hfound
    obtain ⟨c, hc, hlength⟩ := (Option.any_eq_true _ _).1 hfound
    obtain ⟨hinside, hcorrection⟩ := hsound (fun _ => ⟨htriggers, hconcerns⟩) o ho
    obtain ⟨-, hcompatible, hfits⟩ := hcorrection c hc
    exact ⟨os, o, c, hos, ho, hc, beq_iff_eq.1 hlength, hinside, hcompatible, hfits⟩
  · obtain ⟨hoffenses, -⟩ := hruns mappedThenCompactParser Config.standard Text.fingerprint
      mappedThenCompactParser_wellFormed
    have hfound : (((Runner.ofRules Rule.standard Config.standard).offensesOf?
        mappedThenCompactParser "x.map(&:y).compact").any fun os =>
          os.any Offense.isCorrectable) = true := by
      decide +kernel
    obtain ⟨os, hos, hfound⟩ := (Option.any_eq_true _ _).1 hfound
    obtain ⟨o, ho, hcorrectable⟩ := List.any_eq_true.1 hfound
    obtain ⟨hmend, happly⟩ := hoffenses _ os hos
    exact ⟨os, o, hos, ho, hcorrectable, hmend o ho hcorrectable, happly⟩
  · obtain ⟨-, hrun⟩ := hruns mappedThenCompactParser Config.standard Text.fingerprint
      mappedThenCompactParser_wellFormed
    exact hrun _ _ _

end RubyLint
