import RubyLint.Proofs.Rule.Finding
import RubyLint.Proofs.Rule.Matching
import RubyLint.Rule.CallChain

/-!
# The rules about chains of calls

Each of them edits the name of the call before, which ends before the dot of the call that the rule is
asked about, and what stands from that dot on.
-/

namespace RubyLint.Rule

open Pattern (Captures Condition Derivation)

section
variable {t : SyntaxTree} {n m : Node t} {caps : Captures t}

/-! ## ancestors -/

def ancestorsIncludeCompiled : Pattern.Compiled ancestorsInclude := .ofText
  (.exactly (.kind .send) [
    .exactly (.kind .send) [.capture 0 .wildcard, .literal (.sym "ancestors")],
    .literal (.sym "include?"), .capture 1 .wildcard])
  (by decide +kernel)

theorem worksOn_of_ancestorsInclude (hm : ancestorsInclude.match? n = some caps) :
    ∃ r, n.receiver? = some r ∧ n.WorksOn r ["ancestors"] := by
  obtain ⟨d, hd, -⟩ := ancestorsIncludeCompiled.exists_derives hm
  obtain ⟨k, ds, hk, hkind, hds, -⟩ := hd.exactlyKind_inv
  obtain rfl := NodeChild.node.inj hk
  obtain ⟨c, rest, e, es, hchildren, -, hreceiver, -⟩ := hds.cons_inv
  obtain ⟨r, rfl, hsends⟩ : ∃ r, c = .node r ∧ r.Sends ["ancestors"] :=
    Condition.exists_sends_of_holds rfl hreceiver.holds
  have hr := Node.receiver?_of_children hkind hchildren
  exact ⟨r, hr, ⟨r, hr, .self r⟩, hsends⟩

theorem ancestorsVerdict_answers (ht : t.WellFormed) (n : Node t) :
    Verdict.Answers (fun f => f.SoundAt n) (ancestorsVerdict n) := by
  rw [ancestorsVerdict]
  split
  · next captures hm =>
    split
    · next superclass _ =>
      extract_lets answer
      have hanswer : ∀ subclass, Verdict.Answers
          (fun f => f.SoundAt n) (answer subclass) := by
        intro subclass
        unfold answer
        split
        · next ancestors hancestors =>
          split
          · next question hquestion =>
            refine .bind (ht.exists_text superclass) fun text => .found ?_
            obtain ⟨r, hr, hworks⟩ := worksOn_of_ancestorsInclude hm
            rw [hr] at hancestors
            have hreceiver := hworks.sends.encloses_selector ht (by decide) hancestors
            have hinner := hworks.encloses ht hreceiver
            have hn := (ancestorsIncludeCompiled.sends ["include?"] rfl hm).orders ht (by decide)
            have houter := ht.encloses_selector hn hquestion
            exact .replacing (hinner.upTo houter) (ht.encloses_span n) _ _
          · exact .nothing
        · exact .nothing
      split
      · exact .bind (ht.exists_text _) hanswer
      · exact hanswer _
    · exact .nothing
  · exact .nothing

theorem ancestorsIncludeRule_sound : ancestorsIncludeRule.Sound :=
  sound_of_answers (fun _ _ => rfl) fun ht _ n => ancestorsVerdict_answers ht n

/-! ## counting -/

def filterMethods : List String := ["select", "filter", "find_all", "reject"]

theorem worksOn_of_filteringCall? (h : filteringCall? n = some m) : n.WorksOn m filterMethods := by
  unfold filteringCall? at h
  obtain ⟨r, hr, h⟩ := Option.bind_eq_some_iff.1 h
  extract_lets chosen at h
  have hchosen : ∀ {call}, chosen call = some m → call = m ∧ m.Sends filterMethods := by
    intro call hcall
    obtain ⟨method, hmethod, hcall⟩ := Option.bind_eq_some_iff.1 hcall
    split at hcall
    · next hfilter =>
      cases hcall
      exact ⟨rfl, hfilter.1, method, List.contains_iff_mem.1 hfilter.2, hmethod⟩
    · cases hcall
  split at h
  · next hblock =>
    obtain ⟨call, hcall, h⟩ := Option.bind_eq_some_iff.1 h
    obtain ⟨rfl, hsends⟩ := hchosen h
    rw [Node.sendNode?, if_pos hblock] at hcall
    exact ⟨⟨r, hr, .through (Node.mem_childNodes_of_childNode? hcall) (.self _)⟩, hsends⟩
  · split at h
    · split at h
      · obtain ⟨rfl, hsends⟩ := hchosen h
        exact ⟨⟨r, hr, .self r⟩, hsends⟩
      · cases h
    · cases h
  · cases h

/-- The verdict goes by what the call is made on, and so it is sound where the call has its parts in
order. -/
theorem countVerdict_answers (ht : t.WellFormed) (n : Node t) :
    Verdict.Answers (fun f => n.Orders n.callParts → f.SoundAt n) (countVerdict n) := by
  rw [countVerdict]
  split
  · exact .nothing
  · refine .ofOption fun f hf hn => ?_
    obtain ⟨call, hcall, hf⟩ := Option.bind_eq_some_iff.1 hf
    obtain ⟨selector, hselector, hf⟩ := Option.bind_eq_some_iff.1 hf
    obtain ⟨dot, hdot, hf⟩ := Option.bind_eq_some_iff.1 hf
    obtain ⟨filter, -, hf⟩ := Option.bind_eq_some_iff.1 hf
    obtain ⟨counter, -, hf⟩ := Option.bind_eq_some_iff.1 hf
    have hworks := worksOn_of_filteringCall? hcall
    have hinner := hworks.sends.encloses_selector ht (by decide) hselector
    have hselector' := hworks.encloses ht hinner
    have hdot' := ht.encloses_dot hn hdot
    have hend := ht.encloses_span n
    have hspan : n.Encloses ⟨selector.start, n.span.stop⟩ :=
      hselector'.between hend (Nat.le_trans hselector'.le.2.1 hselector'.le.2.2)
    have hremoved : n.Encloses ⟨dot.start, n.span.stop⟩ :=
      hdot'.between hend (Nat.le_trans hdot'.le.2.1 hdot'.le.2.2)
    have hle : selector.stop ≤ dot.start := hworks.le_dot ht hn hinner hdot
    have hbeside : selector.Beside ⟨dot.start, n.span.stop⟩ :=
      ⟨Or.inl hle, Or.inl (ht.selector_pos hselector)⟩
    have hfound := Finding.SoundAt.plain hspan s!"Use `count` instead of `{filter}...{counter}`."
    cases hf
    split
    · exact hfound
    · exact hfound.withCorrection (.two hselector' hremoved hbeside _ _)

theorem orders_of_asked (ht : t.WellFormed) {r : Rule} {methods : List String}
    (hkinds : r.kinds = [.send]) (hmethods : r.methods? = some methods)
    (hordered : ∀ name ∈ methods, Node.isUnorderedName name = false)
    (htriggers : r.triggers n.kind = true) (hconcerns : r.concerns n = true) :
    n.Orders n.callParts := by
  have hmem : n.kind ∈ r.kinds := List.contains_iff_mem.1 htriggers
  rw [hkinds] at hmem
  have hcall := Node.isCall_of_kind (List.mem_singleton.1 hmem)
  obtain ⟨name, hmem, hname⟩ := exists_name_of_concerns hmethods hcall hconcerns
  exact ht.orders_of_methodName? hcall hname (hordered name hmem)

theorem count_soundIfAsked : count.SoundIfAsked := by
  refine soundIfAsked_of_answers (fun _ _ => rfl) fun ht _ n => ?_
  refine (countVerdict_answers ht n).imp fun _ hf htriggers hconcerns => ?_
  exact hf (orders_of_asked ht rfl rfl (by decide) htriggers hconcerns)

/-! ## mapping -/

set_option maxRecDepth 4000 in
def mapThenCompactCompiled : Pattern.Compiled mapThenCompact := .ofText
  (.union [
    .exactly (.kind .send) [
      .capture 0 (.exactly (.kind .send) [.wildcard,
        .union [.literal (.sym "map"), .literal (.sym "collect")],
        .exactly (.kind .blockPass) [.exactly (.kind .sym) [.wildcard]]]),
      .literal (.sym "compact")],
    .exactly (.kind .send) [
      .exactly (.kind .block) [
        .capture 0 (.exactly (.kind .send) [.wildcard,
          .union [.literal (.sym "map"), .literal (.sym "collect")]]),
        .around (.kind .args) [] .wildcard .anyNumber none [], .wildcard],
      .literal (.sym "compact")]])
  (by decide +kernel)

theorem worksOn_of_mapThenCompact (hm : mapThenCompact.match? n = some caps)
    (hmap : caps.node? 0 = some m) : n.WorksOn m ["map", "collect"] := by
  obtain ⟨d, hd, hcaps⟩ := mapThenCompactCompiled.exists_derives hm
  have hchain : ∃ k, n.WorksOn k ["map", "collect"] ∧
      Captures.lastOf d.bindings 0 = some (.single (.node k)) := by
    obtain ⟨branch, hbranch, htaken⟩ := hd.union_inv
    rcases List.mem_cons.1 hbranch.mem with rfl | hbranch
    · exact (capturesCall_capture _ rfl rfl).worksOn htaken (by decide)
    · obtain rfl := List.mem_singleton.1 hbranch
      exact ((capturesCall_capture _ rfl rfl).exactly rfl).worksOn htaken (by decide)
  obtain ⟨k, hworks, hlast⟩ := hchain
  obtain rfl := eq_of_node? hcaps hlast hmap
  exact hworks

theorem compactVerdict_answers (ht : t.WellFormed) (n : Node t) :
    Verdict.Answers (fun f => f.SoundAt n) (compactVerdict n) := by
  refine .ofOption fun f hf => ?_
  obtain ⟨map, hmap, hf⟩ := Option.bind_eq_some_iff.1 hf
  obtain ⟨caps, hm, hmap⟩ := Option.bind_eq_some_iff.1 hmap
  obtain ⟨mapSelector, hmapSelector, hf⟩ := Option.bind_eq_some_iff.1 hf
  obtain ⟨dot, hdot, hf⟩ := Option.bind_eq_some_iff.1 hf
  obtain ⟨selector, hselector, hf⟩ := Option.bind_eq_some_iff.1 hf
  cases hf
  have hn := (mapThenCompactCompiled.sends ["compact"] rfl hm).orders ht (by decide)
  have hworks := worksOn_of_mapThenCompact hm hmap
  have hinner := hworks.sends.encloses_selector ht (by decide) hmapSelector
  have hmapSelector' := hworks.encloses ht hinner
  have hselector' := ht.encloses_selector hn hselector
  have hpos := ht.selector_pos hmapSelector
  refine (Finding.SoundAt.plain (hmapSelector'.upTo hselector') _).withCorrection
    (.three hmapSelector' (ht.encloses_dot hn hdot) hselector' ?_ ?_ ?_ _ _ _)
  · exact ⟨Or.inl (hworks.le_dot ht hn hinner hdot), Or.inl hpos⟩
  · exact ⟨Or.inl (hworks.le_selector ht hn hinner hselector), Or.inl hpos⟩
  · exact ⟨Or.inl (hn.dot_le_selector hdot hselector), Or.inl (ht.dot_pos hdot)⟩

theorem mapCompact_sound : mapCompact.Sound :=
  sound_of_answers (fun _ _ => rfl) fun ht _ n => compactVerdict_answers ht n

/-! ## questions about what is selected -/

set_option maxRecDepth 4000 in
def questionOnSelectionCompiled : Pattern.Compiled questionOnSelection := .ofText
  (.exactly (.kind .send) [
    .union [
      .around (.kind .block) [.capture 0 (.exactly (.kind .send) [.wildcard,
        .union [.literal (.sym "select"), .literal (.sym "filter")]])] .wildcard .anyNumber none [],
      .capture 0 (.exactly (.kind .send) [.wildcard,
        .union [.literal (.sym "select"), .literal (.sym "filter")],
        .builtin (.ofKind .blockPass)])],
    .union [.literal (.sym "any?"), .literal (.sym "empty?"), .literal (.sym "none?")]])
  (by decide +kernel)

theorem worksOn_of_questionOnSelection (hm : questionOnSelection.match? n = some caps)
    (hselect : caps.node? 0 = some m) : n.WorksOn m ["select", "filter"] := by
  obtain ⟨d, hd, hcaps⟩ := questionOnSelectionCompiled.exists_derives hm
  -- the call of a block, or one that passes a block on
  obtain ⟨k, hworks, hlast⟩ := CapturesCall.worksOn
    ((capturesCall_capture ["select", "filter"] rfl rfl).around.either
      (capturesCall_capture ["select", "filter"] rfl rfl)) hd (by decide)
  obtain rfl := eq_of_node? hcaps hlast hselect
  exact hworks

theorem selectionVerdict_answers (ht : t.WellFormed) (n : Node t) :
    Verdict.Answers (fun f => f.SoundAt n) (selectionVerdict n) := by
  rw [selectionVerdict]
  split
  · exact .nothing
  · refine .ofOption fun f hf => ?_
    obtain ⟨select, hselect, hf⟩ := Option.bind_eq_some_iff.1 hf
    obtain ⟨caps, hm, hselect⟩ := Option.bind_eq_some_iff.1 hselect
    obtain ⟨selectSelector, hselectSelector, hf⟩ := Option.bind_eq_some_iff.1 hf
    obtain ⟨selector, hselector, hf⟩ := Option.bind_eq_some_iff.1 hf
    obtain ⟨receiver, hreceiver, hf⟩ := Option.bind_eq_some_iff.1 hf
    obtain ⟨filter, -, hf⟩ := Option.bind_eq_some_iff.1 hf
    obtain ⟨question, -, hf⟩ := Option.bind_eq_some_iff.1 hf
    cases hf
    have hn :=
      (questionOnSelectionCompiled.sends ["any?", "empty?", "none?"] rfl hm).orders ht (by decide)
    have hworks := worksOn_of_questionOnSelection hm hselect
    have hinner := hworks.sends.encloses_selector ht (by decide) hselectSelector
    have hselectSelector' := hworks.encloses ht hinner
    have hselector' := ht.encloses_selector hn hselector
    have hreceiver' := ht.encloses_child (Node.mem_childNodes_of_receiver? hreceiver)
    have hle := hn.receiver_le_selector hreceiver hselector
    have hremoved : n.Encloses ⟨receiver.span.stop, selector.stop⟩ :=
      hreceiver'.behind hselector' (Nat.le_trans hle hselector'.le.2.1)
    -- the name of the filtering call stands in the receiver, and so in front of what is removed
    obtain ⟨r, hr, hfront⟩ := hworks.le_receiver ht hinner
    obtain rfl : receiver = r := Option.some.inj (hreceiver.symm.trans hr)
    exact (Finding.SoundAt.plain (hselectSelector'.join hselector') _).withCorrection
      (.two hremoved hselectSelector' ⟨Or.inr hfront, Or.inr (ht.selector_pos hselectSelector)⟩ _ _)

theorem predicateOnSelectResult_sound : predicateOnSelectResult.Sound :=
  sound_of_answers (fun _ _ => rfl) fun ht _ n => selectionVerdict_answers ht n

/-! ## going backwards -/

def reverseThenEachCompiled : Pattern.Compiled reverseThenEach := .ofText
  (.exactly (.kind .send) [
    .capture 0 (.exactly (.kind .send) [.wildcard, .literal (.sym "reverse")]),
    .capture 1 (.union [.literal (.sym "each"), .literal (.sym "each_with_index")])])
  (by decide +kernel)

theorem worksOn_of_reverseThenEach (hm : reverseThenEach.match? n = some caps)
    (hreverse : caps.node? 0 = some m) : n.WorksOn m ["reverse"] := by
  obtain ⟨d, hd, hcaps⟩ := reverseThenEachCompiled.exists_derives hm
  obtain ⟨k, hworks, hlast⟩ := (capturesCall_capture ["reverse"] rfl rfl).worksOn hd (by decide)
  obtain rfl := eq_of_node? hcaps hlast hreverse
  exact hworks

theorem reverseVerdict_answers (ht : t.WellFormed) (n : Node t) :
    Verdict.Answers (fun f => f.SoundAt n) (reverseVerdict n) := by
  refine .ofOption fun f hf => ?_
  obtain ⟨caps, hm, hf⟩ := Option.bind_eq_some_iff.1 hf
  obtain ⟨reverse, hreverse, hf⟩ := Option.bind_eq_some_iff.1 hf
  obtain ⟨current, -, hf⟩ := Option.bind_eq_some_iff.1 hf
  obtain ⟨reverseSelector, hreverseSelector, hf⟩ := Option.bind_eq_some_iff.1 hf
  obtain ⟨dot, hdot, hf⟩ := Option.bind_eq_some_iff.1 hf
  obtain ⟨selector, hselector, hf⟩ := Option.bind_eq_some_iff.1 hf
  cases hf
  have hn :=
    (reverseThenEachCompiled.sends ["each", "each_with_index"] rfl hm).orders ht (by decide)
  have hworks := worksOn_of_reverseThenEach hm hreverse
  have hinner := hworks.sends.encloses_selector ht (by decide) hreverseSelector
  have hselector' := ht.encloses_selector hn hselector
  exact .replacing ((hworks.encloses ht hinner).upTo hselector')
    ((ht.encloses_dot hn hdot).upTo hselector') _ _

theorem reverseEach_sound : reverseEach.Sound :=
  sound_of_answers (fun _ _ => rfl) fun ht _ n => reverseVerdict_answers ht n

end

end RubyLint.Rule
