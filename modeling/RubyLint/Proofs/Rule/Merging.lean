import RubyLint.Proofs.Edit.Result
import RubyLint.Proofs.Rule.Chains

/-!
# What is left of a call that is merged into the one before

A count of what is selected, `compact` after `map`, and a question about what is selected, give their
work to the call before, which gets a new name.  What the edits do not delete of the later call stays
behind the receiver.

* `SyntaxTree.textAt`, `Correction.Makes`   the characters at a span, and what comes of a correction;
* `Drops`, `Span.gaps`  which parts of the later call each rule deletes, and what is left of it;
* `Merges`, `Joins`     what a correction makes of the text, from its start to its end;
* `merged_leavesGaps`   the dot and the name are in no gap; the parentheses of the call are in one,
                        unless the call counts: then there is only what stands in front of the dot;
                        and a name that is joined to `reverse` stands directly behind it only if the
                        dot did.
-/

namespace RubyLint

/-! ## spans between two offsets -/

namespace Span

def StandBetween : Nat → List Span → Nat → Prop
  | start, [], stop => start ≤ stop
  | start, s :: ss, stop => start ≤ s.start ∧ s.start ≤ s.stop ∧ StandBetween s.stop ss stop

/-- what is left between two offsets when some spans are taken away -/
def gaps : Nat → List Span → Nat → List Span
  | start, [], stop => [⟨start, stop⟩]
  | start, s :: ss, stop => ⟨start, s.start⟩ :: gaps s.stop ss stop

namespace StandBetween

variable {start stop : Nat} {ss : List Span} {s : Span}

theorem start_le (h : StandBetween start ss stop) : ∀ s ∈ ss, start ≤ s.start := by
  induction ss generalizing start with
  | nil => exact fun s hs => absurd hs List.not_mem_nil
  | cons s ss ih =>
    refine List.forall_mem_cons.2 ⟨h.1, fun s' hs' => ?_⟩
    exact Nat.le_trans h.1 (Nat.le_trans h.2.1 (ih h.2.2 s' hs'))

theorem inOrder (h : StandBetween start ss stop) : InOrder ss := by
  induction ss generalizing start with
  | nil => exact List.Pairwise.nil
  | cons s ss ih => exact List.pairwise_cons.2 ⟨h.2.2.start_le, ih h.2.2⟩

theorem start_le_of_mem_gaps (h : StandBetween start ss stop) :
    ∀ g ∈ gaps start ss stop, start ≤ g.start := by
  induction ss generalizing start with
  | nil => exact List.forall_mem_singleton.2 (Nat.le_refl _)
  | cons s ss ih =>
    refine List.forall_mem_cons.2 ⟨Nat.le_refl _, fun g hg => ?_⟩
    exact Nat.le_trans h.1 (Nat.le_trans h.2.1 (ih h.2.2 g hg))

theorem apart (h : StandBetween start ss stop) :
    ∀ g ∈ gaps start ss stop, ∀ s ∈ ss, g.Apart s := by
  induction ss generalizing start with
  | nil => exact fun _ _ s hs => absurd hs List.not_mem_nil
  | cons s ss ih =>
    refine List.forall_mem_cons.2 ⟨?_, fun g hg => List.forall_mem_cons.2 ⟨?_, ih h.2.2 g hg⟩⟩
    · exact List.forall_mem_cons.2 ⟨.inl (Nat.le_refl _), fun s' hs' =>
        .inl (Nat.le_trans h.2.1 (h.2.2.start_le s' hs'))⟩
    · exact .inr (h.2.2.start_le_of_mem_gaps g hg)

theorem exists_gap (hbehind : ∀ s' ∈ ss, s'.stop ≤ s.start) (hstart : start ≤ s.start)
    (hstop : s.stop ≤ stop) : ∃ g ∈ gaps start ss stop, g.contains s = true := by
  induction ss generalizing start with
  | nil => exact ⟨⟨start, stop⟩, List.mem_singleton_self _, Span.contains_iff.2 ⟨hstart, hstop⟩⟩
  | cons s' ss ih =>
    obtain ⟨hs', hss⟩ := List.forall_mem_cons.1 hbehind
    obtain ⟨g, hg, hcontains⟩ := ih hss hs'
    exact ⟨g, List.mem_cons_of_mem _ hg, hcontains⟩

/-- the text behind an offset without the spans is the gaps, and what is behind them -/
theorem spliceFrom_eq {cs : List Char} (h : StandBetween start ss stop)
    (hcuts : ∀ s ∈ ss, s.Cuts cs) (hstart : Text.isBoundary cs start = true)
    (hstop : Text.isBoundary cs stop = true) :
    EditSet.spliceFrom cs start (ss.map Edit.remove) =
      (gaps start ss stop).flatMap (fun g => EditSet.between cs g.start g.stop) ++
        EditSet.between cs stop (Text.byteLength cs) := by
  induction ss generalizing start with
  | nil =>
    rw [gaps, List.flatMap_singleton]
    exact EditSet.between_append h (Text.le_byteLength_of_isBoundary hstop) hstart hstop
      (Text.isBoundary_byteLength cs)
  | cons s ss ih =>
    obtain ⟨hs, hss⟩ := List.forall_mem_cons.1 hcuts
    rw [gaps, List.flatMap_cons, List.append_assoc, ← ih h.2.2 hss hs.stop]
    show EditSet.between cs start s.start ++ "".toList ++ _ = _
    rw [String.toList_empty, List.append_nil]
    rfl

theorem cuts_gaps {cs : List Char} (h : StandBetween start ss stop)
    (hcuts : ∀ s ∈ ss, s.Cuts cs) (hstart : Text.isBoundary cs start = true)
    (hstop : Text.isBoundary cs stop = true) : ∀ g ∈ gaps start ss stop, g.Cuts cs := by
  induction ss generalizing start with
  | nil => exact List.forall_mem_singleton.2 ⟨h, hstart, hstop⟩
  | cons s ss ih =>
    obtain ⟨hs, hss⟩ := List.forall_mem_cons.1 hcuts
    exact List.forall_mem_cons.2 ⟨⟨h.1, hstart, hs.start⟩, ih h.2.2 hss hs.stop⟩

end StandBetween

end Span

/-- the characters at a span -/
def SyntaxTree.textAt (t : SyntaxTree) (s : Span) : List Char :=
  EditSet.between t.source.toList s.start s.stop

/-- The edits of the correction can be made together, and the text comes of them. -/
def Correction.Makes (c : Correction) (source : String) (text : List Char) : Prop :=
  ∃ s, EditSet.empty.addAll c.edits = .ok s ∧ s.apply source = .ok (String.ofList text)

theorem Correction.makes_iff {c : Correction} {source : String} {text : List Char} :
    c.Makes source text ↔ ((EditSet.empty.addAll c.edits).toOption.bind fun s =>
      (s.apply source).toOption) = some (String.ofList text) := by
  unfold Makes
  cases EditSet.empty.addAll c.edits with
  | error err => simp [Except.toOption]
  | ok s => cases h : s.apply source <;> simp [Except.toOption, h]

instance (c : Correction) (source : String) (text : List Char) : Decidable (c.Makes source text) :=
  decidable_of_iff _ Correction.makes_iff.symm

namespace Rule

open Pattern (Captures Condition Derivation)

section
variable {t : SyntaxTree} {n m receiver : Node t}

/-- The rule drops the call and gives the name to the call that it works on; it deletes the spans behind
the receiver. -/
inductive Drops (n receiver m : Node t) : Rule → String → List Span → Prop
  | counting {dot : Span} (hm : m.Sends ["select", "filter", "find_all"])
      (hdot : n.loc.dot = some dot) :
      Drops n receiver m count "count" [⟨dot.start, n.span.stop⟩]
  | mapping {dot selector : Span} (hm : m.Sends ["map", "collect"]) (hdot : n.loc.dot = some dot)
      (hselector : n.loc.selector = some selector) :
      Drops n receiver m mapCompact "filter_map" [dot, selector]
  | asking {question : String} {selector : Span} (hm : m.Sends ["select", "filter"])
      (hquestion : n.methodName? = some question) (hselector : n.loc.selector = some selector) :
      Drops n receiver m predicateOnSelectResult (elementQuestion question)
        [⟨receiver.span.stop, selector.stop⟩]

/-- What the correction makes of the text: nothing changes in front of the call and behind it, in the
receiver only the name of the call that it works on, and behind the receiver only the gaps stay. -/
structure Merges (r : Rule) (n receiver m : Node t) (c : Correction) (gaps : List Span) : Prop where
  isReceiver : n.receiver? = some receiver
  covers : receiver.Covers m
  makes : ∃ name removed word, Drops n receiver m r name removed ∧
    gaps = Span.gaps receiver.span.stop removed n.span.stop ∧ m.loc.selector = some word ∧
    c.Makes t.source (t.textAt ⟨0, word.start⟩ ++ name.toList ++
      t.textAt ⟨word.stop, receiver.span.stop⟩ ++ gaps.flatMap t.textAt ++
      t.textAt ⟨n.span.stop, Text.byteLength t.source.toList⟩)

def joinedEnding (method : String) : String := if method = "each" then "_each" else "_each.with_index"

/-- What the correction makes of the text: the ending is put in the place of the dot and the name. -/
structure Joins (n m : Node t) (c : Correction) (gap : Span) : Prop where
  isReceiver : n.receiver? = some m
  sends : m.Sends ["reverse"]
  makes : ∃ method word dot selector, n.methodName? = some method ∧
    method ∈ ["each", "each_with_index"] ∧ m.loc.selector = some word ∧ n.loc.dot = some dot ∧
    n.loc.selector = some selector ∧ gap = ⟨word.stop, dot.start⟩ ∧
    c.Makes t.source (t.textAt ⟨0, word.stop⟩ ++ t.textAt gap ++ (joinedEnding method).toList ++
      t.textAt ⟨selector.stop, Text.byteLength t.source.toList⟩)

/-! ## gaps -/

theorem textAt_infix_of_contains {s s' : Span} (hs : s.Cuts t.source.toList) (hs' : s'.Cuts t.source.toList)
    (h : s'.contains s = true) : t.textAt s <:+: t.textAt s' := by
  obtain ⟨hstart, hstop⟩ := Span.contains_iff.1 h
  have hle := hs.le
  refine ⟨t.textAt ⟨s'.start, s.start⟩, t.textAt ⟨s.stop, s'.stop⟩, ?_⟩
  have hfront : t.textAt ⟨s'.start, s.stop⟩ = t.textAt ⟨s'.start, s.start⟩ ++ t.textAt s :=
    EditSet.between_append hstart hle hs'.start hs.start hs.stop
  rw [← hfront]
  exact (EditSet.between_append (Nat.le_trans hstart hle) hstop hs'.start hs.stop hs'.stop).symm

/-- there is something at a span with an inside, and nothing at one without -/
theorem textAt_eq_nil_iff {s : Span} (hs : s.Cuts t.source.toList) :
    t.textAt s = [] ↔ s.start = s.stop := by
  obtain ⟨part, hpart⟩ :=
    Option.isSome_iff_exists.1 (Text.isSome_slice_iff.2 ⟨hs.le, hs.start, hs.stop⟩)
  obtain ⟨-, -, -, -, hlength⟩ := Text.slice_eq_some_iff.1 hpart
  rw [SyntaxTree.textAt, EditSet.between, hpart, Option.getD_some]
  constructor
  · rintro rfl
    exact hlength
  · intro h
    exact Text.eq_nil_of_byteLength (by omega)

theorem selector_le_closing (hn : n.Orders n.callParts) {s s' : Span}
    (hs : n.loc.selector = some s) (hs' : n.loc.closing = some s') : s.stop ≤ s'.start :=
  hn.2.stop_le_start (List.mem_append_left _ (List.mem_append_left _
    (List.mem_append_right _ (Option.mem_toList.2 hs)))) (Option.mem_toList.2 hs')

namespace Drops

variable {r : Rule} {name : String} {removed : List Span} {s : Span}

theorem standBetween (h : Drops n receiver m r name removed) (ht : t.WellFormed)
    (hn : n.Orders n.callParts) (hr : n.receiver? = some receiver) :
    Span.StandBetween receiver.span.stop removed n.span.stop ∧
      ∀ s ∈ removed, s.Cuts t.source.toList ∧ s.start < s.stop := by
  cases h with
  | @counting dot _ hdot =>
    have hdot' := ht.encloses_dot hn hdot
    have hpos : dot.start < n.span.stop := Nat.lt_of_lt_of_le (ht.dot_pos hdot) hdot'.le.2.2
    have hle := hn.receiver_le_dot hr hdot
    refine ⟨⟨hle, Nat.le_of_lt hpos, Nat.le_refl _⟩, ?_⟩
    exact List.forall_mem_singleton.2
      ⟨⟨Nat.le_of_lt hpos, hdot'.cuts.start, (ht.cuts n).stop⟩, hpos⟩
  | @mapping dot selector _ hdot hselector =>
    have hdot' := ht.encloses_dot hn hdot
    have hselector' := ht.encloses_selector hn hselector
    refine ⟨⟨hn.receiver_le_dot hr hdot, hdot'.cuts.le, hn.dot_le_selector hdot hselector,
      hselector'.cuts.le, hselector'.le.2.2⟩, ?_⟩
    exact List.forall_mem_cons.2 ⟨⟨hdot'.cuts, ht.dot_pos hdot⟩,
      List.forall_mem_singleton.2 ⟨hselector'.cuts, ht.selector_pos hselector⟩⟩
  | @asking question selector _ _ hselector =>
    have hselector' := ht.encloses_selector hn hselector
    have hpos := Nat.lt_of_le_of_lt (hn.receiver_le_selector hr hselector)
      (ht.selector_pos hselector)
    refine ⟨⟨Nat.le_refl _, Nat.le_of_lt hpos, hselector'.le.2.2⟩, ?_⟩
    exact List.forall_mem_singleton.2
      ⟨⟨Nat.le_of_lt hpos, (ht.cuts receiver).stop, hselector'.cuts.stop⟩, hpos⟩

theorem exists_removed (h : Drops n receiver m r name removed) (ht : t.WellFormed)
    (hn : n.Orders n.callParts) (hr : n.receiver? = some receiver)
    (hs : n.loc.dot = some s ∨ n.loc.selector = some s) :
    ∃ s' ∈ removed, s'.contains s = true := by
  have hs' : n.Encloses s := hs.elim (ht.encloses_dot hn) (ht.encloses_selector hn)
  cases h with
  | @counting dot _ hdot =>
    refine ⟨_, List.mem_singleton_self _, Span.contains_iff.2 ⟨?_, hs'.le.2.2⟩⟩
    show dot.start ≤ s.start
    rcases hs with hs | hs
    · exact Option.some.inj (hdot.symm.trans hs) ▸ Nat.le_refl _
    · exact Nat.le_trans (Nat.le_of_lt (ht.dot_pos hdot)) (hn.dot_le_selector hdot hs)
  | mapping _ hdot hselector =>
    rcases hs with hs | hs
    · obtain rfl := Option.some.inj (hdot.symm.trans hs)
      exact ⟨_, List.mem_cons_self, Span.contains_refl _⟩
    · obtain rfl := Option.some.inj (hselector.symm.trans hs)
      exact ⟨_, List.mem_cons_of_mem _ (List.mem_singleton_self _), Span.contains_refl _⟩
  | @asking question selector _ _ hselector =>
    refine ⟨_, List.mem_singleton_self _, Span.contains_iff.2 ?_⟩
    show receiver.span.stop ≤ s.start ∧ s.stop ≤ selector.stop
    rcases hs with hs | hs
    · have hle := hn.dot_le_selector hs hselector
      exact ⟨hn.receiver_le_dot hr hs,
        Nat.le_trans hle (Nat.le_of_lt (ht.selector_pos hselector))⟩
    · have hle := hn.receiver_le_selector hr hs
      obtain rfl := Option.some.inj (hselector.symm.trans hs)
      exact ⟨hle, Nat.le_refl _⟩

/-- the parentheses stand behind all that is deleted, unless the call counts -/
theorem stop_le (h : Drops n receiver m r name removed) (ht : t.WellFormed)
    (hn : n.Orders n.callParts) (hr : n.receiver? = some receiver) (hcount : r ≠ count)
    (hs : n.loc.opening = some s ∨ n.loc.closing = some s) :
    receiver.span.stop ≤ s.start ∧ ∀ s' ∈ removed, s'.stop ≤ s.start := by
  have hbehind : ∀ {selector}, n.loc.selector = some selector →
      receiver.span.stop ≤ s.start ∧ selector.start ≤ s.start ∧ selector.stop ≤ s.start := by
    intro selector hselector
    have hfront := hn.receiver_le_selector hr hselector
    have hpos := ht.selector_pos hselector
    have hle : selector.stop ≤ s.start :=
      hs.elim (hn.selector_le_opening hselector) (selector_le_closing hn hselector)
    omega
  cases h with
  | counting => exact absurd rfl hcount
  | asking _ _ hselector =>
    obtain ⟨hfront, -, hle⟩ := hbehind hselector
    exact ⟨hfront, List.forall_mem_singleton.2 hle⟩
  | mapping _ hdot hselector =>
    obtain ⟨hfront, hstart, hle⟩ := hbehind hselector
    exact ⟨hfront, List.forall_mem_cons.2 ⟨Nat.le_trans (hn.dot_le_selector hdot hselector) hstart,
      List.forall_mem_singleton.2 hle⟩⟩

end Drops

/-! ## what the edits make -/

theorem makes_of_apart {c : Correction} {sorted : List Edit} (hp : c.edits.Perm sorted)
    (hcuts : ∀ e ∈ sorted, e.span.Cuts t.source.toList)
    (hpos : ∀ e ∈ sorted, e.span.start < e.span.stop)
    (hapart : sorted.Pairwise fun e f => e.span.stop ≤ f.span.start) :
    c.Makes t.source (EditSet.spliceFrom t.source.toList 0 sorted) := by
  have hfit : ∀ e ∈ sorted, e.Fits t.source.toList := fun e he =>
    ⟨(hcuts e he).le, (hcuts e he).start, (hcuts e he).stop⟩
  exact ⟨_, EditSet.apply_of_apart hp hfit hpos hapart⟩

theorem Merges.of_drops (ht : t.WellFormed) (hn : n.Orders n.callParts) {r : Rule} {c : Correction}
    {name : String} {removed : List Span} {word : Span} (hr : n.receiver? = some receiver)
    (hm : receiver.Covers m) (h : Drops n receiver m r name removed)
    (hword : m.loc.selector = some word) (hword' : m.Encloses word)
    (hp : c.edits.Perm (⟨word, name⟩ :: removed.map Edit.remove)) :
    Merges r n receiver m c (Span.gaps receiver.span.stop removed n.span.stop) := by
  obtain ⟨hstand, hremoved⟩ := h.standBetween ht hn hr
  have hinner := (ht.encloses_covered hm).trans hword'
  have hmakes := makes_of_apart hp
    (List.forall_mem_cons.2 ⟨hinner.cuts, List.forall_mem_map.2 fun s hs => (hremoved s hs).1⟩)
    (List.forall_mem_cons.2 ⟨ht.selector_pos hword, List.forall_mem_map.2 fun s hs =>
      (hremoved s hs).2⟩)
    (List.pairwise_cons.2 ⟨List.forall_mem_map.2 fun s hs =>
      Nat.le_trans hinner.le.2.2 (hstand.start_le s hs), List.pairwise_map.2 hstand.inOrder⟩)
  -- from the end of the name on there is the rest of the receiver, and then there are the gaps
  have hstarts : ∀ e ∈ removed.map Edit.remove, receiver.span.stop ≤ e.span.start ∧
      Text.isBoundary t.source.toList e.span.start = true :=
    List.forall_mem_map.2 fun s hs => ⟨hstand.start_le s hs, (hremoved s hs).1.start⟩
  have hrest := EditSet.spliceFrom_eq_append hinner.le.2.2 hinner.cuts.stop (ht.cuts receiver).stop
    hstarts
  have hgaps := hstand.spliceFrom_eq (fun s hs => (hremoved s hs).1) (ht.cuts receiver).stop
    (ht.cuts n).stop
  rw [EditSet.spliceFrom, hrest, hgaps] at hmakes
  refine ⟨hr, hm, name, removed, word, h, rfl, hword, ?_⟩
  simp only [List.append_assoc] at hmakes ⊢
  exact hmakes

namespace Merges

variable {r : Rule} {c : Correction} {gaps : List Span} {s : Span}

theorem apart (h : Merges r n receiver m c gaps) (ht : t.WellFormed) (hn : n.Orders n.callParts)
    (hs : n.loc.dot = some s ∨ n.loc.selector = some s) : ∀ g ∈ gaps, g.Apart s := by
  obtain ⟨name, removed, word, hdrops, rfl, -, -⟩ := h.makes
  obtain ⟨hstand, -⟩ := hdrops.standBetween ht hn h.isReceiver
  obtain ⟨s', hs', hcontains⟩ := hdrops.exists_removed ht hn h.isReceiver hs
  obtain ⟨hstart, hstop⟩ := Span.contains_iff.1 hcontains
  intro g hg
  rcases hstand.apart g hg s' hs' with hle | hle
  · exact .inl (Nat.le_trans hle hstart)
  · exact .inr (Nat.le_trans hstop hle)

theorem textAt_infix (h : Merges r n receiver m c gaps) (ht : t.WellFormed)
    (hn : n.Orders n.callParts) (hcount : r ≠ count)
    (hs : n.loc.opening = some s ∨ n.loc.closing = some s) :
    t.textAt s ≠ [] ∧ t.textAt s <:+: gaps.flatMap t.textAt := by
  obtain ⟨name, removed, word, hdrops, rfl, -, -⟩ := h.makes
  obtain ⟨hstand, hremoved⟩ := hdrops.standBetween ht hn h.isReceiver
  have hs' : n.Encloses s := hs.elim (ht.encloses_opening hn) (ht.encloses_closing hn)
  have hpos : s.start < s.stop := by
    rcases hs with hs | hs
    · exact (ht.cuts_part n s (Loc.mem_parts.2 (.inr (.inr (.inl hs))))).2
    · exact (ht.cuts_part n s (SyntaxTree.WellFormed.mem_parts_closing hs)).2
  refine ⟨fun hnil => Nat.ne_of_lt hpos ((textAt_eq_nil_iff hs'.cuts).1 hnil), ?_⟩
  obtain ⟨hstart, hbehind⟩ := hdrops.stop_le ht hn h.isReceiver hcount hs
  obtain ⟨g, hg, hcontains⟩ := Span.StandBetween.exists_gap hbehind hstart hs'.le.2.2
  have hcuts := hstand.cuts_gaps (fun s hs => (hremoved s hs).1) (ht.cuts receiver).stop
    (ht.cuts n).stop g hg
  have hinner : t.textAt g <:+: (Span.gaps receiver.span.stop removed n.span.stop).flatMap t.textAt := by
    obtain ⟨front, back, hgaps⟩ := List.append_of_mem hg
    rw [hgaps, List.flatMap_append, List.flatMap_cons]
    exact ⟨_, _, List.append_assoc _ _ _⟩
  exact (textAt_infix_of_contains hs'.cuts hcuts hcontains).trans hinner

theorem flatMap_gaps_of_count (h : Merges r n receiver m c gaps) (ht : t.WellFormed)
    (hcount : r = count) : ∃ dot, n.loc.dot = some dot ∧
      gaps.flatMap t.textAt = t.textAt ⟨receiver.span.stop, dot.start⟩ := by
  obtain ⟨name, removed, word, hdrops, rfl, -, -⟩ := h.makes
  cases hdrops with
  | @counting dot _ hdot =>
    have hcuts : (⟨n.span.stop, n.span.stop⟩ : Span).Cuts t.source.toList :=
      ⟨Nat.le_refl _, (ht.cuts n).stop, (ht.cuts n).stop⟩
    have hend : t.textAt ⟨n.span.stop, n.span.stop⟩ = [] := (textAt_eq_nil_iff hcuts).2 rfl
    refine ⟨dot, hdot, ?_⟩
    rw [Span.gaps, Span.gaps, List.flatMap_cons, List.flatMap_singleton, hend, List.append_nil]
  | mapping => exact absurd (congrArg Rule.name hcount) (by decide)
  | asking => exact absurd (congrArg Rule.name hcount) (by decide)

end Merges

theorem countVerdict_merges (ht : t.WellFormed) (n : Node t) :
    Verdict.Answers (fun f => n.Orders n.callParts → ∀ c, f.correction = some c →
      ∃ receiver m gaps, Merges count n receiver m c gaps) (countVerdict n) := by
  rw [countVerdict]
  split
  · exact .nothing
  · refine .ofOption fun f hf hn c hc => ?_
    obtain ⟨call, hcall, hf⟩ := Option.bind_eq_some_iff.1 hf
    obtain ⟨word, hword, hf⟩ := Option.bind_eq_some_iff.1 hf
    obtain ⟨dot, hdot, hf⟩ := Option.bind_eq_some_iff.1 hf
    obtain ⟨filter, hfilter, hf⟩ := Option.bind_eq_some_iff.1 hf
    obtain ⟨counter, -, hf⟩ := Option.bind_eq_some_iff.1 hf
    cases hf
    split at hc
    · cases hc
    next hreject =>
    cases hc
    have hworks := worksOn_of_filteringCall? hcall
    have hselects : call.Sends ["select", "filter", "find_all"] := by
      obtain ⟨name, hmem, hname⟩ := hworks.sends.named
      obtain rfl : filter = name := Option.some.inj (hfilter.symm.trans hname)
      refine ⟨hworks.sends.kind, filter, ?_, hname⟩
      simpa [filterMethods, hreject] using hmem
    obtain ⟨receiver, hreceiver, hcovers⟩ := hworks.exists_receiver
    exact ⟨receiver, call, _, .of_drops ht hn hreceiver hcovers (.counting hselects hdot) hword
      (hworks.sends.encloses_selector ht (by decide) hword) (.refl _)⟩

theorem compactVerdict_merges (ht : t.WellFormed) (n : Node t) :
    Verdict.Answers (fun f => n.Orders n.callParts → ∀ c, f.correction = some c →
      ∃ receiver m gaps, Merges mapCompact n receiver m c gaps) (compactVerdict n) := by
  refine .ofOption fun f hf hn c hc => ?_
  obtain ⟨map, hmap, hf⟩ := Option.bind_eq_some_iff.1 hf
  obtain ⟨caps, hm, hmap⟩ := Option.bind_eq_some_iff.1 hmap
  obtain ⟨word, hword, hf⟩ := Option.bind_eq_some_iff.1 hf
  obtain ⟨dot, hdot, hf⟩ := Option.bind_eq_some_iff.1 hf
  obtain ⟨selector, hselector, hf⟩ := Option.bind_eq_some_iff.1 hf
  cases hf
  cases hc
  have hworks := worksOn_of_mapThenCompact hm hmap
  obtain ⟨receiver, hreceiver, hcovers⟩ := hworks.exists_receiver
  exact ⟨receiver, map, _, .of_drops ht hn hreceiver hcovers
    (.mapping hworks.sends hdot hselector) hword
    (hworks.sends.encloses_selector ht (by decide) hword) (.refl _)⟩

theorem selectionVerdict_merges (ht : t.WellFormed) (n : Node t) :
    Verdict.Answers (fun f => n.Orders n.callParts → ∀ c, f.correction = some c →
      ∃ receiver m gaps, Merges predicateOnSelectResult n receiver m c gaps)
      (selectionVerdict n) := by
  rw [selectionVerdict]
  split
  · exact .nothing
  · refine .ofOption fun f hf hn c hc => ?_
    obtain ⟨select, hselect, hf⟩ := Option.bind_eq_some_iff.1 hf
    obtain ⟨caps, hm, hselect⟩ := Option.bind_eq_some_iff.1 hselect
    obtain ⟨word, hword, hf⟩ := Option.bind_eq_some_iff.1 hf
    obtain ⟨selector, hselector, hf⟩ := Option.bind_eq_some_iff.1 hf
    obtain ⟨receiver, hreceiver, hf⟩ := Option.bind_eq_some_iff.1 hf
    obtain ⟨filter, -, hf⟩ := Option.bind_eq_some_iff.1 hf
    obtain ⟨question, hquestion, hf⟩ := Option.bind_eq_some_iff.1 hf
    cases hf
    cases hc
    have hworks := worksOn_of_questionOnSelection hm hselect
    obtain ⟨r, hr, hcovers⟩ := hworks.exists_receiver
    obtain rfl : receiver = r := Option.some.inj (hreceiver.symm.trans hr)
    -- the edit of the name comes last
    exact ⟨receiver, select, _, .of_drops ht hn hreceiver hcovers
      (.asking hworks.sends hquestion hselector) hword
      (hworks.sends.encloses_selector ht (by decide) hword) (.swap _ _ _)⟩

/-- the call of `reverse`, and a question for each element that its result is asked -/
theorem asks_of_reverseThenEach {caps : Captures t} {current : String}
    (hm : reverseThenEach.match? n = some caps) (hreverse : caps.node? 0 = some m)
    (hcurrent : caps.sym? 1 = some current) : n.receiver? = some m ∧ m.Sends ["reverse"] ∧
      n.methodName? = some current ∧ current ∈ ["each", "each_with_index"] := by
  obtain ⟨d, hd, hcaps⟩ := reverseThenEachCompiled.exists_derives hm
  obtain ⟨a, b, hkind, hchildren, hsends, hnamed, ha, hb⟩ := exists_captured_pair hd rfl rfl hcaps
  obtain rfl := eq_node_of_get? ha hreverse
  obtain rfl := eq_sym_of_get? hb hcurrent
  obtain ⟨k, hk, hsends⟩ : ∃ k, NodeChild.node m = .node k ∧ k.Sends ["reverse"] :=
    Condition.exists_sends_of_holds rfl hsends
  obtain rfl := NodeChild.node.inj hk
  obtain ⟨name, hname, hmethod⟩ :=
    (Node.sends_of_children hkind hchildren (List.mem_singleton_self current)).named
  obtain rfl := List.mem_singleton.1 hname
  exact ⟨Node.receiver?_of_children hkind hchildren, hsends, hmethod,
    Condition.mem_names_of_holds rfl hnamed⟩

/-- the dot and the name are replaced, and what is in front of them stays -/
theorem joins_of_upTo (ht : t.WellFormed) (hn : n.Orders n.callParts) {method : String}
    {word dot selector : Span} (hr : n.receiver? = some m) (hsends : m.Sends ["reverse"])
    (hmethod : n.methodName? = some method) (hmem : method ∈ ["each", "each_with_index"])
    (hword : m.loc.selector = some word) (hdot : n.loc.dot = some dot)
    (hselector : n.loc.selector = some selector) :
    Joins n m ⟨[⟨dot.upTo selector, joinedEnding method⟩]⟩ ⟨word.stop, dot.start⟩ ∧
      (t.textAt ⟨word.stop, dot.start⟩ = [] ↔ word.stop = dot.start) := by
  have hinner := hsends.encloses_selector ht (by decide) hword
  have hword' := (ht.encloses_child (Node.mem_childNodes_of_receiver? hr)).trans hinner
  have hdot' := ht.encloses_dot hn hdot
  have hselector' := ht.encloses_selector hn hselector
  have hfront : word.stop ≤ dot.start := Nat.le_trans hinner.le.2.2 (hn.receiver_le_dot hr hdot)
  have hpos : dot.start < selector.stop := Nat.lt_of_lt_of_le (ht.dot_pos hdot)
    (Nat.le_trans (hn.dot_le_selector hdot hselector) hselector'.cuts.le)
  have hreplaced : dot.upTo selector = ⟨dot.start, selector.stop⟩ :=
    congrArg _ (Nat.max_eq_left (Nat.le_of_lt hpos))
  have hcuts : (⟨dot.start, selector.stop⟩ : Span).Cuts t.source.toList :=
    hdot'.cuts.between hselector'.cuts (Nat.le_of_lt hpos)
  have hmakes := @makes_of_apart t ⟨[⟨⟨dot.start, selector.stop⟩, joinedEnding method⟩]⟩ _ (.refl _)
    (List.forall_mem_singleton.2 hcuts) (List.forall_mem_singleton.2 hpos)
    (List.pairwise_singleton _ _)
  have hgap : (⟨word.stop, dot.start⟩ : Span).Cuts t.source.toList :=
    ⟨hfront, hword'.cuts.stop, hdot'.cuts.start⟩
  have hsplit : t.textAt ⟨0, dot.start⟩ = t.textAt ⟨0, word.stop⟩ ++ t.textAt ⟨word.stop, dot.start⟩ :=
    EditSet.between_append (Nat.zero_le _) hfront (Text.isBoundary_zero _) hgap.start hgap.stop
  refine ⟨⟨hr, hsends, method, word, dot, selector, hmethod, hmem, hword, hdot, hselector, rfl, ?_⟩,
    textAt_eq_nil_iff hgap⟩
  rw [← hsplit, hreplaced]
  exact hmakes

theorem reverseVerdict_joins (ht : t.WellFormed) (n : Node t) :
    Verdict.Answers (fun f => ∀ c, f.correction = some c →
      ∃ m gap, Joins n m c gap ∧ (t.textAt gap = [] ↔ gap.start = gap.stop)) (reverseVerdict n) := by
  refine .ofOption fun f hf c hc => ?_
  obtain ⟨caps, hm, hf⟩ := Option.bind_eq_some_iff.1 hf
  obtain ⟨reverse, hreverse, hf⟩ := Option.bind_eq_some_iff.1 hf
  obtain ⟨current, hcurrent, hf⟩ := Option.bind_eq_some_iff.1 hf
  obtain ⟨word, hword, hf⟩ := Option.bind_eq_some_iff.1 hf
  obtain ⟨dot, hdot, hf⟩ := Option.bind_eq_some_iff.1 hf
  obtain ⟨selector, hselector, hf⟩ := Option.bind_eq_some_iff.1 hf
  cases hf
  cases hc
  have hn :=
    (reverseThenEachCompiled.sends ["each", "each_with_index"] rfl hm).orders ht (by decide)
  obtain ⟨hr, hsends, hmethod, hmem⟩ := asks_of_reverseThenEach hm hreverse hcurrent
  exact ⟨reverse, _, joins_of_upTo ht hn hr hsends hmethod hmem hword hdot hselector⟩

/-- **A call that is merged into the one before leaves what no edit covers.**  At each call that it is
asked about, a rule that merges has an answer.  Its correction changes nothing in front of the call and
behind it, and in the receiver only the name of the call that it works on.  Behind the receiver the gaps
stay, and nothing else.  The dot and the name of the call are in none of them.  The parentheses of the
call are among them, unless the call counts; then there is only what stands between the receiver and the
dot.  An ending that is joined to `reverse` stands behind what was between that word and the dot, and so
directly behind the word only if nothing was. -/
theorem merged_leavesGaps (ht : t.WellFormed) (context : RuleContext) (n : Node t) :
    (∀ r ∈ [count, mapCompact, predicateOnSelectResult],
      r.triggers n.kind = true → r.concerns n = true →
      ∃ os, (r.evaluate context n).offenses = .ok os ∧ ∀ o ∈ os, ∀ c, o.correction = some c →
        ∃ receiver m gaps, Merges r n receiver m c gaps ∧
          (∀ s, n.loc.dot = some s ∨ n.loc.selector = some s → ∀ g ∈ gaps, g.Apart s) ∧
          (r ≠ count → ∀ s, n.loc.opening = some s ∨ n.loc.closing = some s →
            t.textAt s ≠ [] ∧ t.textAt s <:+: gaps.flatMap t.textAt) ∧
          (r = count → ∃ dot, n.loc.dot = some dot ∧
            gaps.flatMap t.textAt = t.textAt ⟨receiver.span.stop, dot.start⟩)) ∧
    ∃ os, (reverseEach.evaluate context n).offenses = .ok os ∧ ∀ o ∈ os, ∀ c, o.correction = some c →
      ∃ m gap, Joins n m c gap ∧ (t.textAt gap = [] ↔ gap.start = gap.stop) := by
  have hmerges : ∀ r ∈ [count, mapCompact, predicateOnSelectResult],
      r.triggers n.kind = true → r.concerns n = true → ∃ id v, n.Orders n.callParts ∧
        r.evaluate context n = Evaluation.ofVerdict
          (fun f => f.toOffense id .warning t.source.toList) v ∧
        Verdict.Answers (fun f => n.Orders n.callParts → ∀ c, f.correction = some c →
          ∃ receiver m gaps, Merges r n receiver m c gaps) v := by
    intro r hr htriggers hconcerns
    rcases List.mem_cons.1 hr with rfl | hr
    · exact ⟨_, _, orders_of_asked ht rfl rfl (by decide) htriggers hconcerns, rfl,
        countVerdict_merges ht n⟩
    rcases List.mem_cons.1 hr with rfl | hr
    · exact ⟨_, _, orders_of_asked ht rfl rfl (by decide) htriggers hconcerns, rfl,
        compactVerdict_merges ht n⟩
    · obtain rfl := List.mem_singleton.1 hr
      exact ⟨_, _, orders_of_asked ht rfl rfl (by decide) htriggers hconcerns, rfl,
        selectionVerdict_merges ht n⟩
  refine ⟨fun r hr htriggers hconcerns => ?_, ?_⟩
  · obtain ⟨id, v, hn, hevaluate, hanswers⟩ := hmerges r hr htriggers hconcerns
    obtain ⟨os, hos, hall⟩ := exists_offenses_ofVerdict hanswers
    refine ⟨os, hevaluate ▸ hos, fun o ho c hc => ?_⟩
    obtain ⟨f, hf, rfl⟩ := hall o ho
    obtain ⟨receiver, m, gaps, h⟩ := hf hn c hc
    exact ⟨receiver, m, gaps, h, fun s hs => h.apart ht hn hs,
      fun hcount s hs => h.textAt_infix ht hn hcount hs, h.flatMap_gaps_of_count ht⟩
  · obtain ⟨os, hos, hall⟩ := exists_offenses_ofVerdict (reverseVerdict_joins ht n)
    refine ⟨os, hos, fun o ho c hc => ?_⟩
    obtain ⟨f, hf, rfl⟩ := hall o ho
    exact hf c hc

/-! ## a call with parentheses, and one on a line of its own -/

def mappedThenCompacted : SyntaxTree :=
  SyntaxTree.ofNode "foo.map(&:x).compact()" .send ⟨0, 22⟩
    ⟨some ⟨13, 20⟩, some ⟨12, 13⟩, some ⟨20, 21⟩, some ⟨21, 22⟩, none⟩ [
    .node .send ⟨0, 12⟩ ⟨some ⟨4, 7⟩, some ⟨3, 4⟩, some ⟨7, 8⟩, some ⟨11, 12⟩, none⟩ [
      .node .send ⟨0, 3⟩ ⟨some ⟨0, 3⟩, none, none, none, none⟩ [.value .nil, .value (.sym "foo")],
      .value (.sym "map"),
      .node .blockPass ⟨8, 11⟩ Loc.none [.node .sym ⟨9, 11⟩ Loc.none [.value (.sym "x")]]],
    .value (.sym "compact")]

def compactedCorrection : Correction :=
  ⟨[⟨⟨4, 7⟩, "filter_map"⟩, ⟨⟨12, 13⟩, ""⟩, ⟨⟨13, 20⟩, ""⟩]⟩

theorem mappedThenCompacted_corrections :
    ((mapCompact.evaluate Config.standard.context mappedThenCompacted.rootNode).offenses.toOption.map
      fun os => os.map fun o => o.correction) = some [some compactedCorrection] := by
  decide +kernel

theorem mappedThenCompacted_leavesGaps : mappedThenCompacted.WellFormed ∧
    ∃ os o receiver m gaps,
      (mapCompact.evaluate Config.standard.context mappedThenCompacted.rootNode).offenses = .ok os ∧
      o ∈ os ∧ o.correction = some compactedCorrection ∧
      Merges mapCompact mappedThenCompacted.rootNode receiver m compactedCorrection gaps ∧
      mappedThenCompacted.textAt ⟨20, 21⟩ <:+: gaps.flatMap mappedThenCompacted.textAt := by
  have ht : mappedThenCompacted.WellFormed := by decide +kernel
  obtain ⟨os, hos, hall⟩ :=
    (merged_leavesGaps ht Config.standard.context mappedThenCompacted.rootNode).1 mapCompact
      (List.mem_cons_of_mem _ List.mem_cons_self) (by decide +kernel) (by decide +kernel)
  obtain ⟨o, rfl, hcorrection⟩ :=
    exists_offense_of_corrections mappedThenCompacted_corrections hos
  obtain ⟨receiver, m, gaps, hmerges, -, hparentheses, -⟩ :=
    hall o List.mem_cons_self _ hcorrection
  have hcount : mapCompact ≠ count := fun h => absurd (congrArg Rule.name h) (by decide)
  exact ⟨ht, _, o, receiver, m, gaps, hos, List.mem_cons_self, hcorrection, hmerges,
    (hparentheses hcount ⟨20, 21⟩ (.inl (by decide +kernel))).2⟩

def reversedThenEach : SyntaxTree :=
  SyntaxTree.ofNode "foo.reverse\n  .each" .send ⟨0, 19⟩
    ⟨some ⟨15, 19⟩, some ⟨14, 15⟩, none, none, none⟩ [
    .node .send ⟨0, 11⟩ ⟨some ⟨4, 11⟩, some ⟨3, 4⟩, none, none, none⟩ [
      .node .send ⟨0, 3⟩ ⟨some ⟨0, 3⟩, none, none, none, none⟩ [.value .nil, .value (.sym "foo")],
      .value (.sym "reverse")],
    .value (.sym "each")]

/-- The parentheses stay, and so does the line break in front of the dot. -/
theorem mappedThenCompacted_residue : mappedThenCompacted.WellFormed ∧
    ((mapCompact.evaluate Config.standard.context mappedThenCompacted.rootNode).offenses.toOption.map
      fun os => os.map fun o => o.correction) = some [some compactedCorrection] ∧
    compactedCorrection.Makes mappedThenCompacted.source "foo.filter_map(&:x)()".toList ∧
    (∀ ch ∈ ['(', ')'], Text.isBlank ch = false) ∧ reversedThenEach.WellFormed ∧
    ((reverseEach.evaluate Config.standard.context reversedThenEach.rootNode).offenses.toOption.map
      fun os => os.map fun o => o.correction) = some [some ⟨[⟨⟨14, 19⟩, "_each"⟩]⟩] ∧
    (Correction.mk [⟨⟨14, 19⟩, "_each"⟩]).Makes reversedThenEach.source
      "foo.reverse\n  _each".toList :=
  ⟨by decide +kernel, mappedThenCompacted_corrections, by decide +kernel,
    List.forall_mem_cons.2 ⟨rfl, List.forall_mem_singleton.2 rfl⟩, by decide +kernel,
    by decide +kernel, by decide +kernel⟩

end

end Rule

end RubyLint
