import RubyLint.Proofs.Rule.Exchange
import RubyLint.Proofs.Run.Inspection

/-!
# Chains of conjunctions get sorted

A pass over a text makes something of each chain of conjunctions in it, and the next pass starts from
there.

* `rearranged`           the operands whose texts stand in the places of a chain after a pass;
* `rearranged_eq`        they are those that `Settles` leaves there;
* `advances_or_isMoved`  a chain is moved as a whole, or there are fewer pairs to be sorted in it;
* `WholeChain`           a chain of a text that the rule alone is asked about;
* `shortCircuitAnd_sorts`  what is reported, what a pass makes of it, and how passes end.
-/

namespace RubyLint

section
variable {t : SyntaxTree} {n : Node t} {joints es after : List (Node t)}
  {pairs : List (Node t × Node t)} {reports : Node t → List Offense}

open Rule Merge

/-! ## what a pass makes of a chain -/

namespace Rule

def exchanges (taken : List Offense) (e e' : Node t) : Bool :=
  taken.any fun o => decide (o.Swaps e e')

/-- the operand whose text the corrections put in the place of the given one -/
def comesTo (taken : List Offense) (operands : List (Node t)) (e : Node t) : Node t :=
  (operands.find? (exchanges taken e)).getD e

/-- the operands whose texts stand in the places of a chain after the corrections -/
def rearranged (taken : List Offense) (operands : List (Node t)) : List (Node t) :=
  operands.map (comesTo taken operands)

/-- The corrections lose no operand.  Unless the variables come first, there are fewer pairs of an
operand that is no variable and a variable behind it; and if they do, nothing has changed. -/
def Advances (taken : List Offense) (operands : List (Node t)) : Prop :=
  (rearranged taken operands).Perm operands ∧
  (¬ CheapFirst Node.isVariable operands →
    misplaced Node.isVariable (rearranged taken operands) < misplaced Node.isVariable operands) ∧
  (CheapFirst Node.isVariable operands → rearranged taken operands = operands)

/-- what a correction exchanges in the text, `Settles` exchanges among the operands -/
theorem exchanged_of_swaps (ht : t.WellFormed) (h : Chain n joints es) (hjoints : joints ≠ [])
    (hs : Settles Node.isVariable es pairs after) {taken : List Offense} (hpairs : Realizes taken pairs)
    {o : Offense} (ho : o ∈ taken) {e e' : Node t} (he : e ∈ es) (he' : e' ∈ es) (hswaps : o.Swaps e e') :
    Exchanged pairs e e' := by
  obtain ⟨⟨a, b⟩, hx, hswaps'⟩ := hpairs.pair o ho
  have ha := hs.mem_of_exchanged (.inl hx)
  have hb := hs.mem_of_exchanged (.inr hx)
  -- the two have the same spans, and so they are the same
  have hspan : ∀ {c d}, c ∈ es → d ∈ es → (c = d ↔ c.span = d.span) := fun hc hd =>
    ⟨fun h => h ▸ rfl, h.eq_of_span_eq ht hjoints hc hd⟩
  have hsame : ∀ c ∈ es, (c = e ∨ c = e') ↔ (c = a ∨ c = b) := fun c hc => by
    rw [hspan hc he, hspan hc he', hspan hc ha, hspan hc hb, ← hswaps.exists_edit_iff,
      hswaps'.exists_edit_iff]
  rcases (hsame e he).1 (.inl rfl) with rfl | rfl
  · rcases (hsame b hb).2 (.inr rfl) with rfl | rfl
    · rcases (hsame e' he').1 (.inr rfl) with rfl | rfl <;> exact .inl hx
    · exact .inl hx
  · rcases (hsame a ha).2 (.inl rfl) with rfl | rfl
    · rcases (hsame e' he').1 (.inr rfl) with rfl | rfl <;> exact .inl hx
    · exact .inr hx

/-- in the places of a chain stand the operands that `Settles` leaves there, if no other correction
changes an operand -/
theorem rearranged_eq (ht : t.WellFormed) (h : Chain n joints es) (hjoints : joints ≠ [])
    (hs : Settles Node.isVariable es pairs after) {taken all : List Offense}
    (hpairs : Realizes taken pairs)
    (hall : ∀ o ∈ taken, o ∈ all)
    (hother : ∀ o ∈ all, o ∈ taken ∨ ∀ f ∈ o.edits, ∀ e ∈ es, f.span ≠ e.span) :
    rearranged all es = after := by
  have hiff : ∀ e ∈ es, ∀ e' ∈ es, (∃ o ∈ all, o.Swaps e e') ↔ Exchanged pairs e e' := by
    intro e he e' he'
    constructor
    · rintro ⟨o, ho, hswaps⟩
      obtain ⟨f, hf, hspan⟩ := hswaps.exists_edit_iff.2 (.inl rfl)
      have ho' : o ∈ taken := (hother o ho).resolve_right fun hno => hno f hf e he hspan
      exact exchanged_of_swaps ht h hjoints hs hpairs ho' he he' hswaps
    · rintro (hx | hx)
      · obtain ⟨o, ho, hswaps⟩ := hpairs.offense _ hx
        exact ⟨o, hall o ho, hswaps⟩
      · obtain ⟨o, ho, hswaps⟩ := hpairs.offense _ hx
        exact ⟨o, hall o ho, hswaps.symm⟩
  have hfound : ∀ e ∈ es, ∀ e' ∈ es,
      (exchanges all e e' = true ↔ Exchanged pairs e e') := by
    intro e he e' he'
    rw [← hiff e he e' he', exchanges, List.any_eq_true]
    simp
  refine (hs.eq_map (h.nodup ht hjoints) ?_ ?_).symm
  · intro e e' hex
    have he := hs.mem_of_exchanged hex
    have he' := hs.mem_of_exchanged hex.symm
    obtain ⟨e'', he''⟩ := Option.isSome_iff_exists.1
      (List.find?_isSome.2 ⟨e', he', (hfound e he e' he').2 hex⟩)
    have hex' := (hfound e he e'' (List.mem_of_find?_eq_some he'')).1 (List.find?_some he'')
    rw [comesTo, he'', Option.getD_some]
    exact hs.exchanged_unique (h.nodup ht hjoints) hex' hex
  · intro e he hno
    have hnone : es.find? (exchanges all e) = none :=
      List.find?_eq_none.2 fun e' he' h' => hno e' ((hfound e he e' he').1 h')
    rw [comesTo, hnone, Option.getD_none]

/-- The rule reports something at a joint unless the variables come first. -/
theorem reported_iff (hreports : ReportsExchanges reports) (h : Chain n joints es) :
    (∃ m ∈ joints, reports m ≠ []) ↔ ¬ CheapFirst Node.isVariable es := by
  induction h with
  | @single n => exact iff_of_false (by simp) (not_not.2 (List.pairwise_singleton _ _))
  | @joint n left right joints es hkind hoperands h ih =>
    have hcases := hreports (.joint hkind hoperands h) h.ne_nil
    constructor
    · rintro ⟨m, hm, hne⟩
      rcases List.mem_cons.1 hm with rfl | hm
      · rcases hcases with ⟨dear, o, he, hwaits, -, -⟩ | ⟨-, hnone⟩
        · exact hwaits.not_cheapFirst he
        · exact absurd hnone hne
      · exact fun hfirst => ih.1 ⟨m, hm, hne⟩ (List.pairwise_append.1 hfirst).1
    · intro hnot
      by_cases hfirst : CheapFirst Node.isVariable es
      · obtain ⟨he, dear, hwaits⟩ := exists_waits hfirst hnot
        rcases hcases with ⟨-, o, -, -, hone, -⟩ | ⟨hnone, -⟩
        · exact ⟨n, List.mem_cons_self, by simp [hone]⟩
        · exact absurd hwaits (hnone he dear)
      · obtain ⟨m, hm, hne⟩ := ih.2 hfirst
        exact ⟨m, List.mem_cons_of_mem _ hm, hne⟩

/-- what is reported exchanges an operand that is no variable and a later variable, and there are only
variables between them -/
theorem reported_swaps (hreports : ReportsExchanges reports) (h : Chain n joints es) {m : Node t}
    (hm : m ∈ joints) {o : Offense} (ho : o ∈ reports m) :
    ∃ (front between back : List (Node t)) (dear e : Node t),
      es = front ++ dear :: (between ++ e :: back) ∧ dear.isVariable = false ∧
      e.isVariable = true ∧ (∀ b ∈ between, b.isVariable = true) ∧ o.Swaps dear e := by
  obtain ⟨inner, es', e, back, hchain, hes, rfl⟩ := h.exists_of_mem hm
  rcases hreports hchain hes with
    ⟨dear, o', he, ⟨front, ⟨hdear, between, rfl, hbetween⟩, -⟩, hone, hswaps⟩ | ⟨-, hnone⟩
  · obtain rfl : o = o' := List.mem_singleton.1 (hone ▸ ho)
    exact ⟨front, between, back, dear, e, by simp, hdear, he, hbetween, hswaps⟩
  · rw [hnone] at ho
    exact absurd ho List.not_mem_nil

/-- corrections that exchange the pairs of `Settles` and change no other operand -/
theorem advances_of_settles (ht : t.WellFormed) (h : Chain n joints es) (hjoints : joints ≠ [])
    (hs : Settles Node.isVariable es pairs after) {taken all : List Offense}
    (hpairs : Realizes taken pairs) (hall : ∀ o ∈ taken, o ∈ all)
    (hother : ∀ o ∈ all, o ∈ taken ∨ ∀ f ∈ o.edits, ∀ e ∈ es, f.span ≠ e.span) :
    Advances all es := by
  unfold Advances
  rw [rearranged_eq ht h hjoints hs hpairs hall hother]
  refine ⟨hs.perm, fun hnot => ?_, fun hfirst => ?_⟩
  · exact hs.misplaced_lt.2 (mt hs.pairs_eq_nil_iff.1 hnot)
  · exact hs.eq_of_pairs_eq_nil (hs.pairs_eq_nil_iff.2 hfirst)

theorem advances_joints (ht : t.WellFormed) (hreports : ReportsExchanges reports)
    (h : Chain n joints es) (hjoints : joints ≠ []) :
    Advances (accepted (joints.flatMap reports)) es := by
  obtain ⟨pairs, after, hs⟩ := exists_settles Node.isVariable es
  obtain ⟨taken, htaken, hpairs⟩ := accepted_chain ht hreports hs h [] nofun
  have heq : accepted (joints.flatMap reports) = taken := htaken
  rw [heq]
  exact advances_of_settles ht h hjoints hs hpairs (fun o ho => ho) fun o ho => .inl ho

theorem rearranged_eq_self {all : List Offense}
    (hother : ∀ o ∈ all, ∀ f ∈ o.edits, ∀ e ∈ es, f.span ≠ e.span) : rearranged all es = es := by
  refine (List.map_congr_left fun e he => ?_).trans (List.map_id'' (fun _ => rfl) es)
  have hnone : es.find? (exchanges all e) = none := by
    refine List.find?_eq_none.2 fun e' _ hex => ?_
    obtain ⟨o, ho, hswaps⟩ := List.any_eq_true.1 hex
    obtain ⟨f, hf, hspan⟩ := (of_decide_eq_true hswaps).exists_edit_iff.2 (.inl rfl)
    exact hother o ho f hf e he hspan
  rw [comesTo, hnone]
  rfl

/-- what is reported about a node exchanges operands of conjunctions to which it leads -/
def ReportsOperands (reports : Node t → List Offense) : Prop :=
  ∀ j, ∀ o ∈ reports j, j.kind = .conjunction ∧
    ∃ e e', o.Swaps e e' ∧ HasOperand j e ∧ HasOperand j e'

def IsMoved (taken : List Offense) (n : Node t) : Prop :=
  ∃ o ∈ taken, ∃ f ∈ o.edits, f.span.contains n.span = true

/-- every exchange in a chain is in the way of a correction that moves the chain -/
theorem accepted_of_isMoved (ht : t.WellFormed) (hreports : ReportsExchanges reports)
    (h : Chain n joints es) (hjoints : joints ≠ []) {before : List Offense}
    (hmoved : IsMoved (accepted before) n) :
    accepted (before ++ joints.flatMap reports) = accepted before := by
  obtain ⟨a, ha, f, hf, hcontains⟩ := hmoved
  refine accepted_append_of_blocked fun o ho => ?_
  obtain ⟨m, hm, ho⟩ := List.mem_flatMap.1 ho
  obtain ⟨front, between, back, dear, e, hes, -, -, -, hswaps⟩ := reported_swaps hreports h hm ho
  have hdear : dear ∈ es := by simp [hes]
  have hinside := (ht.encloses_covered (h.covers_operand dear hdear)).contains
  obtain ⟨g, hg, hspan⟩ := hswaps.exists_edit_iff.2 (.inl rfl)
  refine ⟨g, hg, a, ha, f, hf, Edit.conflicts_of_contains ?_ ?_⟩
  · exact hspan ▸ h.pos ht hjoints dear hdear
  · exact hspan ▸ Span.contains_trans hcontains hinside

theorem untouched_of_not_isMoved (ht : t.WellFormed) (h : Chain n joints es) {before : List Offense}
    (haway : ∀ o ∈ before, ∀ f ∈ o.edits, f.span.contains n.span = true ∨
      f.span.start ≤ f.span.stop ∧ f.span.Apart n.span)
    (hmoved : ¬ IsMoved (accepted before) n) : Untouched (accepted before) es := by
  intro a ha f hf
  obtain ⟨hle, hapart⟩ := (haway a (mem_of_mem_accepted ha) f hf).resolve_left fun hcontains =>
    hmoved ⟨a, ha, f, hf, hcontains⟩
  refine ⟨hle, fun e he => ?_⟩
  have hinner := Span.contains_iff.1 (ht.encloses_covered (h.covers_operand e he)).contains
  have hele := ht.le e
  unfold Span.Apart at hapart ⊢
  omega

/-- A pass in which the offenses about a chain come after some that stand around it or apart from it:
either one of those moves the chain as a whole, or the chain advances. -/
theorem advances_or_isMoved_of_apart (ht : t.WellFormed) (hreports : ReportsExchanges reports)
    (h : Chain n joints es) (hjoints : joints ≠ []) {before later : List Offense}
    (haway : ∀ o ∈ before, ∀ f ∈ o.edits, f.span.contains n.span = true ∨
      f.span.start ≤ f.span.stop ∧ f.span.Apart n.span)
    (hother : ∀ o, o ∈ before ∨ o ∈ later → ∀ f ∈ o.edits, ∀ e ∈ es, f.span ≠ e.span) :
    Advances (accepted (before ++ joints.flatMap reports ++ later)) es ∨
      IsMoved (accepted (before ++ joints.flatMap reports ++ later)) n ∧
        rearranged (accepted (before ++ joints.flatMap reports ++ later)) es = es := by
  have hkept : ∀ o ∈ accepted (before ++ joints.flatMap reports),
      o ∈ accepted (before ++ joints.flatMap reports ++ later) := fun o ho => by
    rw [accepted_append]
    exact List.mem_append_left _ ho
  by_cases hmoved : IsMoved (accepted before) n
  · have hblocked := accepted_of_isMoved ht hreports h hjoints hmoved
    obtain ⟨a, ha, f, hf, hcontains⟩ := hmoved
    refine .inr ⟨⟨a, hkept a (hblocked ▸ ha), f, hf, hcontains⟩, rearranged_eq_self fun o ho => ?_⟩
    refine hother o ?_
    rcases mem_accepted_append ho with ho | ho
    · exact .inl (mem_of_mem_accepted (hblocked ▸ ho))
    · exact .inr ho
  · obtain ⟨pairs, after, hs⟩ := exists_settles Node.isVariable es
    obtain ⟨taken, htaken, hpairs⟩ :=
      accepted_chain ht hreports hs h before (untouched_of_not_isMoved ht h haway hmoved)
    refine .inl (advances_of_settles ht h hjoints hs hpairs (fun o ho => hkept o ?_) fun o ho => ?_)
    · exact htaken ▸ List.mem_append_right _ ho
    · rcases mem_accepted_append ho with ho | ho
      · rcases List.mem_append.1 (htaken ▸ ho) with ho | ho
        · exact .inr (hother o (.inl (mem_of_mem_accepted ho)))
        · exact .inl ho
      · exact .inr (hother o (.inr ho))

/-- **A pass over a text moves a chain as a whole, or the chain advances.** -/
theorem advances_or_isMoved (ht : t.WellFormed) (hreports : ReportsExchanges reports)
    (hoperands : ReportsOperands reports) (hn : n ∈ t.preorder) (houter : Outermost n)
    (h : Chain n joints es) (hjoints : joints ≠ []) :
    Advances (accepted (t.preorder.flatMap reports)) es ∨
      IsMoved (accepted (t.preorder.flatMap reports)) n ∧
        rearranged (accepted (t.preorder.flatMap reports)) es = es := by
  obtain ⟨before, later, hwalk, hbefore, hlater⟩ :=
    ht.exists_descendants_eq (Node.mem_descendants.1 hn) (h.span_pos ht hjoints)
  obtain ⟨rest, hchain, hrest⟩ := h.exists_descendants_eq ht
  have hall : t.preorder = before ++ joints ++ (rest ++ later) := by
    rw [SyntaxTree.preorder, hwalk, hchain]
    simp
  rw [hall, List.flatMap_append, List.flatMap_append]
  refine advances_or_isMoved_of_apart ht hreports h hjoints (fun o ho f hf => ?_) fun o ho => ?_
  · obtain ⟨j, hj, ho⟩ := List.mem_flatMap.1 ho
    have hmem : j ∈ t.preorder := by simp [hall, hj]
    obtain ⟨-, a, a', hswaps, ha, ha'⟩ := hoperands j o ho
    rcases hswaps.exists_edit_iff.1 ⟨f, hf, rfl⟩ with hspan | hspan
    · rw [hspan]
      exact (around_or_apart ht hn hmem houter ha (hbefore j hj)).imp_right fun h => ⟨ht.le a, h⟩
    · rw [hspan]
      exact (around_or_apart ht hn hmem houter ha' (hbefore j hj)).imp_right fun h => ⟨ht.le a', h⟩
  · obtain ⟨j, hj, ho⟩ : ∃ j ∈ before ++ (rest ++ later), o ∈ reports j := by
      rw [← List.mem_flatMap, List.flatMap_append]
      exact List.mem_append.2 ho
    have hmem : j ∈ t.preorder := by
      simp only [hall, List.mem_append] at hj ⊢
      tauto
    have hnot : j ∉ joints := by
      intro hjoint
      rw [List.mem_append, List.mem_append] at hj
      rcases hj with hj | hj | hj
      · exact hbefore j hj (h.covers_joint j hjoint)
      · exact hrest j hj hjoint
      · exact hlater j hj (h.covers_joint j hjoint)
    obtain ⟨hkind, a, a', hswaps, ha, ha'⟩ := hoperands j o ho
    intro f hf e he
    rcases hswaps.exists_edit_iff.1 ⟨f, hf, rfl⟩ with hspan | hspan
    · exact hspan ▸ span_ne_of_other ht hn hmem houter h hnot hkind hjoints he ha
    · exact hspan ▸ span_ne_of_other ht hn hmem houter h hnot hkind hjoints he ha'

/-! ## the rule alone -/

section
variable {c : Config} {severity : Severity} {s : Suppressions}

/-- where no comment exempts anything from the rule, its answers are reported as they are -/
theorem contribution_eq (ht : t.WellFormed)
    (hseverity : c.severity? shortCircuitAnd.id shortCircuitAnd.severity = some severity)
    (hquiet : ∀ line, s.isSuppressed shortCircuitAnd.id line = false) (n : Node t) :
    c.contribution s shortCircuitAnd n = if n.kind = .conjunction then
      (shortCircuitAnd.offensesAt c.context n).map fun o => { o with severity := severity }
      else [] := by
  have hanswer : c.contribution s shortCircuitAnd n =
      if .conjunction = n.kind then c.answer s shortCircuitAnd severity n else [] := by
    unfold Config.contribution
    rw [hseverity]
    show (if (true && (!n.isCall || true)) then
      [Kind.conjunction].flatMap fun kind =>
        if kind = n.kind then c.answer s shortCircuitAnd severity n else [] else []) = _
    simp
  rw [hanswer]
  by_cases hkind : n.kind = .conjunction
  · obtain ⟨os, hos, hsound⟩ := shortCircuitAnd_soundIfAsked t ht c.context n
    have hoffenses : shortCircuitAnd.offensesAt c.context n = os := by rw [offensesAt, hos]
    have hkeep : os.filter (fun o => o.isInside n.span && !s.isSuppressed o.rule o.position.line) =
        os := by
      refine List.filter_eq_self.2 fun o ho => ?_
      have hrule : o.rule = shortCircuitAnd.id := by
        rw [← hoffenses] at ho
        rcases offensesAt_cases c.context ht hkind with hnone | ⟨o', _, _, hone, hrule, -⟩
        · rw [hnone] at ho
          exact absurd ho List.not_mem_nil
        · rw [hone] at ho
          rwa [List.mem_singleton.1 ho]
      have hinside := (hsound (by simp [triggers, shortCircuitAnd, performance, hkind]) rfl o ho).isInside
      rw [hinside, hrule, hquiet]
      rfl
    rw [if_pos hkind.symm, if_pos hkind, Config.answer, hos]
    simp only
    rw [hkeep, hoffenses]
  · rw [if_neg (Ne.symm hkind), if_neg hkind]

variable (ht : t.WellFormed)
  (hseverity : c.severity? shortCircuitAnd.id shortCircuitAnd.severity = some severity)
  (hquiet : ∀ line, s.isSuppressed shortCircuitAnd.id line = false)
include ht hseverity hquiet

theorem reportsExchanges_contribution :
    ReportsExchanges (t := t) (c.contribution s shortCircuitAnd) := by
  intro n joints es e h hes
  obtain ⟨-, -, -, hkind, -, -⟩ := h.concat_cases hes
  rw [contribution_eq ht hseverity hquiet, if_pos hkind]
  rcases reportsExchanges_offensesAt c.context ht h hes with
    ⟨dear, o, he, hwaits, hone, hswaps⟩ | ⟨hnone, hempty⟩
  · exact .inl ⟨dear, { o with severity := severity }, he, hwaits, by rw [hone]; rfl, hswaps⟩
  · exact .inr ⟨hnone, by rw [hempty]; rfl⟩

theorem reportsOperands_contribution :
    ReportsOperands (t := t) (c.contribution s shortCircuitAnd) := by
  intro j o ho
  rw [contribution_eq ht hseverity hquiet] at ho
  split at ho
  · next hkind =>
    refine ⟨hkind, ?_⟩
    rcases offensesAt_cases c.context ht hkind with
      hnone | ⟨o', e, e', hone, -, hswaps, he, he'⟩
    · rw [hnone] at ho
      exact absurd ho List.not_mem_nil
    · rw [hone] at ho
      obtain rfl := List.mem_singleton.1 ho
      exact ⟨e, e', hswaps, he, he'⟩
  · exact absurd ho List.not_mem_nil

omit ht hseverity hquiet in
/-- an inspection by the rule alone reports what it contributes at each node -/
theorem inspect_shortCircuitAnd (c : Config) (t : SyntaxTree) :
    ((Runner.ofRules [shortCircuitAnd] c).inspect t false).offenses? = some (t.preorder.flatMap
      (c.contribution (Suppressions.ofText t.source.toList) shortCircuitAnd)) := by
  have hrun : ((Runner.ofRules [shortCircuitAnd] c).inspect t false).cancelled = false := by
    refine Runner.cancelled_inspect_iff.2 fun n _ a ha _ _ => ?_
    obtain ⟨r, hr, hactive⟩ := List.mem_filterMap.1 ha
    obtain rfl := List.mem_singleton.1 hr
    unfold Config.activate? at hactive
    split at hactive
    · split at hactive
      · cases hactive
        rfl
      · cases hactive
    · cases hactive
  rw [Runner.inspect_eq hrun, Config.plainLoop, List.map_flatMap, SyntaxTree.preorder,
    Node.descendants_eq_subtree]
  congr 2
  funext n
  rw [forget_contributed]
  simp

end

end Rule

end

namespace Rule

/-! ## passes -/

/-- A chain as a whole: not the first operand of another conjunction, and in a text in which no comment
exempts anything from the rule. -/
structure WholeChain where
  tree : SyntaxTree
  wellFormed : tree.WellFormed
  quiet : ∀ line,
    (Suppressions.ofText tree.source.toList).isSuppressed shortCircuitAnd.id line = false
  top : Node tree
  mem_preorder : top ∈ tree.preorder
  kind : top.kind = .conjunction
  outermost : Outermost top
  joints : List (Node tree)
  operands : List (Node tree)
  chain : Chain top joints operands

namespace WholeChain

section
variable (c : Config) (w : WholeChain)

/-- what the rule alone reports about the text -/
def offenses? : Option (List Offense) :=
  ((Runner.ofRules [shortCircuitAnd] c).inspect w.tree false).offenses?

/-- of that, what a pass takes -/
def taken : List Offense := Merge.accepted ((w.offenses? c).getD [])

def next : List (Node w.tree) := rearranged (w.taken c) w.operands

/-- the pass moves the chain as a whole, with its operands as they are -/
def IsMovedWhole : Prop := IsMoved (w.taken c) w.top ∧ w.next c = w.operands

/-- the pass has nothing to sort: the variables come first, or it moves the chain as a whole -/
def Rests : Prop := CheapFirst Node.isVariable w.operands ∨ w.IsMovedWhole c

/-- which of the operands are variables -/
def arrangement : List Bool := w.operands.map Node.isVariable

/-- the variables of the other chain stand where the pass has put those of this one -/
def Becomes (w' : WholeChain) : Prop := w'.arrangement = (w.next c).map Node.isVariable

end

theorem joints_ne_nil (w : WholeChain) : w.joints ≠ [] := by
  intro hnil
  have hmem := w.chain.mem_joints (.self w.top) w.kind
  rw [hnil] at hmem
  exact absurd hmem List.not_mem_nil

theorem advances_or_isMoved (w : WholeChain) {c : Config} {severity : Severity}
    (hseverity : c.severity? shortCircuitAnd.id shortCircuitAnd.severity = some severity) :
    Advances (w.taken c) w.operands ∨ w.IsMovedWhole c := by
  have htaken : w.taken c = Merge.accepted (w.tree.preorder.flatMap
      (c.contribution (Suppressions.ofText w.tree.source.toList) shortCircuitAnd)) := by
    rw [taken, offenses?, inspect_shortCircuitAnd, Option.getD_some]
  rw [IsMovedWhole, next, htaken]
  exact Rule.advances_or_isMoved w.wellFormed
    (reportsExchanges_contribution w.wellFormed hseverity w.quiet)
    (reportsOperands_contribution w.wellFormed hseverity w.quiet) w.mem_preorder w.outermost w.chain
    w.joints_ne_nil

theorem misplaced_arrangement {w : WholeChain} :
    misplaced (fun b => b) w.arrangement = misplaced Node.isVariable w.operands :=
  misplaced_map _ _

theorem cheapFirst_arrangement {w : WholeChain} :
    CheapFirst (fun b => b) w.arrangement ↔ CheapFirst Node.isVariable w.operands :=
  cheapFirst_map _ _

theorem Becomes.step {w w' : WholeChain} {c : Config} (h : w.Becomes c w') {severity : Severity}
    (hseverity : c.severity? shortCircuitAnd.id shortCircuitAnd.severity = some severity) :
    (¬ w.Rests c → misplaced (fun b => b) w'.arrangement < misplaced (fun b => b) w.arrangement) ∧
    (w.Rests c → w'.arrangement = w.arrangement) := by
  rw [h]
  refine ⟨fun hnot => ?_, fun hrests => ?_⟩
  · rw [Rests, not_or] at hnot
    rw [arrangement, misplaced_map, misplaced_map]
    exact ((w.advances_or_isMoved hseverity).resolve_right hnot.2).2.1 hnot.1
  · have hsame : w.next c = w.operands := by
      rcases w.advances_or_isMoved hseverity with hadvances | hmoved
      · exact hrests.elim hadvances.2.2 And.right
      · exact hmoved.2
    rw [hsame]
    rfl

theorem cheapFirst_add {run : Nat → WholeChain} {c : Config}
    (hrest : ∀ i, (run i).Rests c → (run (i + 1)).arrangement = (run i).arrangement) {k : Nat}
    (hk : CheapFirst Node.isVariable (run k).operands) (d : Nat) :
    CheapFirst Node.isVariable (run (k + d)).operands := by
  induction d with
  | zero => exact hk
  | succ d ih =>
    rw [← cheapFirst_arrangement, ← Nat.add_assoc, hrest (k + d) (.inl ih)]
    exact cheapFirst_arrangement.2 ih

end WholeChain

/-- **Chains of conjunctions get sorted.**  Something is reported at a joint of a chain unless the
variables come first.  What is reported exchanges an operand that is no variable and a later variable
with only variables between them, and what is taken of it leaves fewer pairs of such operands.  In a
pass over a whole text, this goes for each chain that is not moved as a whole.  Where each text has the
operands as they have been exchanged in the one before, passes that change the chain come to an end with
the variables first, and no arrangement that has been changed comes back. -/
theorem shortCircuitAnd_sorts (c : Config)
    (hactive : (c.severity? shortCircuitAnd.id shortCircuitAnd.severity).isSome = true) :
    (∀ (t : SyntaxTree), t.WellFormed → ∀ (n : Node t) (joints operands : List (Node t)),
      n.kind = .conjunction → Chain n joints operands →
      ((∃ m ∈ joints, shortCircuitAnd.offensesAt c.context m ≠ []) ↔
        ¬ CheapFirst Node.isVariable operands) ∧
      (∀ m ∈ joints, ∀ o ∈ shortCircuitAnd.offensesAt c.context m,
        ∃ (front between back : List (Node t)) (dear e : Node t),
        operands = front ++ dear :: (between ++ e :: back) ∧ dear.isVariable = false ∧
        e.isVariable = true ∧ (∀ b ∈ between, b.isVariable = true) ∧ o.Swaps dear e) ∧
      Advances (Merge.accepted (joints.flatMap (shortCircuitAnd.offensesAt c.context))) operands) ∧
    (∀ w : WholeChain, (w.offenses? c).isSome = true ∧
      (Advances (w.taken c) w.operands ∨ w.IsMovedWhole c)) ∧
    ∀ run : Nat → WholeChain, (∀ i, (run i).Becomes c (run (i + 1))) →
      (∃ last, ∀ i, last ≤ i → (run i).Rests c) ∧
      ((∀ i, ¬ (run i).IsMovedWhole c) →
        ∀ i, misplaced Node.isVariable (run 0).operands ≤ i →
          CheapFirst Node.isVariable (run i).operands) ∧
      ∀ i j k, (run i).arrangement = (run j).arrangement → i ≤ k → k < j →
        (run k).Rests c := by
  obtain ⟨severity, hseverity⟩ := Option.isSome_iff_exists.1 hactive
  refine ⟨fun t ht n joints operands hkind h => ?_, fun w => ?_, fun run hrun => ?_⟩
  · have hreports : ReportsExchanges (t := t) (shortCircuitAnd.offensesAt c.context) :=
      reportsExchanges_offensesAt c.context ht
    have hjoints : joints ≠ [] := List.ne_nil_of_mem (h.mem_joints (.self n) hkind)
    exact ⟨reported_iff hreports h, fun m hm o ho => reported_swaps hreports h hm ho,
      advances_joints ht hreports h hjoints⟩
  · refine ⟨?_, w.advances_or_isMoved hseverity⟩
    rw [WholeChain.offenses?, inspect_shortCircuitAnd]
    rfl
  · let arrangements : Nat → List Bool := fun i => (run i).arrangement
    let rests : Nat → Prop := fun i => (run i).Rests c
    have hdown := fun i => ((hrun i).step hseverity).1
    have hrest := fun i => ((hrun i).step hseverity).2
    refine ⟨@exists_rests _ _ arrangements rests hdown hrest, fun hmoved i hi => ?_,
      fun i j k heq hik hkj => @rests_of_eq _ _ arrangements rests hdown hrest i j k heq hik hkj⟩
    rw [← WholeChain.misplaced_arrangement] at hi
    obtain ⟨k, hki, hk⟩ := @exists_rests_le _ _ arrangements rests hdown i hi
    rw [← Nat.add_sub_cancel' hki]
    exact WholeChain.cheapFirst_add hrest (hk.resolve_right (hmoved k)) (i - k)

def questionFirst : SyntaxTree :=
  SyntaxTree.ofNode "foo? && @a" .conjunction ⟨0, 10⟩ Loc.none [
    .node .send ⟨0, 4⟩ ⟨some ⟨0, 4⟩, none, none, none, none⟩ [.value .nil, .value (.sym "foo?")],
    .node .instanceVar ⟨8, 10⟩ Loc.none [.value (.sym "@a")]]

def variableFirst : SyntaxTree :=
  SyntaxTree.ofNode "@a && foo?" .conjunction ⟨0, 10⟩ Loc.none [
    .node .instanceVar ⟨0, 2⟩ Loc.none [.value (.sym "@a")],
    .node .send ⟨6, 10⟩ ⟨some ⟨6, 10⟩, none, none, none, none⟩ [.value .nil, .value (.sym "foo?")]]

structure IsPair (t : SyntaxTree) (first second : Node t) : Prop where
  wellFormed : t.WellFormed
  quiet : Suppressions.ofText t.source.toList = ⟨[]⟩
  kind : t.rootNode.kind = .conjunction
  outermost : Outermost t.rootNode
  operands : operands? t.rootNode = some (first, second)
  first : first.kind ≠ .conjunction

def WholeChain.ofPair {t : SyntaxTree} {first second : Node t} (h : IsPair t first second) :
    WholeChain where
  tree := t
  wellFormed := h.wellFormed
  quiet := fun _ => by
    rw [h.quiet]
    rfl
  top := t.rootNode
  mem_preorder := Node.mem_descendants.2 (.self _)
  kind := h.kind
  outermost := h.outermost
  joints := [t.rootNode]
  operands := [first] ++ [second]
  chain := .joint h.kind h.operands (.single h.first)

theorem questionFirst_isPair :
    IsPair questionFirst ⟨0, by decide +kernel⟩ ⟨1, by decide +kernel⟩ := by
  refine ⟨by decide +kernel, by decide +kernel, by decide +kernel, ?_, by decide +kernel,
    by decide +kernel⟩
  unfold Outermost
  decide +kernel

theorem variableFirst_isPair :
    IsPair variableFirst ⟨0, by decide +kernel⟩ ⟨1, by decide +kernel⟩ := by
  refine ⟨by decide +kernel, by decide +kernel, by decide +kernel, ?_, by decide +kernel,
    by decide +kernel⟩
  unfold Outermost
  decide +kernel

def questionFirstRun : Nat → WholeChain
  | 0 => .ofPair questionFirst_isPair
  | _ + 1 => .ofPair variableFirst_isPair

theorem questionFirstRun_sorts :
    (∃ m ∈ (questionFirstRun 0).joints,
      shortCircuitAnd.offensesAt Config.standard.context m ≠ []) ∧
    ((questionFirstRun 0).offenses? Config.standard).isSome = true ∧
    (∀ i, 1 ≤ i → CheapFirst Node.isVariable (questionFirstRun i).operands) := by
  obtain ⟨hchain, hpass, hrun⟩ := shortCircuitAnd_sorts Config.standard (by decide +kernel)
  have hstep : ∀ i, (questionFirstRun i).Becomes Config.standard (questionFirstRun (i + 1)) := by
    have hfirst : (questionFirstRun 0).Becomes Config.standard (questionFirstRun 1) := by
      unfold WholeChain.Becomes
      decide +kernel
    have hrest : (questionFirstRun 1).Becomes Config.standard (questionFirstRun 2) := by
      unfold WholeChain.Becomes
      decide +kernel
    exact fun | 0 => hfirst | _ + 1 => hrest
  have hmoved : ∀ i, ¬ (questionFirstRun i).IsMovedWhole Config.standard := by
    have hfirst : ¬ (questionFirstRun 0).IsMovedWhole Config.standard := by
      unfold WholeChain.IsMovedWhole IsMoved
      decide +kernel
    have hrest : ¬ (questionFirstRun 1).IsMovedWhole Config.standard := by
      unfold WholeChain.IsMovedWhole IsMoved
      decide +kernel
    exact fun | 0 => hfirst | _ + 1 => hrest
  have hpairs : misplaced Node.isVariable (questionFirstRun 0).operands = 1 := by decide +kernel
  refine ⟨?_, (hpass (questionFirstRun 0)).1, ?_⟩
  · have h := hchain _ (questionFirstRun 0).wellFormed _ _ _ (questionFirstRun 0).kind
      (questionFirstRun 0).chain
    exact h.1.2 (by decide +kernel)
  · exact hpairs ▸ (hrun questionFirstRun hstep).2.1 hmoved

end Rule

end RubyLint
