import RubyLint.Proofs.Rule.Operands
import RubyLint.Proofs.Run.Greedy

/-!
# Exchanges in a chain of conjunctions

`shortCircuitAnd` reports at several joints of a chain at once, and some of these exchanges have an
operand in common.  A pass takes the one at the outermost joint, and then one further to the left.

* `Offense.Swaps`        a correction that exchanges the texts of two operands;
* `ReportsExchanges`     what is reported at the joints of a chain;
* `accepted_between`     once an operand has been exchanged, the joints up to it are passed over;
* `accepted_chain`       so of what is reported about a chain, a pass takes the exchanges of `Settles`.
-/

namespace RubyLint

/-! ## exchanged texts -/

section
variable {t : SyntaxTree} {e e' : Node t} {o : Offense}

/-- the correction of the offense exchanges the texts of the two nodes -/
def Offense.Swaps (o : Offense) (e e' : Node t) : Prop :=
  o.correction.isSome = true ∧
    (o.correction = Correction.empty.swap e e' ∨ o.correction = Correction.empty.swap e' e)

instance (o : Offense) (e e' : Node t) : Decidable (o.Swaps e e') :=
  inferInstanceAs (Decidable (_ ∧ _))

theorem Correction.spans_of_swap {c : Correction} (h : empty.swap e e' = some c) :
    c.edits.map Edit.span = [e.span, e'.span] := by
  obtain ⟨second, -, h⟩ := Option.bind_eq_some_iff.1 h
  obtain ⟨first, -, h⟩ := Option.bind_eq_some_iff.1 h
  cases h
  rfl

namespace Offense.Swaps

theorem exists_correction (h : o.Swaps e e') : ∃ c, o.correction = some c ∧
    (c.edits.map Edit.span = [e.span, e'.span] ∨ c.edits.map Edit.span = [e'.span, e.span]) := by
  obtain ⟨c, hc⟩ := Option.isSome_iff_exists.1 h.1
  rcases h.2 with heq | heq
  · exact ⟨c, hc, .inl (Correction.spans_of_swap (heq.symm.trans hc))⟩
  · exact ⟨c, hc, .inr (Correction.spans_of_swap (heq.symm.trans hc))⟩

theorem symm (h : o.Swaps e e') : o.Swaps e' e := ⟨h.1, h.2.symm⟩

theorem exists_edit_iff (h : o.Swaps e e') {s : Span} :
    (∃ f ∈ o.edits, f.span = s) ↔ s = e.span ∨ s = e'.span := by
  obtain ⟨c, hc, hspans⟩ := h.exists_correction
  rw [o.edits_eq hc, ← List.mem_map]
  rcases hspans with hspans | hspans
  · simp [hspans]
  · simp [hspans, or_comm]

theorem compatible (h : o.Swaps e e') (he : e.span.start ≤ e.span.stop)
    (he' : e'.span.start ≤ e'.span.stop) (hbeside : e.span.Beside e'.span) :
    ∃ c, o.correction = some c ∧ Edit.Compatible c.edits := by
  obtain ⟨c, hc, hspans⟩ := h.exists_correction
  have hpairwise : (c.edits.map Edit.span).Pairwise Span.Beside := by
    rcases hspans with hspans | hspans
    · rw [hspans]
      exact List.pairwise_pair.2 hbeside
    · rw [hspans]
      exact List.pairwise_pair.2 ⟨hbeside.apart.symm, hbeside.pos.symm⟩
  have hle : ∀ f ∈ c.edits, f.span.start ≤ f.span.stop := by
    intro f hf
    rcases h.exists_edit_iff.1 ⟨f, o.edits_eq hc ▸ hf, rfl⟩ with hspan | hspan
    · exact hspan ▸ he
    · exact hspan ▸ he'
  exact ⟨c, hc, (List.pairwise_map.1 hpairwise).imp_of_mem fun hf hg hfg =>
    Edit.not_conflicts (hle _ hf) (hle _ hg) hfg⟩

end Offense.Swaps

end

namespace Rule

section
variable {t : SyntaxTree} {n : Node t} {context : RuleContext}

/-- the offenses in the answer of a rule about a node; none if it fails -/
def offensesAt (r : Rule) (context : RuleContext) (n : Node t) : List Offense :=
  match (r.evaluate context n).offenses with
  | .ok os => os
  | .error _ => []

/-- An exchange is reported, and its correction exchanges the operands. -/
theorem offensesAt_of_exchanging (ht : t.WellFormed) {e e' : Node t}
    (h : conjunctionVerdict n = exchanging n e e') :
    ∃ o, shortCircuitAnd.offensesAt context n = [o] ∧ o.rule = shortCircuitAnd.id ∧ o.Swaps e e' := by
  obtain ⟨text, htext⟩ := ht.exists_source e
  obtain ⟨text', htext'⟩ := ht.exists_source e'
  have hswap : Correction.empty.swap e e' =
      some ((Correction.empty.replace e.span text').replace e'.span text) := by
    rw [Correction.swap, htext, htext']
    rfl
  have hanswer : shortCircuitAnd.offensesAt context n =
      [((Finding.plain n.span conjunctionMessage).withCorrection
        ((Correction.empty.replace e.span text').replace e'.span text)).toOffense
          shortCircuitAnd.id .warning t.source.toList] := by
    show (match (Evaluation.ofVerdict _ (conjunctionVerdict n)).offenses with
      | .ok os => os
      | .error _ => []) = _
    rw [h, exchanging, hswap]
    rfl
  exact ⟨_, hanswer, rfl, rfl, .inl hswap.symm⟩

theorem offensesAt_of_none (h : conjunctionVerdict n = .ok none) :
    shortCircuitAnd.offensesAt context n = [] := by
  show (match (Evaluation.ofVerdict _ (conjunctionVerdict n)).offenses with
    | .ok os => os
    | .error _ => []) = _
  rw [h]
  rfl

/-- At a conjunction there is nothing to report, or two operands that change places. -/
theorem offensesAt_cases (context : RuleContext) (ht : t.WellFormed) (hkind : n.kind = .conjunction) :
    shortCircuitAnd.offensesAt context n = [] ∨
    ∃ o e e', shortCircuitAnd.offensesAt context n = [o] ∧ o.rule = shortCircuitAnd.id ∧
      o.Swaps e e' ∧ HasOperand n e ∧ HasOperand n e' := by
  rcases verdict_hasOperand hkind with h | ⟨e, e', h, he, he'⟩
  · exact .inl (offensesAt_of_none h)
  · obtain ⟨o, hanswer, hrule, hswaps⟩ := offensesAt_of_exchanging ht h
    exact .inr ⟨o, e, e', hanswer, hrule, hswaps, he, he'⟩

/-- the last operand of each joint changes places with the one that waits for it -/
def ReportsExchanges (reports : Node t → List Offense) : Prop :=
  ∀ {n : Node t} {joints es : List (Node t)} {e : Node t}, Chain n joints (es ++ [e]) → es ≠ [] →
    (∃ dear o, e.isVariable = true ∧ Waits Node.isVariable es dear ∧ reports n = [o] ∧
      o.Swaps dear e) ∨
    (e.isVariable = true → ∀ dear, ¬ Waits Node.isVariable es dear) ∧ reports n = []

theorem reportsExchanges_offensesAt (context : RuleContext) (ht : t.WellFormed) :
    ReportsExchanges (t := t) (shortCircuitAnd.offensesAt context) := by
  intro n joints es e h hes
  rcases h.verdict_cases hes with ⟨dear, he, hwaits, hverdict⟩ | ⟨hnone, hverdict⟩
  · have hswaps : ∃ o, shortCircuitAnd.offensesAt context n = [o] ∧ o.Swaps dear e := by
      rcases hverdict with h | h
      · obtain ⟨o, hanswer, -, hswaps⟩ := offensesAt_of_exchanging ht h
        exact ⟨o, hanswer, hswaps⟩
      · obtain ⟨o, hanswer, -, hswaps⟩ := offensesAt_of_exchanging ht h
        exact ⟨o, hanswer, hswaps.symm⟩
    obtain ⟨o, hanswer, hswaps⟩ := hswaps
    exact .inl ⟨dear, o, he, hwaits, hanswer, hswaps⟩
  · exact .inr ⟨hnone, offensesAt_of_none hverdict⟩

end

end Rule

/-! ## what a pass takes -/

section
variable {t : SyntaxTree} {n : Node t} {joints es after : List (Node t)}
  {pairs : List (Node t × Node t)} {reports : Node t → List Offense}

open Rule Merge

theorem Edit.conflicts_of_contains {e f : Edit} (hpos : e.span.start < e.span.stop)
    (h : f.span.contains e.span = true) : f.conflicts e = true := by
  have hle := Span.contains_iff.1 h
  have he : e.isInsertion = false := by simp [isInsertion, Span.isEmpty]; omega
  have hf : f.isInsertion = false := by simp [isInsertion, Span.isEmpty]; omega
  rw [isInsertion] at he hf
  simp only [conflicts, isInsertion, he, hf, Span.overlaps]
  simp
  omega

structure Realizes (taken : List Offense) (pairs : List (Node t × Node t)) : Prop where
  pair : ∀ o ∈ taken, ∃ x ∈ pairs, o.Swaps x.1 x.2
  offense : ∀ x ∈ pairs, ∃ o ∈ taken, o.Swaps x.1 x.2

theorem Realizes.nil : Realizes [] ([] : List (Node t × Node t)) := ⟨nofun, nofun⟩

theorem Realizes.cons {o : Offense} {e e' : Node t} {taken : List Offense} (ho : o.Swaps e e')
    (h : Realizes taken pairs) : Realizes (o :: taken) ((e, e') :: pairs) := by
  constructor
  · exact List.forall_mem_cons.2 ⟨⟨(e, e'), List.mem_cons_self, ho⟩, fun o' ho' =>
      (h.pair o' ho').imp fun _ hx => ⟨List.mem_cons_of_mem _ hx.1, hx.2⟩⟩
  · exact List.forall_mem_cons.2 ⟨⟨o, List.mem_cons_self, ho⟩, fun x hx =>
      (h.offense x hx).imp fun _ ho' => ⟨List.mem_cons_of_mem _ ho'.1, ho'.2⟩⟩

def Untouched (taken : List Offense) (es : List (Node t)) : Prop :=
  ∀ a ∈ taken, ∀ f ∈ a.edits, f.span.start ≤ f.span.stop ∧ ∀ e ∈ es, f.span.Apart e.span

theorem Untouched.mono {taken : List Offense} {es' : List (Node t)} (h : Untouched taken es)
    (hsub : es' ⊆ es) : Untouched taken es' := fun a ha f hf =>
  ⟨(h a ha f hf).1, fun e he => (h a ha f hf).2 e (hsub he)⟩

/-! ## reports at a joint -/

namespace Rule.ReportsExchanges

variable {e dear : Node t} {front : List (Node t)}

theorem eq_nil_of_dear (hreports : ReportsExchanges reports) (h : Chain n joints (es ++ [e]))
    (hes : es ≠ []) (he : e.isVariable = false) : reports n = [] := by
  rcases hreports h hes with ⟨_, _, hvar, -⟩ | ⟨-, hnone⟩
  · rw [he] at hvar
    cases hvar
  · exact hnone

theorem swaps_of_mem (hreports : ReportsExchanges reports) (h : Chain n joints (es ++ [e]))
    (hes : es ≠ []) (hlast : LastDear Node.isVariable es front dear) {o : Offense}
    (ho : o ∈ reports n) : o.Swaps dear e := by
  rcases hreports h hes with ⟨dear', o', -, ⟨_, hlast', -⟩, hone, hswaps⟩ | ⟨-, hnone⟩
  · obtain rfl := hlast.unique hlast'
    rw [hone] at ho
    rwa [List.mem_singleton.1 ho]
  · rw [hnone] at ho
    exact absurd ho List.not_mem_nil

theorem exists_eq_singleton (hreports : ReportsExchanges reports) (h : Chain n joints (es ++ [e]))
    (hes : es ≠ []) (he : e.isVariable = true) (hwaits : Waits Node.isVariable es dear) :
    ∃ o, reports n = [o] := by
  rcases hreports h hes with ⟨-, o, -, -, hone, -⟩ | ⟨hnone, -⟩
  · exact ⟨o, hone⟩
  · exact absurd hwaits (hnone he dear)

end Rule.ReportsExchanges

/-! ## a chain in a pass -/

/-- An exchange of two operands is taken if nothing of them has been changed. -/
theorem Merge.accepted_concat_swaps (ht : t.WellFormed) (h : Chain n joints es) (hjoints : joints ≠ [])
    {e e' : Node t} (he : e ∈ es) (he' : e' ∈ es) (hne : e ≠ e') {o : Offense} (ho : o.Swaps e e')
    {before : List Offense} (hfree : Untouched (accepted before) es) :
    accepted (before ++ [o]) = accepted before ++ [o] := by
  have hpos := h.pos ht hjoints
  obtain ⟨c, hc, hown⟩ := ho.compatible (ht.le e) (ht.le e')
    ⟨(h.pairwise_apart ht).forall he he' hne, .inl (hpos e he)⟩
  refine accepted_concat_of_free hc hown fun a ha f hf g hg => ?_
  obtain ⟨hle, haway⟩ := hfree a ha f hf
  rcases ho.exists_edit_iff.1 ⟨g, o.edits_eq hc ▸ hg, rfl⟩ with hspan | hspan
  · exact Edit.not_conflicts hle (hspan ▸ ht.le e) (hspan ▸ ⟨haway e he, .inr (hpos e he)⟩)
  · exact Edit.not_conflicts hle (hspan ▸ ht.le e') (hspan ▸ ⟨haway e' he', .inr (hpos e' he')⟩)

/-- An exchange changes nothing of the operands that stand apart from both. -/
theorem Untouched.concat_swaps (ht : t.WellFormed) {taken : List Offense} {e e' : Node t} {o : Offense}
    (h : Untouched taken es) (ho : o.Swaps e e') (he : ∀ x ∈ es, e.span.Apart x.span)
    (he' : ∀ x ∈ es, e'.span.Apart x.span) : Untouched (taken ++ [o]) es := by
  intro a ha f hf
  rcases List.mem_append.1 ha with ha | ha
  · exact h a ha f hf
  · obtain rfl := List.mem_singleton.1 ha
    rcases ho.exists_edit_iff.1 ⟨f, hf, rfl⟩ with hspan | hspan
    · exact hspan ▸ ⟨ht.le e, he⟩
    · exact hspan ▸ ⟨ht.le e', he'⟩

/-- Once an operand has been exchanged, nothing happens at the joints of the variables behind it. -/
theorem Merge.accepted_between (hreports : ReportsExchanges reports) {front between : List (Node t)}
    {dear : Node t} (h : Chain n joints (front ++ dear :: between)) (hdear : dear.isVariable = false)
    (hbetween : ∀ e ∈ between, e.isVariable = true) {before : List Offense} {a : Offense} {f : Edit}
    (ha : a ∈ accepted before) (hf : f ∈ a.edits) (hle : f.span.start ≤ f.span.stop)
    (hspan : f.span = dear.span) : ∃ before' m inner, Chain m inner (front ++ [dear]) ∧
      before ++ joints.flatMap reports = before' ++ inner.flatMap reports ∧
      accepted before' = accepted before := by
  obtain ⟨outer, inner, rfl, ⟨m, hinner⟩, houter⟩ := h.split
  refine ⟨before ++ outer.flatMap reports, m, inner, hinner, by simp, ?_⟩
  refine accepted_append_of_blocked fun o ho => ?_
  obtain ⟨k, hk, ho⟩ := List.mem_flatMap.1 ho
  obtain ⟨js, bs, b, hchain, hbs⟩ := houter k hk
  have hlast : LastDear Node.isVariable (front ++ dear :: bs) front dear :=
    ⟨hdear, bs, rfl, fun e he => hbetween e (hbs e (List.mem_append_left _ he))⟩
  have hswaps := hreports.swaps_of_mem hchain (by simp) hlast ho
  obtain ⟨e, he, hespan⟩ := hswaps.exists_edit_iff.2 (.inl rfl)
  exact ⟨e, he, a, ha, f, hf, Edit.conflicts_of_span_eq (hspan.trans hespan.symm) hle⟩

/-- **Of what is reported about a chain, a pass takes the exchanges of `Settles`**, if nothing of the
operands has been changed before. -/
theorem Merge.accepted_chain (ht : t.WellFormed) (hreports : ReportsExchanges reports)
    (hs : Settles Node.isVariable es pairs after) (h : Chain n joints es) (before : List Offense)
    (hfree : Untouched (accepted before) es) :
    ∃ taken, accepted (before ++ joints.flatMap reports) = accepted before ++ taken ∧
      Realizes taken pairs := by
  induction hs generalizing n joints before with
  | nil => exact absurd rfl h.ne_nil
  | @keep es after pairs e hkeep hs ih =>
    by_cases hes : es = []
    · subst hes
      obtain rfl := Chain.joints_eq_nil h
      obtain rfl : pairs = [] := hs.pairs_eq_nil_iff.2 List.Pairwise.nil
      exact ⟨[], by simp, .nil⟩
    obtain ⟨left, inner, rfl, -, -, hinner⟩ := h.concat_cases hes
    have hquiet : reports n = [] := by
      rcases hreports h hes with ⟨dear, o, he, hwaits, -, -⟩ | ⟨-, hnone⟩
      · exact absurd hwaits (hkeep he dear)
      · exact hnone
    rw [List.flatMap_cons, hquiet, List.nil_append]
    exact ih hinner before (hfree.mono (List.subset_append_left _ _))
  | @exchange front between after pairs dear e he hdear hbetween hfirst hs ih =>
    have hapart := h.pairwise_apart ht
    have hlist : front ++ dear :: (between ++ [e]) = (front ++ dear :: between) ++ [e] := by simp
    have hchain : Chain n joints ((front ++ dear :: between) ++ [e]) := hlist ▸ h
    have hes : front ++ dear :: between ≠ [] := by simp
    have hlast : LastDear Node.isVariable (front ++ dear :: between) front dear :=
      ⟨hdear, between, rfl, hbetween⟩
    have hwaits : Waits Node.isVariable (front ++ dear :: between) dear :=
      ⟨front, hlast, fun hnil => by rw [hnil, hfirst hnil]; rfl⟩
    obtain ⟨o, hone⟩ := hreports.exists_eq_singleton hchain hes he hwaits
    have hswaps := hreports.swaps_of_mem hchain hes hlast (hone ▸ List.mem_singleton_self o)
    obtain ⟨left, inner, rfl, -, -, hinner⟩ := hchain.concat_cases hes
    -- the exchange at the outermost joint is taken, and those up to `dear` are passed over
    have hne : dear ≠ e := fun heq => by simp [heq, he] at hdear
    have htaken := accepted_concat_swaps ht h (List.cons_ne_nil _ _) (by simp) (by simp) hne hswaps
      hfree
    obtain ⟨f, hf, hspan⟩ := hswaps.exists_edit_iff.2 (.inl rfl)
    obtain ⟨before', m, inner', hinner', heq, hbefore'⟩ := accepted_between hreports hinner hdear
      hbetween (htaken ▸ List.mem_append_right _ List.mem_cons_self) hf (hspan ▸ ht.le dear) hspan
    rw [List.flatMap_cons, hone, ← List.append_assoc, heq]
    rw [htaken] at hbefore'
    by_cases hfront : front = []
    · subst hfront
      obtain rfl := Chain.joints_eq_nil hinner'
      obtain rfl : _ = [] := hs.pairs_eq_nil_iff.2 List.Pairwise.nil
      exact ⟨[o], by simp [hbefore'], .cons hswaps .nil⟩
    · obtain ⟨left', inner'', rfl, -, -, hinner''⟩ := hinner'.concat_cases hfront
      rw [List.flatMap_cons, hreports.eq_nil_of_dear hinner' hfront hdear, List.nil_append]
      have haway := (List.pairwise_append.1 hapart).2.2
      have hfree' : Untouched (accepted before') front := by
        rw [hbefore']
        exact (hfree.mono (List.subset_append_left _ _)).concat_swaps ht hswaps
          (fun x hx => (haway x hx dear List.mem_cons_self).symm)
          fun x hx => (haway x hx e (by simp)).symm
      obtain ⟨taken, haccepted, hforall⟩ := ih hinner'' before' hfree'
      refine ⟨o :: taken, ?_, .cons hswaps hforall⟩
      rw [haccepted, hbefore']
      simp

end

end RubyLint
