import RubyLint.Proofs.Edit.Splice
import RubyLint.Proofs.Syntax.Placement
import RubyLint.Run.Inspection

/-!
# Sound findings

A finding at a node is sound if everything in it cuts the text and stands inside the node, and if the
edits of its correction can be made together.

* `Span.Beside`            two spans of which one ends before the other starts, and which are not
                           both empty: edits of such spans are not in conflict;
* `Finding.SoundAt`        closed under the ways in which the rules make their findings;
* `Verdict.Answers`        a rule has an answer, and what it has found has a property;
* `Rule.Sound`             a rule has an answer about every node of a well-formed tree, and it is sound;
* `Rule.SoundIfAsked`      the answer is sound about the nodes that the rule is asked about.
-/

namespace RubyLint

/-! ## edits side by side -/

/-- one of the spans ends before the other starts, and there is text in one of them -/
structure Span.Beside (s s' : Span) : Prop where
  apart : s.Apart s'
  pos : s.start < s.stop ∨ s'.start < s'.stop

theorem Edit.not_conflicts {e f : Edit} (he : e.span.start ≤ e.span.stop)
    (hf : f.span.start ≤ f.span.stop) (h : e.span.Beside f.span) : e.conflicts f = false := by
  have hapart : e.span.stop ≤ f.span.start ∨ f.span.stop ≤ e.span.start := h.apart
  have hpos := h.pos
  rw [Bool.eq_false_iff]
  intro hconflict
  unfold conflicts at hconflict
  split at hconflict
  · next hei hfi =>
    -- both are insertions, and so there is no text in either
    simp only [isInsertion, Span.isEmpty, beq_iff_eq] at hei hfi
    omega
  · simp only [strictlyInside, Bool.and_eq_true, decide_eq_true_eq] at hconflict
    omega
  · simp only [strictlyInside, Bool.and_eq_true, decide_eq_true_eq] at hconflict
    omega
  · next hei hfi =>
    rw [isInsertion] at hei
    simp only [Span.overlaps, hei, Bool.false_and, Bool.false_eq_true, if_false, Bool.and_eq_true,
      decide_eq_true_eq] at hconflict
    omega

/-! ## corrections and findings -/

section
variable {t : SyntaxTree} {n : Node t} {s place : Span}

/-- the edits can be made together, and each cuts the text and stands inside the node -/
structure Correction.SoundAt (c : Correction) (n : Node t) : Prop where
  compatible : Edit.Compatible c.edits
  encloses : ∀ e ∈ c.edits, n.Encloses e.span

namespace Correction.SoundAt

theorem empty : Correction.empty.SoundAt n :=
  ⟨List.Pairwise.nil, fun _ he => absurd he List.not_mem_nil⟩

theorem replace {c : Correction} (h : c.SoundAt n) (hs : n.Encloses s)
    (hbeside : ∀ e ∈ c.edits, e.span.Beside s) (text : String) :
    (c.replace s text).SoundAt n := by
  refine ⟨List.pairwise_append.2 ⟨h.compatible, List.pairwise_singleton _ _, ?_⟩, ?_⟩
  · intro e he f hf
    obtain rfl := List.mem_singleton.1 hf
    exact Edit.not_conflicts (h.encloses e he).cuts.le hs.cuts.le (hbeside e he)
  · intro e he
    rcases List.mem_append.1 he with he | he
    · exact h.encloses e he
    · obtain rfl := List.mem_singleton.1 he
      exact hs

theorem one (hs : n.Encloses s) (text : String) : (Correction.empty.replace s text).SoundAt n :=
  empty.replace hs (fun _ he => absurd he List.not_mem_nil) text

theorem two (hs : n.Encloses s) (hplace : n.Encloses place) (hbeside : s.Beside place)
    (text text' : String) :
    ((Correction.empty.replace s text).replace place text').SoundAt n := by
  refine (one hs text).replace hplace (fun e he => ?_) text'
  obtain rfl := List.mem_singleton.1 he
  exact hbeside

theorem three {other : Span} (hs : n.Encloses s) (hplace : n.Encloses place)
    (hother : n.Encloses other) (hbeside : s.Beside place) (hbeside' : s.Beside other)
    (hbeside'' : place.Beside other) (text text' text'' : String) :
    (((Correction.empty.replace s text).replace place text').replace other text'').SoundAt n := by
  refine (two hs hplace hbeside text text').replace hother (fun e he => ?_) text''
  rcases List.mem_append.1 he with he | he
  · obtain rfl := List.mem_singleton.1 he
    exact hbeside'
  · obtain rfl := List.mem_singleton.1 he
    exact hbeside''

end Correction.SoundAt

/-- The finding and its correction stand inside the node. -/
structure Finding.SoundAt (f : Finding) (n : Node t) : Prop where
  encloses : n.Encloses f.span
  correction : ∀ c, f.correction = some c → c.edits ≠ [] ∧ c.SoundAt n

namespace Finding.SoundAt

theorem plain (hs : n.Encloses s) (message : String) : (Finding.plain s message).SoundAt n :=
  ⟨hs, fun _ hc => nomatch hc⟩

theorem withCorrection {f : Finding} (h : f.SoundAt n) {c : Correction} (hc : c.SoundAt n) :
    (f.withCorrection c).SoundAt n := by
  unfold Finding.withCorrection
  split
  · exact h
  · next hedits =>
    refine ⟨h.encloses, fun c' hc' => ?_⟩
    cases hc'
    exact ⟨fun hnil => hedits (List.isEmpty_iff.2 hnil), hc⟩

theorem replacing (hs : n.Encloses s) (hplace : n.Encloses place) (message text : String) :
    (Finding.replacing s message place text).SoundAt n :=
  (plain hs message).withCorrection (.one hplace text)

end Finding.SoundAt

end

/-! ## verdicts -/

/-- there is an answer, and what has been found has the property -/
def Verdict.Answers (P : Finding → Prop) (v : Verdict) : Prop :=
  ∃ found, v = .ok found ∧ ∀ f, found = some f → P f

namespace Verdict.Answers

variable {P : Finding → Prop}

theorem nothing : Answers P (.ok none) := ⟨none, rfl, fun _ h => nomatch h⟩

theorem found {f : Finding} (h : P f) : Answers P (.ok (some f)) :=
  ⟨some f, rfl, fun _ hf => Option.some.inj hf ▸ h⟩

theorem imp {Q : Finding → Prop} {v : Verdict} (h : Answers P v) (hPQ : ∀ f, P f → Q f) :
    Answers Q v := by
  obtain ⟨found, hv, hfound⟩ := h
  exact ⟨found, hv, fun f hf => hPQ f (hfound f hf)⟩

theorem ofOption {o : Option Finding} (h : ∀ f, o = some f → P f) : Answers P (.ok o) :=
  ⟨o, rfl, h⟩

theorem bind {α : Type} {x : Except RuleFault α} {k : α → Verdict} (hx : ∃ a, x = .ok a)
    (hk : ∀ a, Answers P (k a)) : Answers P (x >>= k) := by
  obtain ⟨a, rfl⟩ := hx
  exact hk a

end Verdict.Answers

/-! ## rules -/

/-- The offense passes as one about the node, and its correction, if there is one, has edits that can
be made together. -/
structure Offense.SoundAt (o : Offense) {t : SyntaxTree} (n : Node t) : Prop where
  isInside : o.isInside n.span = true
  edits_ne_nil : ∀ c, o.correction = some c → c.edits ≠ []
  compatible : ∀ c, o.correction = some c → Edit.Compatible c.edits
  fits : ∀ c, o.correction = some c → ∀ e ∈ c.edits, e.Fits t.source.toList

theorem Finding.SoundAt.toOffense {f : Finding} {t : SyntaxTree} {n : Node t} (h : f.SoundAt n)
    (rule : String) (severity : Severity) (source : List Char) :
    (f.toOffense rule severity source).SoundAt n := by
  refine ⟨?_, fun c hc => (h.correction c hc).1, fun c hc => (h.correction c hc).2.compatible,
    fun c hc e he => ?_⟩
  · refine Bool.and_eq_true_iff.2 ⟨h.encloses.contains, ?_⟩
    refine (Option.all_eq_true _ _).2 fun c hc => List.all_eq_true.2 fun e he => ?_
    exact ((h.correction c hc).2.encloses e he).contains
  · have hcuts := ((h.correction c hc).2.encloses e he).cuts
    exact ⟨hcuts.le, hcuts.start, hcuts.stop⟩

namespace Rule

/-- the rule has an answer about every node of a well-formed tree, and it is sound -/
def Sound (r : Rule) : Prop :=
  ∀ (t : SyntaxTree), t.WellFormed → ∀ (context : RuleContext) (n : Node t),
    ∃ os, (r.evaluate context n).offenses = .ok os ∧ ∀ o ∈ os, o.SoundAt n

/-- the same for a rule that takes it for granted that it is only asked about the nodes of its kinds
and methods: it has an answer about every node, and a sound one about those -/
def SoundIfAsked (r : Rule) : Prop :=
  ∀ (t : SyntaxTree), t.WellFormed → ∀ (context : RuleContext) (n : Node t),
    ∃ os, (r.evaluate context n).offenses = .ok os ∧
      (r.triggers n.kind = true → r.concerns n = true → ∀ o ∈ os, o.SoundAt n)

theorem Sound.ifAsked {r : Rule} (h : r.Sound) : r.SoundIfAsked := fun t ht context n =>
  (h t ht context n).imp fun _ hos => ⟨hos.1, fun _ _ => hos.2⟩

theorem exists_offenses_ofVerdict {report : Finding → Offense} {v : Verdict} {P : Finding → Prop}
    (h : Verdict.Answers P v) :
    ∃ os, (Evaluation.ofVerdict report v).offenses = .ok os ∧ ∀ o ∈ os, ∃ f, P f ∧ o = report f := by
  obtain ⟨found, rfl, hfound⟩ := h
  refine ⟨found.toList.map report, rfl, fun o ho => ?_⟩
  obtain ⟨f, hf, rfl⟩ := List.mem_map.1 ho
  exact ⟨f, hfound f (Option.mem_toList.1 hf), rfl⟩

theorem exists_offense_of_corrections {x : Except RuleFault (List Offense)} {os : List Offense}
    {c : Option Correction}
    (hfound : (x.toOption.map fun os => os.map fun o => o.correction) = some [c])
    (hos : x = .ok os) : ∃ o, os = [o] ∧ o.correction = c := by
  rw [hos] at hfound
  exact List.map_eq_singleton_iff.1 (Option.some.inj hfound)

theorem replacement_inj {s s' : Span} {text text' : String}
    (h : some (Correction.mk [⟨s, text⟩]) = some ⟨[⟨s', text'⟩]⟩) : text = text' := by
  injection h with h
  injection h with h
  injection h with h
  injection h

theorem sound_of_answers {r : Rule} {check : {t : SyntaxTree} → RuleContext → Node t → Verdict}
    {id : String}
    (hr : ∀ {t : SyntaxTree} (context : RuleContext) (n : Node t), r.evaluate context n =
      Evaluation.ofVerdict (fun f => f.toOffense id .warning t.source.toList) (check context n))
    (h : ∀ {t : SyntaxTree}, t.WellFormed → ∀ (context : RuleContext) (n : Node t),
      Verdict.Answers (fun f => f.SoundAt n) (check context n)) : r.Sound := by
  intro t ht context n
  rw [hr]
  obtain ⟨os, hos, hall⟩ := exists_offenses_ofVerdict (h ht context n)
  refine ⟨os, hos, fun o ho => ?_⟩
  obtain ⟨f, hf, rfl⟩ := hall o ho
  exact hf.toOffense id .warning t.source.toList

theorem soundIfAsked_of_answers {r : Rule}
    {check : {t : SyntaxTree} → RuleContext → Node t → Verdict} {id : String}
    (hr : ∀ {t : SyntaxTree} (context : RuleContext) (n : Node t), r.evaluate context n =
      Evaluation.ofVerdict (fun f => f.toOffense id .warning t.source.toList) (check context n))
    (h : ∀ {t : SyntaxTree}, t.WellFormed → ∀ (context : RuleContext) (n : Node t), Verdict.Answers
      (fun f => r.triggers n.kind = true → r.concerns n = true → f.SoundAt n) (check context n)) :
    r.SoundIfAsked := by
  intro t ht context n
  rw [hr]
  obtain ⟨os, hos, hall⟩ := exists_offenses_ofVerdict (h ht context n)
  refine ⟨os, hos, fun htriggers hconcerns o ho => ?_⟩
  obtain ⟨f, hf, rfl⟩ := hall o ho
  exact (hf htriggers hconcerns).toOffense id .warning t.source.toList

/-- the method of a call that a rule is asked about is one of the rule's methods -/
theorem exists_name_of_concerns {r : Rule} {t : SyntaxTree} {n : Node t} {methods : List String}
    (hmethods : r.methods? = some methods) (hcall : n.isCall = true) (h : r.concerns n = true) :
    ∃ name ∈ methods, n.methodName? = some name := by
  unfold concerns at h
  rw [hmethods] at h
  have hany : n.methodName?.any methods.contains = true := by
    simpa [hcall] using h
  obtain ⟨name, hname, hmem⟩ := (Option.any_eq_true _ _).1 hany
  exact ⟨name, List.contains_iff_mem.1 hmem, hname⟩

end Rule

end RubyLint
