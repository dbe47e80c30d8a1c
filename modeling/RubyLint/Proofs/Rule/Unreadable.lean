import Mathlib.Data.List.Forall2
import RubyLint.Proofs.Rule.Finding
import RubyLint.Proofs.Rule.Reading

/-!
# Rules on trees of any shape

Where nothing is known of the spans of a tree, a rule may find no text where it reads one.  Then it has
no answer, and that is the only reason.

* `Node.IsUnreadableAt`   a span at the node, or below it, does not cut the text;
* `Node.Reads`            what reads texts at the node comes to a result with a property, or it names a
                          span that it cannot read; kept by one reading after the other;
* `SyntaxTree.Reads`      the same where it reads anywhere in the tree;
* `Verdict.AnswersIfRead`, `offenses_of_answersIfRead`   the same of what a rule finds, and of its
                          offenses.
-/

namespace RubyLint

variable {t : SyntaxTree} {n m : Node t} {α β : Type}

/-- the span is one of the node, or of a node below it, and does not cut the text -/
structure Node.IsUnreadableAt (n : Node t) (s : Span) : Prop where
  below : ∃ m, n.Covers m ∧ (s = m.span ∨ s ∈ m.loc.parts)
  noText : Text.slice t.source.toList s.start s.stop = none

theorem SyntaxTree.WellFormed.not_isUnreadableAt (ht : t.WellFormed) (n : Node t) (s : Span) :
    ¬ n.IsUnreadableAt s := by
  rintro ⟨⟨m, -, hs⟩, hnone⟩
  have hcuts : s.Cuts t.source.toList := by
    rcases hs with rfl | hs
    · exact ht.cuts m
    · exact (ht.cuts_part m s hs).1
  have hsome := Text.isSome_slice_iff.2 ⟨hcuts.le, hcuts.start, hcuts.stop⟩
  rw [hnone] at hsome
  cases hsome

/-- there is a result, and it has the property; or a span at the node cannot be read -/
def Node.Reads (n : Node t) (x : Except RuleFault α) (P : α → Prop) : Prop :=
  (∃ s, x = .error (.unreadable s) ∧ n.IsUnreadableAt s) ∨ ∃ a, x = .ok a ∧ P a

namespace Node.Reads

variable {x : Except RuleFault α} {P : α → Prop} {Q : β → Prop}

theorem ok {a : α} (h : P a) : n.Reads (.ok a) P := .inr ⟨a, rfl, h⟩

theorem imp {P' : α → Prop} (h : n.Reads x P) (hP : ∀ a, P a → P' a) : n.Reads x P' :=
  h.imp_right fun ⟨a, ha, hp⟩ => ⟨a, ha, hP a hp⟩

theorem bind {k : α → Except RuleFault β} (h : n.Reads x P) (hk : ∀ a, P a → n.Reads (k a) Q) :
    n.Reads (x >>= k) Q := by
  rcases h with ⟨s, rfl, hs⟩ | ⟨a, rfl, ha⟩
  · exact .inl ⟨s, rfl, hs⟩
  · exact hk a ha

theorem text (hm : n.Covers m) : n.Reads m.text fun text => m.source? = some text := by
  unfold Node.text
  cases hsource : m.source? with
  | none => exact .inl ⟨m.span, rfl, ⟨m, hm, .inl rfl⟩, Option.map_eq_none_iff.1 hsource⟩
  | some text => exact .ok rfl

theorem texts {ns : List (Node t)} (h : ∀ m ∈ ns, n.Covers m) :
    n.Reads (ns.mapM Node.text) fun texts => ns.map Node.source? = texts.map some := by
  induction ns with
  | nil => exact .ok rfl
  | cons m ns ih =>
    obtain ⟨hm, hns⟩ := List.forall_mem_cons.1 h
    rw [List.mapM_cons]
    refine (text hm).bind fun text htext => (ih hns).bind fun texts htexts => .ok ?_
    rw [List.map_cons, List.map_cons, htext, htexts]

theorem mapM {f : α → Except RuleFault β} {R : α → β → Prop} {l : List α}
    (h : ∀ a ∈ l, n.Reads (f a) (R a)) : n.Reads (l.mapM f) (List.Forall₂ R l) := by
  induction l with
  | nil => exact .ok .nil
  | cons a l ih =>
    obtain ⟨ha, hl⟩ := List.forall_mem_cons.1 h
    rw [List.mapM_cons]
    exact ha.bind fun b hb => (ih hl).bind fun bs hbs => .ok (.cons hb hbs)

theorem of_wellFormed (ht : t.WellFormed) (h : n.Reads x P) : ∃ a, x = .ok a ∧ P a :=
  h.resolve_left fun ⟨s, _, hs⟩ => ht.not_isUnreadableAt n s hs

end Node.Reads

/-- there is a result, and it has the property; or a node has no text -/
def SyntaxTree.Reads (t : SyntaxTree) (x : Except RuleFault α) (P : α → Prop) : Prop :=
  (∃ m : Node t, x = .error (.unreadable m.span) ∧ m.source? = none) ∨ ∃ a, x = .ok a ∧ P a

namespace SyntaxTree.Reads

variable {x : Except RuleFault α} {P : α → Prop} {Q : β → Prop}

theorem ok {a : α} (h : P a) : t.Reads (.ok a) P := .inr ⟨a, rfl, h⟩

theorem bind {k : α → Except RuleFault β} (h : t.Reads x P) (hk : ∀ a, P a → t.Reads (k a) Q) :
    t.Reads (x >>= k) Q := by
  rcases h with ⟨m, rfl, hm⟩ | ⟨a, rfl, ha⟩
  · exact .inl ⟨m, rfl, hm⟩
  · exact hk a ha

theorem map {f : α → β} (h : t.Reads x P) (hf : ∀ a, P a → Q (f a)) : t.Reads (x.map f) Q := by
  rcases h with ⟨m, rfl, hm⟩ | ⟨a, rfl, ha⟩
  · exact .inl ⟨m, rfl, hm⟩
  · exact .ok (hf a ha)

theorem text (m : Node t) : t.Reads m.text fun text => m.source? = some text := by
  unfold Node.text
  cases hsource : m.source? with
  | none => exact .inl ⟨m, rfl, hsource⟩
  | some text => exact .ok rfl

theorem anyM {p : Node t → Except RuleFault Bool} {R : Node t → Prop} {ns : List (Node t)}
    (h : ∀ m ∈ ns, t.Reads (p m) fun b => b = true ↔ R m) :
    t.Reads (ns.anyM p) fun b => b = true ↔ ∃ m ∈ ns, R m := by
  induction ns with
  | nil => exact .ok (iff_of_false Bool.false_ne_true fun ⟨m, hm, _⟩ => List.not_mem_nil hm)
  | cons m ns ih =>
    obtain ⟨hm, hns⟩ := List.forall_mem_cons.1 h
    rw [List.anyM_cons]
    refine hm.bind fun b hb => ?_
    cases b with
    | true => exact .ok (iff_of_true rfl ⟨m, List.mem_cons_self, hb.1 rfl⟩)
    | false =>
      have hnot : ¬ R m := fun hR => Bool.false_ne_true (hb.2 hR)
      refine (ih hns).imp_right fun ⟨b, hany, hb⟩ => ⟨b, hany, hb.trans ?_⟩
      simp [hnot]

theorem of_wellFormed (ht : t.WellFormed) (h : t.Reads x P) : ∃ a, x = .ok a := by
  rcases h with ⟨m, -, hm⟩ | ⟨a, rfl, -⟩
  · obtain ⟨text, htext⟩ := ht.exists_text m
    cases hm.symm.trans (Rule.text_eq_ok htext)
  · exact ⟨a, rfl⟩

end SyntaxTree.Reads

namespace Verdict

/-- there is an answer, and what has been found has the property; or a span cannot be read -/
def AnswersIfRead (n : Node t) (P : Finding → Prop) (v : Verdict) : Prop :=
  n.Reads v fun found => ∀ f, found = some f → P f

namespace AnswersIfRead

variable {P : Finding → Prop}

theorem nothing : AnswersIfRead n P (.ok none) := .ok fun _ h => nomatch h

theorem found {f : Finding} (h : P f) : AnswersIfRead n P (.ok (some f)) :=
  .ok fun _ hf => Option.some.inj hf ▸ h

theorem text {k : String → Verdict} (hm : n.Covers m)
    (hk : ∀ text, m.source? = some text → AnswersIfRead n P (k text)) :
    AnswersIfRead n P (m.text >>= k) :=
  Node.Reads.bind (.text hm) hk

end AnswersIfRead

end Verdict

theorem Rule.offenses_of_reads {r : Rule} {context : RuleContext} {report : Finding → Offense}
    {v : Verdict} {P : Option Finding → Prop}
    (hr : r.evaluate context n = Evaluation.ofVerdict report v) (h : n.Reads v P) :
    n.Reads (r.evaluate context n).offenses fun os =>
      ∃ found, P found ∧ os = found.toList.map report := by
  rw [hr]
  rcases h with ⟨s, rfl, hs⟩ | ⟨found, rfl, hfound⟩
  · exact .inl ⟨s, rfl, hs⟩
  · exact .ok ⟨found, hfound, rfl⟩

theorem Rule.offenses_of_answersIfRead {r : Rule} {context : RuleContext} {id : String}
    {v : Verdict} {P : Finding → Prop} (hr : r.evaluate context n =
      Evaluation.ofVerdict (fun f => f.toOffense id .warning t.source.toList) v)
    (h : v.AnswersIfRead n P) : n.Reads (r.evaluate context n).offenses fun os =>
      ∀ o ∈ os, ∃ f, P f ∧ o.span = f.span ∧ o.correction = f.correction := by
  refine (offenses_of_reads hr h).imp fun os ⟨found, hfound, hos⟩ o ho => ?_
  obtain ⟨f, hf, rfl⟩ := List.mem_map.1 (hos ▸ ho)
  exact ⟨f, hfound f (Option.mem_toList.1 hf), rfl, rfl⟩

end RubyLint
