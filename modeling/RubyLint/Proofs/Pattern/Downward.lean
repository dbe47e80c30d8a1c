import RubyLint.Proofs.Pattern.Parsing
import RubyLint.Proofs.Pattern.Relabel

/-!
# Patterns without a caret

Only a caret takes a pattern up to the parent of a node.  A text without one compiles to a condition
in which no parent is asked about, at any depth, under a negation neither.

* `Condition.IsDownward`   no condition in it goes to a parent;
* `Phrase.IsDownward`      no mark in it is a caret;
* `Spells.isDownward`      tokens without a caret spell such a phrase;
* `isDownward_of_compile`  and compile to such a condition;
* `Token.ne_caret_of_scanFrom`  a text without the character has no such token.
-/

namespace RubyLint.Pattern

namespace Condition

/-- nothing in the condition goes to the parent of a node -/
def IsDownward (p : Condition) : Prop := ∀ inner, ¬ Within (.parent inner) p

variable {p r : Condition}

theorem IsDownward.direct (h : p.IsDownward) (hr : r ∈ p.direct) : r.IsDownward :=
  fun inner hw => h inner (.inside hr hw)

theorem isDownward_of (hp : ∀ inner, p ≠ .parent inner) (h : ∀ r ∈ p.direct, r.IsDownward) :
    p.IsDownward := by
  intro inner hw
  cases hw with
  | self => exact hp inner rfl
  | inside hr hw => exact h _ hr inner hw

theorem isDownward_of_isPlain (hp : p.IsPlain) : p.IsDownward := by
  refine isDownward_of (fun inner h => ?_) fun r hr => ?_
  · rw [h] at hp
    exact hp
  · cases p with
    | wildcard | kind | kindIn | literal | builtin | external | oneOf | param =>
      exact absurd hr List.not_mem_nil
    | _ => exact hp.elim

theorem mem_direct_ofElements {head : Condition} {es : List Element}
    (hr : r ∈ (ofElements head es).direct) : r = head ∨ ∃ e ∈ es, r = e.condition := by
  have hmap : ∀ {l : List Element}, l ⊆ es → r ∈ l.map Element.condition →
      r = head ∨ ∃ e ∈ es, r = e.condition := by
    intro l hl hr
    obtain ⟨e, he, rfl⟩ := List.mem_map.1 hr
    exact .inr ⟨e, hl he, rfl⟩
  have htail := List.dropWhile_subset (fun e : Element => !e.isSeveral) (l := es)
  unfold ofElements at hr
  split at hr
  · next middle arity slot back hdrop =>
    rw [hdrop] at htail
    rcases List.mem_cons.1 hr with rfl | hr
    · exact .inl rfl
    rcases List.mem_append.1 hr with hr | hr
    · exact hmap (List.takeWhile_subset _) hr
    rcases List.mem_cons.1 hr with rfl | hr
    · exact .inr ⟨_, htail List.mem_cons_self, rfl⟩
    · exact hmap (fun e he => htail (List.mem_cons_of_mem _ he)) hr
  · rcases List.mem_cons.1 hr with rfl | hr
    · exact .inl rfl
    · exact hmap (fun e he => he) hr

theorem ofElements_ne_parent (head : Condition) (es : List Element) (inner : Condition) :
    ofElements head es ≠ .parent inner := by
  unfold ofElements
  split <;> exact fun h => by cases h

end Condition

/-! ## phrases -/

namespace Phrase

/-- no mark in the phrase is a caret -/
def IsDownward (d : Phrase) : Prop := ∀ inner, ¬ Within (.marked .parent inner) d

variable {d s : Phrase} {env : Environment}

theorem IsDownward.direct (h : d.IsDownward) (hs : s ∈ d.direct) : s.IsDownward :=
  fun inner hw => h inner (.inside hs hw)

theorem mem_toConditionsFrom {ds : List Phrase} {isHead : Bool} {lo : Nat} {r : Condition}
    (hr : r ∈ toConditionsFrom env ds isHead lo) : ∃ d ∈ ds, r = d.toCondition env isHead lo := by
  induction ds with
  | nil => exact absurd hr List.not_mem_nil
  | cons d ds ih =>
    rcases List.mem_cons.1 hr with rfl | hr
    · exact ⟨d, List.mem_cons_self, rfl⟩
    · obtain ⟨e, he, h⟩ := ih hr
      exact ⟨e, List.mem_cons_of_mem _ he, h⟩

theorem mem_toConditions {ds : List Phrase} {isHead : Bool} {lo : Nat} {r : Condition}
    (hr : r ∈ toConditions env ds isHead lo) : ∃ d ∈ ds, ∃ lo, r = d.toCondition env isHead lo := by
  induction ds generalizing lo with
  | nil => exact absurd hr List.not_mem_nil
  | cons d ds ih =>
    rcases List.mem_cons.1 hr with rfl | hr
    · exact ⟨d, List.mem_cons_self, lo, rfl⟩
    · obtain ⟨e, he, h⟩ := ih hr
      exact ⟨e, List.mem_cons_of_mem _ he, h⟩

end Phrase

theorem Part.mem_toElements {env : Environment} {parts : List Part} {lo : Nat} {e : Element}
    (he : e ∈ toElements env parts lo) : ∃ part ∈ parts, ∃ lo, e = part.toElement env lo := by
  induction parts generalizing lo with
  | nil => exact absurd he List.not_mem_nil
  | cons part parts ih =>
    rcases List.mem_cons.1 he with rfl | he
    · exact ⟨part, List.mem_cons_self, lo, rfl⟩
    · obtain ⟨other, hother, h⟩ := ih he
      exact ⟨other, List.mem_cons_of_mem _ hother, h⟩

/-- the condition of an element is that of the phrase inside, or a capture of it -/
theorem Part.isDownward_toElement {env : Environment} {part : Part} {lo : Nat}
    (h : ∀ s ∈ part.inner?, ∀ lo, (s.toCondition env false lo).IsDownward) :
    (part.toElement env lo).condition.IsDownward := by
  cases part with
  | dots captured => exact Condition.isDownward_of_isPlain trivial
  | item captured inner arity =>
    have hinner := h inner rfl (lo + captured.toNat)
    cases arity with
    | some arity => exact hinner
    | none =>
      cases captured with
      | false => exact hinner
      | true =>
        refine Condition.isDownward_of (fun _ h => by cases h) fun r hr => ?_
        obtain rfl := List.mem_singleton.1 hr
        exact hinner

/-- A phrase without a caret stands for a condition that goes to no parent. -/
theorem Phrase.IsDownward.toCondition {env : Environment} {d : Phrase} (h : d.IsDownward)
    (isHead : Bool) (lo : Nat) : (d.toCondition env isHead lo).IsDownward := by
  induction d using Phrase.ind generalizing isHead lo with
  | leaf token =>
    rw [Phrase.toCondition]
    cases hc : token.condition? env isHead with
    -- an unknown name stands for a wildcard
    | none => exact Condition.isDownward_of_isPlain trivial
    | some c => exact Condition.isDownward_of_isPlain (Token.isPlain_of_condition? hc)
  | call name arguments => exact Condition.isDownward_of_isPlain trivial
  | sequence head parts ihh ihp =>
    rw [Phrase.toCondition]
    refine Condition.isDownward_of (Condition.ofElements_ne_parent _ _) fun r hr => ?_
    rcases Condition.mem_direct_ofElements hr with rfl | ⟨e, he, rfl⟩
    · exact ihh (h.direct List.mem_cons_self) _ _
    · obtain ⟨part, hpart, lo', rfl⟩ := Part.mem_toElements he
      refine Part.isDownward_toElement fun s hs lo => ?_
      have hdirect := List.mem_cons_of_mem head (List.mem_filterMap.2 ⟨part, hpart, hs⟩)
      cases part with
      | dots => cases hs
      | item captured inner arity =>
        cases hs
        exact ihp captured s arity hpart (h.direct hdirect) _ _
  | union branches ih =>
    rw [Phrase.toCondition]
    refine Condition.isDownward_of (fun _ h => by cases h) fun r hr => ?_
    obtain ⟨d, hd, rfl⟩ := mem_toConditionsFrom hr
    exact ih d hd (h.direct hd) _ _
  | intersection terms ih =>
    rw [Phrase.toCondition]
    refine Condition.isDownward_of (fun _ h => by cases h) fun r hr => ?_
    obtain ⟨d, hd, lo', rfl⟩ := mem_toConditions hr
    exact ih d hd (h.direct hd) _ _
  | marked mark inner ih =>
    rw [Phrase.toCondition]
    have hinner := ih (h.direct List.mem_cons_self)
    cases mark with
    | parent => exact absurd .self (h inner)
    | negation | capture | descendant =>
      refine Condition.isDownward_of (fun _ h => by cases h) fun r hr => ?_
      obtain rfl := List.mem_singleton.1 hr
      exact hinner _ _

/-! ## what is spelled without a caret -/

section
variable {ts rest : List Placed}

theorem Chain.subset {α : Type} {R : α → List Placed → List Placed → Prop} {as : List α}
    (hR : ∀ a ∈ as, ∀ {ts m}, R a ts m → m ⊆ ts) (h : Chain R as ts rest) : rest ⊆ ts := by
  induction h with
  | nil => exact List.Subset.refl _
  | cons hfirst _ ih =>
    exact List.Subset.trans (ih fun b hb => hR b (List.mem_cons_of_mem _ hb))
      (hR _ List.mem_cons_self hfirst)

theorem Chain.exists_of_mem {α : Type} {R : α → List Placed → List Placed → Prop} {as : List α}
    {a : α} (hR : ∀ a ∈ as, ∀ {ts m}, R a ts m → m ⊆ ts) (h : Chain R as ts rest) (ha : a ∈ as) :
    ∃ us mid, us ⊆ ts ∧ R a us mid := by
  induction h with
  | nil => exact absurd ha List.not_mem_nil
  | cons hfirst _ ih =>
    rcases List.mem_cons.1 ha with rfl | ha
    · exact ⟨_, _, List.Subset.refl _, hfirst⟩
    · obtain ⟨us, mid, hus, hmid⟩ := ih (fun b hb => hR b (List.mem_cons_of_mem _ hb)) ha
      exact ⟨us, mid, List.Subset.trans hus (hR _ List.mem_cons_self hfirst), hmid⟩

theorem SpellsSign.subset {arity : Option Arity} (h : SpellsSign arity ts rest) : rest ⊆ ts := by
  cases h with
  | none => exact List.Subset.refl _
  | some => exact List.subset_cons_self _ _

theorem SpellsPart.subset_of {part : Part}
    (hinner : ∀ s ∈ part.inner?, ∀ {ts m}, Spells s ts m → m ⊆ ts)
    (h : SpellsPart part ts rest) : rest ⊆ ts := by
  cases h with
  | dots => exact List.subset_cons_self _ _
  | capturedDots => exact List.subset_cons_of_subset _ (List.subset_cons_self _ _)
  | item _ h ha => exact List.Subset.trans ha.subset (hinner _ rfl h)
  | capturedItem _ h ha =>
    exact List.subset_cons_of_subset _ (List.Subset.trans ha.subset (hinner _ rfl h))

theorem Spells.subset {d : Phrase} (h : Spells d ts rest) : rest ⊆ ts := by
  induction d using Phrase.ind generalizing ts rest with
  | leaf =>
    cases h
    exact List.subset_cons_self _ _
  | call =>
    cases h with
    | name => exact List.subset_cons_self _ _
    | call _ _ _ h =>
      have hclose := h.subset fun _ _ _ _ ha => by
        cases ha
        exact List.subset_cons_self _ _
      exact List.subset_cons_of_subset _
        (List.subset_cons_of_subset _ (List.subset_of_cons_subset hclose))
  | sequence head parts ihh ihp =>
    cases h with
    | sequence _ hh h =>
      have hclose := h.subset fun part hpart _ _ => SpellsPart.subset_of fun s hs _ _ hspells => by
        cases part with
        | dots => cases hs
        | item captured inner arity =>
          cases hs
          exact ihp captured s arity hpart hspells
      exact List.subset_cons_of_subset _
        (List.Subset.trans (List.subset_of_cons_subset hclose) (ihh hh))
  | union branches ih =>
    cases h with
    | union _ _ h =>
      have hclose := h.subset fun b hb _ _ hspells => ih b hb hspells
      exact List.subset_cons_of_subset _ (List.subset_of_cons_subset hclose)
  | intersection terms ih =>
    cases h with
    | intersection _ _ h =>
      have hclose := h.subset fun d hd _ _ hspells => ih d hd hspells
      exact List.subset_cons_of_subset _ (List.subset_of_cons_subset hclose)
  | marked mark inner ih =>
    cases h with
    | marked _ h => exact List.subset_cons_of_subset _ (ih h)

theorem SpellsPart.subset {part : Part} (h : SpellsPart part ts rest) : rest ⊆ ts :=
  h.subset_of fun _ _ _ _ => Spells.subset

/-- a phrase that stands directly in another is spelled by some of its tokens -/
theorem Spells.exists_of_mem_direct {d s : Phrase} (h : Spells d ts rest) (hs : s ∈ d.direct) :
    ∃ us mid, us ⊆ ts ∧ Spells s us mid := by
  cases h with
  | leaf | name | call => exact absurd hs List.not_mem_nil
  | @sequence o c head parts us mid rest _ hh hparts _ =>
    rcases Phrase.mem_direct_sequence.1 hs with rfl | ⟨captured, arity, hpart⟩
    · exact ⟨us, mid, List.subset_cons_self _ _, hh⟩
    · -- an element starts with its term, or with the sign of its capture
      obtain ⟨vs, more, hvs, hitem⟩ := hparts.exists_of_mem (fun _ _ _ _ => SpellsPart.subset) hpart
      have hsub := List.subset_cons_of_subset o (List.Subset.trans hvs hh.subset)
      cases hitem with
      | item _ hinner => exact ⟨_, _, hsub, hinner⟩
      | capturedItem _ hinner => exact ⟨_, _, List.subset_of_cons_subset hsub, hinner⟩
  | union _ _ hbranches _ =>
    obtain ⟨us, mid, hus, hspells⟩ := hbranches.exists_of_mem (fun _ _ _ _ => Spells.subset) hs
    exact ⟨us, mid, List.subset_cons_of_subset _ hus, hspells⟩
  | intersection _ _ hterms _ =>
    obtain ⟨us, mid, hus, hspells⟩ := hterms.exists_of_mem (fun _ _ _ _ => Spells.subset) hs
    exact ⟨us, mid, List.subset_cons_of_subset _ hus, hspells⟩
  | marked _ hinner =>
    obtain rfl := List.mem_singleton.1 hs
    exact ⟨_, _, List.subset_cons_self _ _, hinner⟩

theorem Spells.exists_of_within {d q : Phrase} (h : Spells d ts rest) (hq : q.Within d) :
    ∃ us mid, us ⊆ ts ∧ Spells q us mid := by
  induction hq generalizing ts rest with
  | self => exact ⟨ts, rest, List.Subset.refl _, h⟩
  | inside hs _ ih =>
    obtain ⟨us, mid, hus, hspells⟩ := h.exists_of_mem_direct hs
    obtain ⟨vs, more, hvs, hq⟩ := ih hspells
    exact ⟨vs, more, List.Subset.trans hvs hus, hq⟩

theorem Spells.isDownward {d : Phrase} (h : Spells d ts rest) (hts : ∀ x ∈ ts, x.token ≠ .caret) :
    d.IsDownward := by
  intro inner hw
  obtain ⟨us, mid, hus, hmarked⟩ := h.exists_of_within hw
  cases hmarked with
  | marked ho _ => exact hts _ (hus List.mem_cons_self) ho

end

/-- **A pattern without a caret goes to no parent.** -/
theorem isDownward_of_compile {source : String} {env : Environment} {p : Pattern}
    {tokens : List Placed} (h : compile source env = .ok p)
    (hs : Token.scan source.toList = .ok tokens) (hno : ∀ x ∈ tokens, x.token ≠ .caret) :
    p.condition.IsDownward := by
  obtain ⟨d, hd, -, hcondition, -⟩ := exists_spells_of_compile hs h
  rw [hcondition]
  exact (hd.isDownward hno).toCondition false 0

/-! ## the character -/

namespace Token

theorem eq_of_ofChar?_caret {c : Char} (h : ofChar? c = some .caret) : c = '^' := by
  unfold ofChar? at h
  split at h <;> first | rfl | cases h

theorem ne_caret_of_ofWord (w : List Char) : ofWord w ≠ .caret := by
  unfold ofWord
  split <;> exact fun h => by cases h

theorem ne_caret_of_takeNumber {cs : List Char} {n : Nat} : takeNumber cs ≠ .ok (.caret, n) := by
  unfold takeNumber
  intro h
  dsimp only at h
  split at h
  · next t ht =>
    cases h
    split at ht
    · obtain ⟨x, -, hx⟩ := Option.map_eq_some_iff.1 ht
      cases hx
    · obtain ⟨x, -, hx⟩ := Option.map_eq_some_iff.1 ht
      cases hx
  · cases h

theorem ne_caret_of_takePercent {cs : List Char} {n : Nat} :
    takePercent cs ≠ .ok (.caret, n) := by
  unfold takePercent
  intro h
  dsimp only at h
  split at h
  · cases h
  · split at h <;> cases h

theorem ne_caret_of_fromOption {α : Type} {fault : PatternFault} {x : Option α}
    {f : α → Token × Nat} (hf : ∀ a, (f a).1 ≠ .caret) {n : Nat} :
    fromOption fault (x.map f) ≠ .ok (.caret, n) := by
  intro h
  cases x with
  | none => cases h
  | some a => exact hf a (congrArg Prod.fst (Except.ok.inj h))

theorem eq_of_first_caret {c : Char} {cs : List Char} {n : Nat}
    (h : first c cs = .ok (.caret, n)) : c = '^' := by
  unfold first at h
  split at h
  · next t ht =>
    cases h
    exact eq_of_ofChar?_caret ht
  -- what is longer, or no sign, is something else
  exfalso
  split at h
  · cases h
  split at h
  · exact ne_caret_of_fromOption (fun ⟨_, _⟩ h => by cases h) h
  split at h
  · exact ne_caret_of_fromOption (fun ⟨_, _⟩ h => by cases h) h
  split at h
  · exact ne_caret_of_takeNumber h
  split at h
  · exact ne_caret_of_takePercent h
  split at h
  · split at h <;> cases h
  split at h
  · cases h
  split at h
  · exact ne_caret_of_ofWord _ (congrArg Prod.fst (Except.ok.inj h))
  · cases h

/-- A text without the character has no such token. -/
theorem ne_caret_of_scanFrom {offset : Nat} {cs : List Char} {tokens : List Placed}
    (hno : '^' ∉ cs) (h : scanFrom offset cs = .ok tokens) : ∀ x ∈ tokens, x.token ≠ .caret := by
  fun_induction scanFrom offset cs generalizing tokens with
  | case1 offset =>
    cases h
    exact fun x hx => absurd hx List.not_mem_nil
  | case2 offset c rest hblank ih => exact ih (fun hmem => hno (List.mem_cons_of_mem _ hmem)) h
  | case3 offset c rest hblank fault hfirst => cases h
  | case4 offset c rest hblank token n hfirst stop e hrest => cases h
  | case5 offset c rest hblank token n hfirst stop more hrest =>
    rename_i ih
    cases h
    refine List.forall_mem_cons.2 ⟨fun htoken => ?_, ?_⟩
    · rw [show token = .caret from htoken] at hfirst
      exact hno (eq_of_first_caret hfirst ▸ List.mem_cons_self)
    · exact ih (fun hmem => hno (List.mem_cons_of_mem _ (List.mem_of_mem_drop hmem))) hrest

end Token

end RubyLint.Pattern
