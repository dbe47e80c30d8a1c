import Mathlib.Data.List.Forall2
import Mathlib.Data.List.Pairwise
import RubyLint.Proofs.Layout.Constructs
import RubyLint.Proofs.Layout.Sound
import RubyLint.Proofs.Syntax.Terms

/-!
# Where the layout of a node stands

The term of a sound node stands inside the node, and so do all nodes in it, each inside the one around it and
apart from its siblings.

* `Gives`        what holds of every result of a computation of a layout;
* `Fits`         terms that stand inside spans, one in each;
* `regions`      the spans of the children of a node, by what they are to it.
-/

namespace RubyLint

open Text (isBoundary)

namespace Span

variable {r r' s s' : Span}

theorem Apart.mono (h : r.Apart r') (hs : r.contains s = true) (hs' : r'.contains s' = true) :
    s.Apart s' := by
  have hs := contains_iff.1 hs
  have hs' := contains_iff.1 hs'
  rcases h with h | h
  · exact .inl (by omega)
  · exact .inr (by omega)

theorem InOrder.apart {rs : List Span} (h : InOrder rs) : rs.Pairwise Apart := h.imp .inl

end Span

/-- The term is a node that stands inside the span, with all that is in it placed. -/
structure Term.PlacedIn (cs : List Char) (r : Span) (t : Term) : Prop where
  placed : t.Placed cs
  exists_span : ∃ s, t.span? = some s ∧ r.contains s = true

theorem Term.PlacedIn.mono {cs : List Char} {r r' : Span} {t : Term} (h : t.PlacedIn cs r)
    (hr : r'.contains r = true) : t.PlacedIn cs r' where
  placed := h.placed
  exists_span := by
    obtain ⟨s, hs, hin⟩ := h.exists_span
    exact ⟨s, hs, Span.contains_trans hr hin⟩

namespace Ruby

/-- The terms are placed and stand inside the spans, apart from each other if the spans are. -/
structure Fits (cs : List Char) (rs : List Span) (ts : List Term) : Prop where
  placed : ∀ t ∈ ts, t.Placed cs
  inside : ∀ s ∈ ts.filterMap Term.span?, ∃ r ∈ rs, r.contains s = true
  apart : rs.Pairwise Span.Apart → (ts.filterMap Term.span?).Pairwise Span.Apart

namespace Fits

variable {cs : List Char} {r : Span} {rs rs' : List Span} {t : Term} {ts ts' : List Term}

theorem nil : Fits cs [] [] :=
  ⟨fun _ h => absurd h List.not_mem_nil, fun _ h => absurd h List.not_mem_nil, fun _ => .nil⟩

theorem one (h : t.PlacedIn cs r) : Fits cs [r] [t] := by
  obtain ⟨s, hs, hin⟩ := h.exists_span
  have hspans : [t].filterMap Term.span? = [s] := by rw [List.filterMap_cons_some hs]; rfl
  refine ⟨List.forall_mem_singleton.2 h.placed, ?_, fun _ => ?_⟩
  · rw [hspans]
    exact List.forall_mem_singleton.2 ⟨r, List.mem_cons_self, hin⟩
  · rw [hspans]
    exact List.pairwise_singleton _ _

theorem append (h : Fits cs rs ts) (h' : Fits cs rs' ts') : Fits cs (rs ++ rs') (ts ++ ts') where
  placed := List.forall_mem_append.2 ⟨h.placed, h'.placed⟩
  inside := by
    rw [List.filterMap_append]
    refine List.forall_mem_append.2 ⟨fun s hs => ?_, fun s hs => ?_⟩
    · obtain ⟨r, hr, hin⟩ := h.inside s hs
      exact ⟨r, List.mem_append_left _ hr, hin⟩
    · obtain ⟨r, hr, hin⟩ := h'.inside s hs
      exact ⟨r, List.mem_append_right _ hr, hin⟩
  apart hrs := by
    obtain ⟨hleft, hright, hcross⟩ := List.pairwise_append.1 hrs
    rw [List.filterMap_append]
    refine List.pairwise_append.2 ⟨h.apart hleft, h'.apart hright, fun s hs s' hs' => ?_⟩
    obtain ⟨r, hr, hin⟩ := h.inside s hs
    obtain ⟨r', hr', hin'⟩ := h'.inside s' hs'
    exact (hcross r hr r' hr').mono hin hin'

theorem cons (h : t.PlacedIn cs r) (h' : Fits cs rs ts) : Fits cs (r :: rs) (t :: ts) :=
  (one h).append h'

theorem value (h : Fits cs rs ts) (v : Value) : Fits cs rs (.value v :: ts) where
  placed := List.forall_mem_cons.2 ⟨.value v, h.placed⟩
  inside := h.inside
  apart := h.apart

theorem values (h : Fits cs rs ts) (vs : List Value) : Fits cs rs (vs.map Term.value ++ ts) := by
  induction vs with
  | nil => exact h
  | cons v vs ih => exact ih.value v

theorem snoc (h : Fits cs rs ts) (v : Value) : Fits cs rs (ts ++ [.value v]) := by
  have happend := h.append (nil.value v)
  rwa [List.append_nil] at happend

theorem sublist (h : Fits cs rs ts) (hrs : rs.Sublist rs') : Fits cs rs' ts where
  placed := h.placed
  inside s hs := by
    obtain ⟨r, hr, hin⟩ := h.inside s hs
    exact ⟨r, hrs.subset hr, hin⟩
  apart h' := h.apart (h'.sublist hrs)

theorem group (h : Fits cs rs ts) (hrs : rs.Pairwise Span.Apart)
    (hin : ∀ r' ∈ rs, r.contains r' = true) : Fits cs [r] ts where
  placed := h.placed
  inside s hs := by
    obtain ⟨r', hr', hin'⟩ := h.inside s hs
    exact ⟨r, List.mem_cons_self, Span.contains_trans (hin r' hr') hin'⟩
  apart _ := h.apart hrs

theorem node {kind : Kind} {loc : Loc} (h : Fits cs rs ts) (hr : r.Cuts cs)
    (hin : ∀ r' ∈ rs, r.contains r' = true) (hrs : rs.Pairwise Span.Apart) :
    (Term.node kind r loc ts).PlacedIn cs r where
  placed := by
    refine .node hr (fun s hs => ?_) (h.apart hrs) h.placed
    obtain ⟨r', hr', hin'⟩ := h.inside s hs
    exact Span.contains_trans (hin r' hr') hin'
  exists_span := ⟨r, rfl, Span.contains_refl r⟩

theorem orNil {o : Option Term} (h : Fits cs rs o.toList) : Fits cs rs [Ruby.orNil o] := by
  cases o with
  | some t => exact h
  | none => exact h.value .nil

end Fits

/-! ## terms one behind the other -/

/-- The terms stand in the spans, one in each. -/
abbrev FitEach (cs : List Char) (rs : List Span) (ts : List Term) : Prop :=
  List.Forall₂ (fun r t => t.PlacedIn cs r) rs ts

theorem FitEach.fits {cs : List Char} {rs : List Span} {ts : List Term} (h : FitEach cs rs ts) :
    Fits cs rs ts := by
  induction h with
  | nil => exact .nil
  | cons h _ ih => exact .cons h ih

/-- From the first of some spans to the last. -/
def hull (r : Span) (rs : List Span) : Span := r.join (rs.getLast?.getD r)

section
variable {cs : List Char} {r region : Span} {rs : List Span} {ts : List Term}

theorem getLast?_getD_mem (r : Span) (rs : List Span) : rs.getLast?.getD r ∈ r :: rs := by
  cases h : rs.getLast? with
  | none => exact List.mem_cons_self
  | some s => exact List.mem_cons_of_mem r (List.mem_of_getLast? h)

theorem hull_contains (h : Span.InOrder (r :: rs)) (hle : ∀ s ∈ r :: rs, s.start ≤ s.stop) :
    ∀ s ∈ r :: rs, (hull r rs).contains s = true := by
  obtain ⟨hfirst, hrest⟩ := List.pairwise_cons.1 h
  have hr := hle r List.mem_cons_self
  -- every span ends where the last one does, or earlier
  have hlast : ∀ s ∈ r :: rs, s.stop ≤ (rs.getLast?.getD r).stop := by
    rcases List.eq_nil_or_concat rs with rfl | ⟨front, last, rfl⟩
    · exact List.forall_mem_singleton.2 (Nat.le_refl _)
    · have hle' := hle last (by simp)
      intro s hs
      rw [List.concat_eq_append, List.getLast?_concat]
      rw [List.concat_eq_append, ← List.cons_append] at hs h
      rcases List.mem_append.1 hs with hs | hs
      · have := h.stop_le_start hs List.mem_cons_self
        show s.stop ≤ last.stop
        omega
      · obtain rfl := List.mem_singleton.1 hs
        exact Nat.le_refl _
  intro s hs
  have hstop := hlast s hs
  refine Span.contains_iff.2 ⟨?_, Nat.le_trans hstop (Nat.le_max_right _ _)⟩
  show min r.start _ ≤ s.start
  rcases List.mem_cons.1 hs with rfl | hs
  · exact Nat.min_le_left _ _
  · have := hfirst s hs
    omega

theorem hull_inside (h : ∀ s ∈ r :: rs, region.contains s = true) :
    region.contains (hull r rs) = true := by
  have hr := Span.contains_iff.1 (h r List.mem_cons_self)
  have hlast := Span.contains_iff.1 (h _ (getLast?_getD_mem r rs))
  refine Span.contains_iff.2 ⟨?_, ?_⟩
  · show region.start ≤ min r.start _
    omega
  · show max r.stop _ ≤ region.stop
    omega

theorem InOrder.hull {front back : List Span} (h : Span.InOrder (front ++ (r :: rs ++ back))) :
    Span.InOrder (front ++ (hull r rs :: back)) := by
  obtain ⟨hfront, hmiddle, hcross⟩ := List.pairwise_append.1 h
  obtain ⟨-, hback, hbehind⟩ := List.pairwise_append.1 hmiddle
  have hlast := getLast?_getD_mem r rs
  refine List.pairwise_append.2 ⟨hfront, List.pairwise_cons.2 ⟨fun s hs => ?_, hback⟩, fun s hs => ?_⟩
  · have hr := hbehind r List.mem_cons_self s hs
    have hlast := hbehind _ hlast s hs
    show max r.stop _ ≤ s.start
    omega
  · refine List.forall_mem_cons.2 ⟨?_, fun s' hs' => hcross s hs s' (List.mem_append_right _ hs')⟩
    have hr := hcross s hs r (List.mem_append_left _ List.mem_cons_self)
    have hlast := hcross s hs _ (List.mem_append_left _ hlast)
    show s.stop ≤ min r.start _
    omega

theorem hull_cuts (h : ∀ s ∈ r :: rs, s.Cuts cs) : (hull r rs).Cuts cs :=
  (h r List.mem_cons_self).join (h _ (getLast?_getD_mem r rs))

/-- The spans of terms that stand in spans one behind the other. -/
structure SpansOf (cs : List Char) (region : Span) (rs : List Span) (ts : List Term)
    (ss : List Span) : Prop where
  fit : FitEach cs ss ts
  eq : ts.map Term.span? = ss.map some
  ordered : Span.InOrder ss
  inside : ∀ s ∈ ss, region.contains s = true
  cuts : ∀ s ∈ ss, s.Cuts cs
  within : ∀ s ∈ ss, ∃ r ∈ rs, r.contains s = true

theorem FitEach.exists_spans (h : FitEach cs rs ts) (hrs : Span.InOrder rs)
    (hin : ∀ r ∈ rs, region.contains r = true) : ∃ ss, SpansOf cs region rs ts ss := by
  induction h with
  | nil => exact ⟨[], .nil, rfl, .nil, by simp, by simp, by simp⟩
  | @cons r t rs ts ht _ ih =>
    obtain ⟨hfirst, hrest⟩ := List.pairwise_cons.1 hrs
    obtain ⟨ss, h⟩ := ih hrest fun r' hr' => hin r' (List.mem_cons_of_mem r hr')
    obtain ⟨s, hs, hins⟩ := ht.exists_span
    have hcuts : s.Cuts cs := by
      cases ht.placed with
      | value v => cases hs
      | node hcuts _ _ _ =>
        cases hs
        exact hcuts
    refine ⟨s :: ss, .cons ⟨ht.placed, s, hs, Span.contains_refl s⟩ h.fit, ?_, ?_, ?_, ?_, ?_⟩
    · rw [List.map_cons, List.map_cons, hs, h.eq]
    · refine List.pairwise_cons.2 ⟨fun s' hs' => ?_, h.ordered⟩
      obtain ⟨r', hr', hin'⟩ := h.within s' hs'
      have hbefore := hfirst r' hr'
      have hins := Span.contains_iff.1 hins
      have hin' := Span.contains_iff.1 hin'
      omega
    · exact List.forall_mem_cons.2
        ⟨Span.contains_trans (hin r List.mem_cons_self) hins, h.inside⟩
    · exact List.forall_mem_cons.2 ⟨hcuts, h.cuts⟩
    · refine List.forall_mem_cons.2 ⟨⟨r, List.mem_cons_self, hins⟩, fun s' hs' => ?_⟩
      obtain ⟨r', hr', hin'⟩ := h.within s' hs'
      exact ⟨r', List.mem_cons_of_mem r hr', hin'⟩

/-- a node around terms, from the start of the first to the end of the last -/
theorem FitEach.around {s : Span} {ss : List Span} {kind : Kind} {loc : Loc} (h : FitEach cs (s :: ss) ts)
    (hord : Span.InOrder (s :: ss)) (hcuts : ∀ s' ∈ s :: ss, s'.Cuts cs)
    (hin : ∀ s' ∈ s :: ss, region.contains s' = true) :
    (Term.node kind (hull s ss) loc ts).PlacedIn cs region := by
  have hnode : (Term.node kind (hull s ss) loc ts).PlacedIn cs (hull s ss) :=
    h.fits.node (hull_cuts hcuts) (hull_contains hord fun s' hs' => (hcuts s' hs').le) hord.apart
  exact hnode.mono (hull_inside hin)

theorem sequenceTerm_eq {t t' : Term} {s s' : Span} (hs : t.span? = some s)
    (hs' : (t' :: ts).getLast?.bind Term.span? = some s') : sequenceTerm (t :: t' :: ts) =
      some (plainTerm .sequence (s.join s') (t :: t' :: ts)) := by
  simp only [sequenceTerm, hs, hs']

/-- Statements stand from the start of the first to the end of the last. -/
theorem FitEach.sequence (h : FitEach cs rs ts) (hrs : Span.InOrder rs)
    (hin : ∀ r ∈ rs, region.contains r = true) {t : Term} (ht : sequenceTerm ts = some t) :
    t.PlacedIn cs region := by
  obtain ⟨ss, hss⟩ := h.exists_spans hrs hin
  obtain ⟨heach, heq, hord, hinside, hcuts, -⟩ := hss
  cases heach with
  | nil => cases ht
  | @cons s t' ss ts hfirst hrest =>
    cases hrest with
    | nil =>
      cases ht
      exact hfirst.mono (hinside s List.mem_cons_self)
    | @cons s' t'' ss ts hsecond hrest =>
      obtain ⟨hs, hss⟩ := List.cons_eq_cons.1 heq
      have hlast : (t'' :: ts).getLast?.bind Term.span? = some ((s' :: ss).getLast?.getD s) := by
        have hmap := congrArg (fun os : List (Option Span) => os.getLast?.bind id) hss
        rw [List.getLast?_map, List.getLast?_map, Option.bind_map, Option.bind_map] at hmap
        refine hmap.trans ?_
        rw [List.getLast?_cons]
        rfl
      rw [sequenceTerm_eq hs hlast] at ht
      cases ht
      exact FitEach.around (.cons hfirst (.cons hsecond hrest)) hord hcuts hinside

end

/-! ## the parts of a node -/

section
variable {source : List Char} {c d e : Concrete} {ps : List (Concrete → Bool)}

def hasRole (role : Role) (d : Concrete) : Bool := d.role == role

def isNamed (d : Concrete) : Bool := !d.isPassedOver

/-- The spans of the children of a node that meet conditions, by the conditions. -/
def regions (c : Concrete) (ps : List (Concrete → Bool)) : List Span :=
  ps.flatMap fun p => (c.children.filter p).map Concrete.span

theorem mem_regions {r : Span} : r ∈ regions c ps ↔ ∃ p ∈ ps, ∃ d ∈ c.children, p d ∧ d.span = r := by
  simp only [regions, List.mem_flatMap, List.mem_map, List.mem_filter, and_assoc]

theorem inside_regions (hc : c.Stands source) : ∀ r ∈ regions c ps, c.span.contains r = true := by
  intro r hr
  obtain ⟨p, -, d, hd, -, rfl⟩ := mem_regions.1 hr
  exact hc.inside d hd

theorem Concrete.Stands.apart (hc : c.Stands source) (hd : d ∈ c.children) (he : e ∈ c.children)
    (hne : d ≠ e) : d.span.Apart e.span := by
  have hpairwise : c.children.Pairwise fun d e => d.span.Apart e.span :=
    List.pairwise_map.1 hc.ordered.apart
  have hsymm : Std.Symm fun d e : Concrete => d.span.Apart e.span := ⟨fun _ _ h => h.symm⟩
  exact hpairwise.forall hd he hne

/-- The conditions tell children apart, and so their spans. -/
theorem apart_regions (hc : c.Stands source)
    (hps : ps.Pairwise fun p q => ∀ d, p d = true → q d = false) :
    (regions c ps).Pairwise Span.Apart := by
  refine List.pairwise_flatMap.2 ⟨fun p _ => ?_, hps.imp fun {p q} hpq r hr r' hr' => ?_⟩
  · exact hc.ordered.apart.sublist (List.filter_sublist.map _)
  · obtain ⟨d, hd, rfl⟩ := List.mem_map.1 hr
    obtain ⟨e, he, rfl⟩ := List.mem_map.1 hr'
    obtain ⟨hd, hpd⟩ := List.mem_filter.1 hd
    obtain ⟨he, hqe⟩ := List.mem_filter.1 he
    refine hc.apart hd he fun heq => ?_
    rw [← heq, hpq d hpd] at hqe
    cases hqe

/-- A node around terms that stand in some of its children. -/
theorem Fits.inNode {ts : List Term} {kind : Kind} {loc : Loc} (hc : c.Stands source)
    (hps : ps.Pairwise fun p q => ∀ d, p d = true → q d = false)
    (h : Fits source (regions c ps) ts) : (Term.node kind c.span loc ts).PlacedIn source c.span :=
  h.node hc.cuts (inside_regions hc) (apart_regions hc hps)

theorem regions_append (ps' : List (Concrete → Bool)) :
    regions c (ps ++ ps') = regions c ps ++ regions c ps' := List.flatMap_append

theorem Fits.filtered {ts : List Term} {p : Concrete → Bool}
    (h : Fits source ((c.children.filter p).map Concrete.span) ts) : Fits source (regions c [p]) ts := by
  rwa [regions, List.flatMap_singleton]

theorem Fits.parts {ts ts' : List Term} {ps' : List (Concrete → Bool)}
    (h : Fits source (regions c ps) ts) (h' : Fits source (regions c ps') ts') :
    Fits source (regions c (ps ++ ps')) (ts ++ ts') := by
  rw [regions_append]
  exact h.append h'

/-- The spans of the first child with a role, if there is one. -/
def partSpans (c : Concrete) (role : Role) : List Span := (c.part? role).toList.map Concrete.span

theorem partSpans_sublist {role : Role} : (partSpans c role).Sublist (regions c [hasRole role]) := by
  unfold partSpans
  cases h : c.part? role with
  | none => exact List.nil_sublist _
  | some d =>
    refine List.singleton_sublist.2 (mem_regions.2 ⟨_, List.mem_cons_self, d, ?_, ?_, rfl⟩)
    · exact Concrete.mem_children_of_part? h
    · exact List.find?_some h

theorem mem_partSpans {role : Role} {r : Span} :
    r ∈ partSpans c role ↔ ∃ d, c.part? role = some d ∧ d.span = r := by
  simp only [partSpans, List.mem_map, Option.mem_toList]

theorem partSpans_eq {role : Role} (h : c.part? role = some d) : partSpans c role = [d.span] := by
  rw [partSpans, h]
  rfl

theorem inside_partSpans {role : Role} (hc : c.Stands source) :
    ∀ r ∈ partSpans c role, c.span.contains r = true :=
  fun r hr => inside_regions hc r (partSpans_sublist.subset hr)

theorem Fits.region {ts : List Term} {role : Role} (h : Fits source (partSpans c role) ts) :
    Fits source (regions c [hasRole role]) ts := h.sublist partSpans_sublist

theorem hasRole_disjoint (roles : List Role) (h : roles.Nodup) :
    (roles.map hasRole).Pairwise fun p q => ∀ d, p d = true → q d = false := by
  refine List.pairwise_map.2 (h.imp fun {r r'} hne d hd => ?_)
  simp only [hasRole, beq_iff_eq, beq_eq_false_iff_ne] at hd ⊢
  exact hd ▸ hne

theorem partSpans_apart (hc : c.Stands source) {role role' : Role} (h : role ≠ role') :
    (partSpans c role ++ partSpans c role').Pairwise Span.Apart := by
  have hroles := apart_regions hc (hasRole_disjoint [role, role'] (by simpa using h))
  refine hroles.sublist ?_
  rw [List.map_cons, ← List.singleton_append, regions_append]
  exact partSpans_sublist.append partSpans_sublist

/-- A node around terms that stand in parts of it. -/
theorem Fits.inRoles {ts : List Term} {kind : Kind} {loc : Loc} (roles : List Role)
    (hc : c.Stands source) (hroles : roles.Nodup)
    (h : Fits source (regions c (roles.map hasRole)) ts) :
    (Term.node kind c.span loc ts).PlacedIn source c.span := h.inNode hc (hasRole_disjoint roles hroles)

end

/-! ## what computations give -/

/-- It holds of whatever comes of the computation. -/
def Gives {α : Type} (p : Arrange α) (Q : α → Prop) : Prop :=
  ∀ s a s', p.run s = .ok (a, s') → Q a

namespace Gives

variable {α β : Type} {p : Arrange α} {k : α → Arrange β} {P : α → Prop} {Q : β → Prop}

theorem pure {a : α} (h : P a) : Gives (Pure.pure a) P := by
  intro s b s' hb
  cases hb
  exact h

theorem bind (hp : Gives p P) (hk : ∀ a, P a → Gives (k a) Q) : Gives (p >>= k) Q := by
  intro s b s'' hb
  obtain ⟨a, s', ha, hb⟩ := Layout.run_bind_eq_ok.1 hb
  exact hk a (hp s a s' ha) s' b s'' hb

theorem imp {P' : α → Prop} (hp : Gives p P) (h : ∀ a, P a → P' a) : Gives p P' :=
  fun s a s' ha => h a (hp s a s' ha)

theorem map {f : α → β} (hp : Gives p P) (h : ∀ a, P a → Q (f a)) : Gives (f <$> p) Q := by
  rw [map_eq_pure_bind]
  exact hp.bind fun a ha => .pure (h a ha)

theorem fail {e : LayoutError} : Gives (throw e : Arrange α) P := fun _ _ _ h => nomatch h

theorem any (p : Arrange α) : Gives p fun _ => True := fun _ _ _ _ => trivial

theorem inScope {isClosed : Bool} (hp : Gives p P) : Gives (Ruby.inScope isClosed p) P := by
  refine (any _).bind fun _ _ => hp.bind fun a ha => ?_
  exact (any _).bind fun _ _ => .pure ha

theorem mapM {γ : Type} {R : γ → α → Prop} {f : γ → Arrange α} {cs : List γ}
    (hf : ∀ c ∈ cs, Gives (f c) (R c)) : Gives (cs.mapM f) fun as => List.Forall₂ R cs as := by
  induction cs with
  | nil => exact .pure .nil
  | cons c cs ih =>
    rw [List.mapM_cons]
    refine (hf c List.mem_cons_self).bind fun a ha => ?_
    exact (ih fun d hd => hf d (List.mem_cons_of_mem c hd)).bind fun as has => .pure (.cons ha has)

theorem filterMapM {γ : Type} {cs : List Char} {spanOf : γ → Span} {f : γ → Arrange (Option Term)}
    {xs : List γ} (hf : ∀ x ∈ xs, Gives (f x) fun o => Fits cs [spanOf x] o.toList) :
    Gives (xs.filterMapM f) (Fits cs (xs.map spanOf)) := by
  induction xs with
  | nil => exact .pure .nil
  | cons x xs ih =>
    rw [List.filterMapM_cons]
    refine (hf x List.mem_cons_self).bind fun o ho => ?_
    have hrest := ih fun y hy => hf y (List.mem_cons_of_mem x hy)
    cases o with
    | none => exact hrest.imp fun ts hts => ho.append hts
    | some t => exact hrest.bind fun ts hts => .pure (ho.append hts)

end Gives

namespace Layout

/-! ## parts and statements -/

section
variable {l : Layout} {c d : Concrete} {ts : List Term} {t : Term} {p : Concrete → Bool}

/-- Sound parts are laid out inside themselves. -/
def PlacesParts (l : Layout) : Prop :=
  ∀ d : Concrete, d.Sound l.source → Gives (l.below d) (Term.PlacedIn l.source d.span)

variable (hl : l.PlacesParts) (hc : c.Sound l.source)
include hl hc

omit hl in
theorem mapM_gives {f : Concrete → Arrange Term} {ds : List Concrete}
    (hf : ∀ d : Concrete, d.Sound l.source → Gives (f d) (Term.PlacedIn l.source d.span))
    (hds : ∀ d ∈ ds, d ∈ c.children) :
    Gives (ds.mapM f) (FitEach l.source (ds.map Concrete.span)) :=
  (Gives.mapM fun d hd => hf d (hc.child (hds d hd))).imp fun _ h => List.forall₂_map_left_iff.2 h

theorem all_gives {ds : List Concrete} (hds : ∀ d ∈ ds, d ∈ c.children) :
    Gives (l.all ds) (FitEach l.source (ds.map Concrete.span)) := mapM_gives hc hl hds

theorem filtered_gives (p : Concrete → Bool) :
    Gives (l.all (c.children.filter p)) (Fits l.source (regions c [p])) := by
  exact (all_gives hl hc fun d hd => (List.mem_filter.1 hd).1).imp fun ts h => h.fits.filtered

theorem wrap_gives (kind : Kind) : Gives (l.wrap kind c) (Term.PlacedIn l.source c.span) :=
  (filtered_gives hl hc isNamed).map fun _ h => h.inNode hc.stands (List.pairwise_singleton _ _)

theorem part_gives (role : Role) :
    Gives (l.part c role) fun o => Fits l.source (partSpans c role) o.toList := by
  unfold part partSpans
  cases h : c.part? role with
  | none => exact .pure .nil
  | some d =>
    have hd := Concrete.mem_children_of_part? h
    exact (hl d (hc.child hd)).map fun t ht => .one ht

theorem statements_gives {ds : List Concrete} (hds : ds.Sublist c.children) :
    Gives (l.statements ds) fun o => Fits l.source [c.span] o.toList := by
  refine (all_gives hl hc fun d hd => hds.subset hd).map fun ts h => ?_
  cases ht : sequenceTerm ts with
  | none => exact .sublist .nil (List.nil_sublist _)
  | some t =>
    exact .one (h.sequence (hc.stands.ordered.sublist (hds.map _))
      (List.forall_mem_map.2 fun d hd => hc.stands.inside d (hds.subset hd)) ht)

omit hl hc in
theorem option_gives {p : Option Concrete → Arrange (Option Term)} (hnone : p none = pure none)
    (hsome : ∀ d, d.Sound l.source → Gives (p (some d)) fun o => Fits l.source [d.span] o.toList)
    {o : Option Concrete} (ho : ∀ d ∈ o, d.Sound l.source) :
    Gives (p o) fun t => Fits l.source (o.toList.map Concrete.span) t.toList := by
  cases o with
  | none =>
    rw [hnone]
    exact .pure .nil
  | some d => exact hsome d (ho d rfl)

omit hl in
theorem leaf_placed {kind : Kind} {loc : Loc} (vs : List Value) :
    (Term.node kind c.span loc (vs.map Term.value)).PlacedIn l.source c.span := by
  have h : Fits l.source [] (vs.map Term.value ++ []) := Fits.nil.values vs
  rw [List.append_nil] at h
  exact h.inRoles [] hc.stands .nil

omit hl in
theorem sound_of_part? {role : Role} : ∀ d ∈ c.part? role, d.Sound l.source :=
  fun _ hd => hc.child (Concrete.mem_children_of_part? hd)

omit hc in
theorem statementsOf_gives (d : Concrete) (hd : d.Sound l.source) :
    Gives (l.statementsOf (some d)) fun o => Fits l.source [d.span] o.toList :=
  statements_gives hl hd List.filter_sublist

theorem statementsOf_part_gives (role : Role) : Gives (l.statementsOf (c.part? role))
    fun o => Fits l.source (partSpans c role) o.toList :=
  option_gives rfl (statementsOf_gives hl) (sound_of_part? hc)

end

end Layout

end Ruby

end RubyLint
