import Mathlib.Data.List.Nodup
import RubyLint.Proofs.Layout.Placement

/-!
# Placed parameters, calls and operators

The parameters of a method or a block, the parts of a call in the order in which they stand, and the block
around it.

* `callSpan_placed`   the span of a call, up to its block;
* `block_gives`       a block, with the call in front of it;
* `call_gives`        a call.
-/

namespace RubyLint.Ruby.Layout

open Text (isBoundary)

section
variable {l : Layout} {c d : Concrete} {rs : List Span} {ts : List Term} {t : Term}
variable (hl : l.PlacesParts) (hc : c.Sound l.source)

/-! ## parameters -/

include hl

theorem parameter_gives {c : Concrete} (hc : c.Sound l.source) :
    Gives (l.parameter c) (Term.PlacedIn l.source c.span) := by
  induction c using Concrete.ind with
  | h c ih =>
    rw [parameter.eq_def]
    extract_lets name rest
    have hname : ∀ (roles : List Role) {ts : List Term} {kind : Kind}, roles.Nodup →
        Fits l.source (regions c (roles.map hasRole)) ts →
        (plainTerm kind c.span (nameChild name ++ ts)).PlacedIn l.source c.span := by
      intro roles ts kind hroles h
      rw [nameChild_eq]
      exact (h.values _).inRoles _ hc.stands hroles
    have hplain : ∀ {kind}, (plainTerm kind c.span (nameChild name)).PlacedIn l.source c.span := by
      intro kind
      have h : (plainTerm kind c.span (nameChild name ++ [])).PlacedIn l.source c.span := hname [] .nil .nil
      rwa [List.append_nil] at h
    have hrest : ∀ u, Gives (rest u) (Term.PlacedIn l.source c.span) := by
      intro u
      unfold rest
      cases hk : c.construct with
      | identifier => exact (Gives.any _).bind fun _ _ => .pure (leaf_placed hc [.sym _])
      | optionalParameter =>
        refine (part_gives hl hc .value).bind fun value hvalue => .pure ?_
        exact hname [_] (List.nodup_singleton _) hvalue.region.orNil
      | keywordParameter =>
        refine (part_gives hl hc .value).bind fun value hvalue => ?_
        cases value with
        | some value => exact .pure (hname [_] (List.nodup_singleton _) hvalue.region)
        | none => exact .pure hplain
      | destructuredParameter =>
        let spanOf := fun x : { d // d ∈ c.children } => x.1.span
        refine Gives.bind (P := Fits l.source (c.children.attach.map spanOf))
          (Gives.filterMapM ?_) fun ts hts => .pure ?_
        · rintro ⟨d, hd⟩ -
          show Gives (if d.isPassedOver then _ else _) _
          split
          · exact .pure (Fits.nil.sublist (List.nil_sublist _))
          · exact (ih d hd (hc.child hd)).map fun t ht => .one ht
        rw [List.attach_map_val (f := Concrete.span)] at hts
        exact hts.node hc.stands.cuts (List.forall_mem_map.2 hc.stands.inside) hc.stands.ordered.apart
      | _ => exact .pure hplain
    cases name with
    | none => exact hrest ()
    | some n => exact (Gives.any _).bind fun _ _ => hrest ()

theorem parameters_gives (c : Concrete) (hc : c.Sound l.source) :
    Gives (l.parameters c) (Term.PlacedIn l.source c.span) := by
  refine (mapM_gives hc (fun d => parameter_gives hl) fun d hd => ?_).bind fun ts hts => .pure ?_
  · exact Concrete.mem_children_of_named hd
  · exact hts.fits.filtered.inNode hc.stands (List.pairwise_singleton _ _)

def parametersSpan (offset : Nat) (o : Option Concrete) : Span := o.elim (.empty offset) Concrete.span

theorem parametersOr_gives {offset : Nat} {o : Option Concrete}
    (hoffset : isBoundary l.source offset = true) (ho : ∀ d ∈ o, d.Sound l.source) :
    Gives (l.parametersOr offset o) (Term.PlacedIn l.source (parametersSpan offset o)) := by
  cases o with
  | none =>
    exact .pure (Fits.nil.node ⟨Nat.le_refl _, hoffset, hoffset⟩ (fun _ h => absurd h List.not_mem_nil) .nil)
  | some d => exact parameters_gives hl d (ho d rfl)

/-! ## calls -/

theorem pairsHash_gives (hc : c.Sound l.source) {front pairs back : List Concrete}
    (hnamed : c.named = front ++ (pairs ++ back)) : Gives (l.pairsHash pairs) fun ts =>
      ∃ rs, Fits l.source rs ts ∧
        Span.InOrder (front.map Concrete.span ++ (rs ++ back.map Concrete.span)) ∧
        ∀ r ∈ rs, c.span.contains r = true := by
  have hsub : c.named.Sublist c.children := List.filter_sublist
  have hordered := hc.stands.ordered.sublist (hsub.map Concrete.span)
  rw [hnamed, List.map_append, List.map_append] at hordered
  cases pairs with
  | nil => exact .pure ⟨[], .nil, hordered, fun _ h => absurd h List.not_mem_nil⟩
  | cons p ps =>
    have hps : ∀ d ∈ p :: ps, d ∈ c.children := fun d hd => hsub.subset
      (hnamed ▸ List.mem_append_right _ (List.mem_append_left _ hd))
    have hspan : p.span.join ((ps.getLast?.getD p).span) = hull p.span (ps.map Concrete.span) := by
      rw [hull, List.getLast?_map]
      cases ps.getLast? <;> rfl
    have hin : ∀ s ∈ (p :: ps).map Concrete.span, c.span.contains s = true :=
      List.forall_mem_map.2 fun d hd => hc.stands.inside d (hps d hd)
    have hcuts : ∀ s ∈ (p :: ps).map Concrete.span, s.Cuts l.source :=
      List.forall_mem_map.2 fun d hd => (hc.child (hps d hd)).stands.cuts
    have hpairs : Span.InOrder (p.span :: ps.map Concrete.span) :=
      (List.pairwise_append.1 (List.pairwise_append.1 hordered).2.1).1
    refine (all_gives hl hc hps).bind fun ts hts => .pure ⟨[hull p.span (ps.map Concrete.span)], ?_,
      InOrder.hull hordered, List.forall_mem_singleton.2 (hull_inside hin)⟩
    rw [hspan]
    refine .one (hts.fits.node (hull_cuts hcuts) ?_ hpairs.apart)
    exact hull_contains hpairs fun s hs => (hcuts s hs).le

theorem arguments_gives (d : Concrete) (hd : d.Sound l.source) :
    Gives (l.arguments (some d)) (Fits l.source [d.span]) := by
  unfold arguments
  have hcut := splitArguments_eq ((some d).elim [] Concrete.named)
  generalize splitArguments ((some d).elim [] Concrete.named) = cut at hcut ⊢
  obtain ⟨plain, pairs, rest⟩ := cut
  replace hcut : plain ++ (pairs ++ rest) = d.named := hcut
  have hchild : ∀ e ∈ plain ++ (pairs ++ rest), e ∈ d.children := fun e he =>
    Concrete.mem_children_of_named (hcut ▸ he)
  rw [List.forall_mem_append, List.forall_mem_append] at hchild
  refine (all_gives hl hd hchild.1).bind fun front hfront => ?_
  refine (pairsHash_gives hl hd hcut.symm).bind fun hash ⟨rs, hhash, hordered, hin⟩ => ?_
  refine (all_gives hl hd hchild.2.2).bind fun back hback => .pure ?_
  rw [List.append_assoc]
  refine (hfront.fits.append (hhash.append hback.fits)).group hordered.apart ?_
  have hspans : ∀ {ds : List Concrete}, (∀ e ∈ ds, e ∈ d.children) →
      ∀ r ∈ ds.map Concrete.span, d.span.contains r = true := fun hds =>
    List.forall_mem_map.2 fun e he => hd.stands.inside e (hds e he)
  exact List.forall_mem_append.2 ⟨hspans hchild.1,
    List.forall_mem_append.2 ⟨hin, hspans hchild.2.2⟩⟩

omit hl

theorem role_ne_of_part? {role : Role} (h : c.part? role = none) (hd : d ∈ c.children) :
    d.role ≠ role := fun heq => List.find?_eq_none.1 h d hd (beq_iff_eq.2 heq)

/-- The last part of a call, its block apart. -/
def lastPart? (c : Concrete) : Option Concrete :=
  c.part? .arguments <|> c.part? .method <|> c.part? .operator

theorem lastPart?_cases (h : lastPart? c = some d) : c.part? .arguments = some d ∨
    c.part? .arguments = none ∧ (c.part? .method = some d ∨ c.part? .operator = some d) := by
  simp only [lastPart?, Option.orElse_eq_orElse, Option.orElse_eq_or, Option.or_eq_some_iff] at h
  exact h.imp_right fun ⟨hnone, h⟩ => ⟨hnone, h.imp_right And.right⟩

theorem rank_of_lastPart? (h : lastPart? c = some d) :
    d ∈ c.children ∧ 0 < d.role.rank ∧ d.role.rank < 4 := by
  rcases lastPart?_cases h with h | ⟨-, h | h⟩ <;>
    exact ⟨Concrete.mem_children_of_part? h, by rw [Concrete.role_of_part? h]; decide⟩

/-- A call without its block ends behind its receiver and its arguments, and in front of the block. -/
structure CallSpan (source : List Char) (c : Concrete) : Prop where
  cuts : (callSpan c).Cuts source
  inside : c.span.contains (callSpan c) = true
  parts : ∀ r ∈ partSpans c .receiver ++ partSpans c .arguments, (callSpan c).contains r = true
  block : ∀ b ∈ c.part? .block, (callSpan c).stop ≤ b.span.start

include hc in
theorem callSpan_eq : callSpan c = ⟨c.span.start, ((lastPart? c).map fun d => d.span.stop).getD c.span.stop⟩ := by
  have hstop : ((lastPart? c).elim c.span.stop fun d => d.span.stop) ≤ c.span.stop := by
    cases hlast : lastPart? c with
    | none => exact Nat.le_refl _
    | some d => exact (Span.contains_iff.1 (hc.stands.inside d (rank_of_lastPart? hlast).1)).2
  show (⟨c.span.start, min ((lastPart? c).elim c.span.stop fun d => d.span.stop) c.span.stop⟩ : Span) = _
  rw [Nat.min_eq_left hstop]
  cases lastPart? c <;> rfl

include hc in
/-- a call of nothing but what is called on is the whole node -/
theorem callSpan_placed_of_none (hcall : c.IsCall) (hlast : lastPart? c = none) :
    CallSpan l.source c := by
  have hspan := callSpan_eq hc
  rw [hlast] at hspan
  replace hspan : callSpan c = c.span := hspan
  simp only [lastPart?, Option.orElse_eq_orElse, Option.orElse_eq_or, Option.or_eq_none_iff] at hlast
  obtain ⟨harguments, hmethod, hoperator⟩ := hlast
  refine ⟨hspan ▸ hc.stands.cuts, hspan ▸ Span.contains_refl _, fun r hr => ?_, fun b hb => ?_⟩
  · rcases List.mem_append.1 hr with hr | hr <;> obtain ⟨d, hd, rfl⟩ := mem_partSpans.1 hr <;>
      exact hspan ▸ hc.stands.inside d (Concrete.mem_children_of_part? hd)
  · obtain ⟨d, hd, hrole⟩ := hcall.called (by rw [hb]; rfl)
    simp only [List.mem_cons, List.not_mem_nil, or_false] at hrole
    rcases hrole with hrole | hrole | hrole
    · exact absurd hrole (role_ne_of_part? hoperator hd)
    · exact absurd hrole (role_ne_of_part? hmethod hd)
    · exact absurd hrole (role_ne_of_part? harguments hd)

include hc in
/-- a call ends where its last part does, and the grammar has the block behind that -/
theorem callSpan_placed_of_last {last : Concrete} (hcall : c.IsCall) (hlast : lastPart? c = some last) :
    CallSpan l.source c := by
  have hspan := callSpan_eq hc
  rw [hlast] at hspan
  replace hspan : callSpan c = ⟨c.span.start, last.span.stop⟩ := hspan
  have hin : ∀ {d : Concrete}, d ∈ c.children → c.span.start ≤ d.span.start ∧ d.span.stop ≤ c.span.stop :=
    fun hd => Span.contains_iff.1 (hc.stands.inside _ hd)
  obtain ⟨hmem, hpos, hlt⟩ := rank_of_lastPart? hlast
  have hrole : last.role ∈ callRoles :=
    List.idxOf_lt_length_iff.1 (Nat.lt_trans hlt (by decide : 4 < callRoles.length))
  have hends := hin hmem
  have hcuts := (hc.child hmem).stands.cuts
  have hle := hcuts.le
  refine ⟨?_, ?_, fun r hr => ?_, fun b hb => ?_⟩
  · rw [hspan]
    exact ⟨by show c.span.start ≤ last.span.stop; omega, hc.stands.cuts.start, hcuts.stop⟩
  · rw [hspan]
    exact Span.contains_iff.2 ⟨Nat.le_refl _, hends.2⟩
  · rw [hspan]
    rcases List.mem_append.1 hr with hr | hr <;> obtain ⟨d, hd, rfl⟩ := mem_partSpans.1 hr
    · have hmemd := Concrete.mem_children_of_part? hd
      have hbefore := hcall.stop_le_start hc.stands.toIsLaidOut hmemd hmem
        (by rw [Concrete.role_of_part? hd]; exact hpos) hrole
      refine Span.contains_iff.2 ⟨(hin hmemd).1, ?_⟩
      show d.span.stop ≤ last.span.stop
      omega
    · obtain rfl : d = last := by
        rcases lastPart?_cases hlast with h | ⟨hnone, -⟩
        · exact Option.some.inj (hd.symm.trans h)
        · exact absurd (hd.symm.trans hnone) nofun
      exact Span.contains_iff.2 ⟨hends.1, Nat.le_refl _⟩
  · rw [hspan]
    have hblock := Concrete.role_of_part? hb
    refine hcall.stop_le_start hc.stands.toIsLaidOut hmem (Concrete.mem_children_of_part? hb) ?_ ?_
    · rw [hblock]
      exact hlt
    · rw [hblock]
      decide

include hc in
theorem callSpan_placed (hcall : c.IsCall) : CallSpan l.source c := by
  cases hlast : lastPart? c with
  | none => exact callSpan_placed_of_none hc hcall hlast
  | some last => exact callSpan_placed_of_last hc hcall hlast

theorem part?_or_find? {role : Role} {p : Concrete → Bool}
    (h : (c.part? role <|> c.named.find? p) = some d) : c.part? role = some d ∨ p d = true := by
  cases hpart : c.part? role with
  | some e =>
    rw [hpart] at h
    exact .inl h
  | none =>
    rw [hpart] at h
    have h := List.find?_some h
    exact .inr h

/-- The parameters and the body of a block are different parts of it. -/
theorem parts_of_block {b : Concrete} (hb : b.IsBlock) :
    (∀ d ∈ blockParameters? b, d ∈ b.named ∧ d.construct = .blockParameters) ∧
      ∀ d ∈ blockBody? b, d ∈ b.named ∧ d.construct ≠ .blockParameters := by
  have hnamed : ∀ {d}, d ∈ b.children → d.construct ∈ [.blockParameters, .blockBody, .bodyStatement] →
      d ∈ b.named := by
    intro d hd hk
    refine List.mem_filter.2 ⟨hd, ?_⟩
    simp only [List.mem_cons, List.not_mem_nil, or_false] at hk
    rcases hk with hk | hk | hk <;> simp [Concrete.isPassedOver, Concrete.isToken, hk, Construct.isSkipped]
  constructor
  · intro d hd
    have hmem := Concrete.mem_of_part?_or_find? hd
    have hk : d.construct = .blockParameters :=
      (part?_or_find? hd).elim (hb.parameters d) fun h => beq_iff_eq.1 h
    exact ⟨hnamed hmem (hk ▸ List.mem_cons_self), hk⟩
  · intro d hd
    have hmem := Concrete.mem_of_part?_or_find? hd
    have hk : d.construct ∈ [.blockBody, .bodyStatement] := by
      refine (part?_or_find? hd).elim (hb.body d) fun h => ?_
      simpa using h
    exact ⟨hnamed hmem (List.mem_cons_of_mem _ hk), fun heq => absurd (heq ▸ hk) (by decide)⟩

/-- The spans of the parameters and of the body of a block that is open from an offset on. -/
def blockSpans (start : Nat) (b : Concrete) : List Span :=
  parametersSpan start (blockParameters? b) :: (blockBody? b).toList.map Concrete.span

theorem blockSpans_placed {source : List Char} {b : Concrete} {start : Nat} (hb : b.Stands source)
    (hblock : b.IsBlock) (hstart : start ≤ b.span.stop)
    (hbehind : ∀ d ∈ b.named, start ≤ d.span.start) :
    (∀ r ∈ blockSpans start b, start ≤ r.start ∧ r.stop ≤ b.span.stop) ∧
      (blockSpans start b).Pairwise Span.Apart := by
  obtain ⟨hparameters, hbody⟩ := parts_of_block hblock
  have hchild : ∀ {d : Concrete}, d ∈ b.named → start ≤ d.span.start ∧ d.span.stop ≤ b.span.stop :=
    fun hd => ⟨hbehind _ hd,
      (Span.contains_iff.1 (hb.inside _ (Concrete.mem_children_of_named hd))).2⟩
  have hone : ((blockBody? b).toList.map Concrete.span).Pairwise Span.Apart := by
    cases blockBody? b <;> simp
  refine ⟨List.forall_mem_cons.2 ⟨?_, List.forall_mem_map.2 fun d hd => ?_⟩,
    List.pairwise_cons.2 ⟨List.forall_mem_map.2 fun d hd => ?_, hone⟩⟩
  · cases ho : blockParameters? b with
    | none => exact ⟨Nat.le_refl _, hstart⟩
    | some d => exact hchild (hparameters d ho).1
  · exact hchild (hbody d (Option.mem_toList.1 hd)).1
  · obtain ⟨hd, hk⟩ := hbody d (Option.mem_toList.1 hd)
    cases ho : blockParameters? b with
    | none => exact .inl (hbehind d hd)
    | some e =>
      obtain ⟨he, hk'⟩ := hparameters e ho
      exact hb.apart (Concrete.mem_children_of_named he) (Concrete.mem_children_of_named hd)
        fun heq => hk (heq ▸ hk')

include hl in
/-- the parameters and the body of a block stand behind what opens it, the call in front -/
theorem block_gives {b : Concrete} (hb : b.Sound l.source) (hrole : b.role = .block) {call : Term}
    {r span : Span} (hcall : call.PlacedIn l.source r) (hspan : span.Cuts l.source)
    (hr : span.contains r = true) (hin : span.contains b.span = true)
    (hbefore : r.stop ≤ b.span.start) :
    Gives (l.block span call b) (Term.PlacedIn l.source span) := by
  have hblock := hb.stands.block hrole
  obtain ⟨opener, hopener, ⟨rest, htext⟩, hbehind⟩ := hb.stands.opened hrole
  obtain ⟨hparameters, hbody⟩ := parts_of_block hblock
  unfold block
  have hlength : (if (l.text b).head? = some '{' then ((1, 1) : Nat × Nat) else (2, 3)).1 =
      Text.byteLength opener := by
    have htext : l.text b = opener ++ rest := by
      rw [Layout.text, textAt, htext]
      rfl
    rw [htext]
    simp only [List.mem_cons, List.not_mem_nil, or_false] at hopener
    rcases hopener with rfl | rfl <;> rfl
  generalize (if (l.text b).head? = some '{' then ((1, 1) : Nat × Nat) else (2, 3)) = ends at hlength ⊢
  obtain ⟨openLength, closeLength⟩ := ends
  obtain rfl : openLength = Text.byteLength opener := hlength
  dsimp -zeta only
  extract_lets start noLoc
  have hstart : isBoundary l.source start = true := htext.isBoundary _ _
  have hstop : start ≤ b.span.stop := by
    have hstop := htext.stop_eq
    rw [Text.byteLength_append] at hstop
    omega
  have hargs := parametersOr_gives hl hstart fun d hd =>
    hb.child (Concrete.mem_children_of_named (hparameters d hd).1)
  have hstatements := option_gives (o := blockBody? b) rfl (statementsOf_gives hl)
    fun d hd => hb.child (Concrete.mem_children_of_named (hbody d hd).1)
  refine Gives.bind (P := fun r => r.1.PlacedIn l.source (parametersSpan start (blockParameters? b)) ∧
    Fits l.source ((blockBody? b).toList.map Concrete.span) r.2.toList) ?_ fun r hr => .pure ?_
  · exact .inScope (hargs.bind fun args hargs => hstatements.bind fun body hbody => .pure ⟨hargs, hbody⟩)
  · have hin := Span.contains_iff.1 hin
    have hopen : b.span.start ≤ start := Nat.le_add_right _ _
    obtain ⟨hinside, hapart⟩ := blockSpans_placed hb.stands hblock hstop hbehind
    refine (Fits.cons hcall (.cons hr.1 hr.2.orNil)).node hspan ?_ ?_
    · refine List.forall_mem_cons.2 ⟨‹_›, fun s hs => Span.contains_iff.2 ?_⟩
      have hs := hinside s hs
      omega
    · refine List.pairwise_cons.2 ⟨fun s hs => .inl ?_, hapart⟩
      have hs := hinside s hs
      omega

include hl hc in
theorem call_gives (hcall : c.IsCall) :
    Gives (l.call c) (Term.PlacedIn l.source c.span) := by
  have hspan := callSpan_placed hc hcall
  unfold call
  extract_lets isSuper rest name
  have hrest : ∀ {call : Term}, call.PlacedIn l.source (callSpan c) →
      Gives (rest call) (Term.PlacedIn l.source c.span) := by
    intro call h
    unfold rest
    cases hpart : c.part? .block with
    | some b =>
      have hb := Concrete.mem_children_of_part? hpart
      exact block_gives hl (hc.child hb) (Concrete.role_of_part? hpart) h hc.stands.cuts hspan.inside
        (hc.stands.inside b hb) (hspan.block b hpart)
    | none => exact .pure (h.mono hspan.inside)
  have hargs : Gives (l.arguments (c.part? .arguments)) (Fits l.source (partSpans c .arguments)) := by
    unfold partSpans
    cases hpart : c.part? .arguments with
    | some d => exact arguments_gives hl d (hc.child (Concrete.mem_children_of_part? hpart))
    | none => exact .pure .nil
  have hnode : ∀ {kind loc ts}, Fits l.source (partSpans c .receiver ++ partSpans c .arguments) ts →
      (Term.node kind (callSpan c) loc ts).PlacedIn l.source (callSpan c) := fun h =>
    h.node hspan.cuts hspan.parts (partSpans_apart hc.stands (by decide))
  show Gives (if isSuper then _ else _) _
  split
  · refine Gives.bind (hargs.map fun ts hts => ?_) fun call h => hrest h
    exact hnode (hts.sublist (List.sublist_append_right _ _))
  · refine (part_gives hl hc .receiver).bind fun receiver hreceiver => ?_
    refine hargs.bind fun args hargs => ?_
    rw [pure_bind]
    exact hrest (hnode (hreceiver.orNil.append (hargs.value _)))

include hl hc

theorem indices_gives : Gives (l.all (indices c))
    (Fits l.source (regions c [fun d => d.role != .object && isNamed d])) := by
  have hindices : indices c = c.children.filter fun d => d.role != .object && isNamed d :=
    List.filter_filter
  rw [hindices]
  exact filtered_gives hl hc _

omit hl hc in
theorem disjoint_object : List.Pairwise (fun p q : Concrete → Bool => ∀ d, p d = true → q d = false)
    [hasRole .object, fun d => d.role != .object && isNamed d] := by
  refine List.pairwise_pair.2 fun d hd => ?_
  rw [beq_iff_eq.1 hd]
  rfl

theorem elementReference_gives : Gives (l.elementReference c) (Term.PlacedIn l.source c.span) := by
  refine (part_gives hl hc .object).bind fun object hobject => ?_
  refine (indices_gives hl hc).bind fun ts hts => .pure ?_
  exact (hobject.region.orNil.parts (hts.value _)).inNode hc.stands disjoint_object

/-! ## operators -/

theorem binary_gives : Gives (l.binary c) (Term.PlacedIn l.source c.span) := by
  refine (part_gives hl hc .left).bind fun left hleft => ?_
  refine (part_gives hl hc .right).bind fun right hright => ?_
  have hroles : [Role.left, .right].Nodup := by decide
  have hleft := hleft.region.orNil
  have hright := hright.region.orNil
  have hboth := hleft.parts hright
  extract_lets op node both isRegexp
  split
  · exact .pure (hboth.inRoles _ hc.stands hroles)
  split
  · exact .pure (hboth.inRoles _ hc.stands hroles)
  split
  · exact .pure (hboth.inRoles _ hc.stands hroles)
  · exact .pure ((hleft.parts (hright.value _)).inRoles _ hc.stands hroles)

omit hl in
theorem negativeNumber?_placed (h : l.negativeNumber? c = some t) : t.PlacedIn l.source c.span := by
  unfold negativeNumber? at h
  split at h
  · split at h
    · split at h
      · obtain ⟨n, -, rfl⟩ := Option.map_eq_some_iff.1 h
        exact leaf_placed hc [.int _]
      · obtain ⟨x, -, rfl⟩ := Option.map_eq_some_iff.1 h
        exact leaf_placed hc [.float _]
      · cases h
    · cases h
  · cases h

theorem unary_gives : Gives (l.unary c) (Term.PlacedIn l.source c.span) := by
  unfold unary
  cases hnumber : l.negativeNumber? c with
  | some t => exact .pure (negativeNumber?_placed hc hnumber)
  | none =>
    refine (part_gives hl hc .operand).bind fun operand hoperand => ?_
    have hroles : [Role.operand].Nodup := List.nodup_singleton _
    have hoperand := hoperand.region.orNil
    extract_lets op loc
    split
    · exact .pure (hoperand.inRoles _ hc.stands hroles)
    · exact .pure ((hoperand.snoc _).inRoles _ hc.stands hroles)

theorem range_gives : Gives (l.range c) (Term.PlacedIn l.source c.span) := by
  refine (part_gives hl hc .lower).bind fun lower hlower => ?_
  refine (part_gives hl hc .upper).bind fun upper hupper => .pure ?_
  exact (hlower.region.orNil.parts hupper.region.orNil).inRoles [.lower, .upper] hc.stands (by decide)

end

end RubyLint.Ruby.Layout
