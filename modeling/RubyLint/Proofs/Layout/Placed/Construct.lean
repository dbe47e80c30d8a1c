import RubyLint.Proofs.Layout.Placed.Assignment
import RubyLint.Proofs.Layout.Placed.Literal

/-!
# The layouts of sound nodes are placed

One lemma for each construct: the term that is laid out stands inside the node.

* `node_gives`        the layout of a sound node stands inside it, if those of its parts do;
* `rootTerm_placed`   so does that of a text.
-/

namespace RubyLint.Ruby.Layout

open Text (isBoundary)

section
variable {l : Layout} {c d : Concrete} {rs : List Span} {ts : List Term} {t : Term}
variable (hl : l.PlacesParts) (hc : c.Sound l.source)

/-! ## names, conditions and loops -/

include hc in
theorem identifier_gives : Gives (l.identifier c) (Term.PlacedIn l.source c.span) := by
  refine (Gives.any _).bind fun scopes _ => ?_
  show Gives (if _ then _ else _) _
  split
  · exact .pure (leaf_placed hc [.sym _])
  · exact .pure (leaf_placed hc [.nil, .sym _])

include hl hc

theorem scopeResolution_gives (hroot : c.part? .scope = none →
    ∃ rest, Covers l.source c.span (':' :: ':' :: rest)) :
    Gives (l.scopeResolution c) (Term.PlacedIn l.source c.span) := by
  unfold scopeResolution
  cases hpart : c.part? .scope with
  | some d =>
    have hd := hc.child (Concrete.mem_children_of_part? hpart)
    refine (hl d hd).bind fun scope hscope => .pure ?_
    have hscope : Fits l.source (partSpans c .scope) [scope] := partSpans_eq hpart ▸ .one hscope
    exact (hscope.region.snoc (.sym _)).inRoles [.scope] hc.stands (List.nodup_singleton _)
  | none =>
    obtain ⟨rest, htext⟩ := hroot hpart
    have hstop := htext.stop_eq
    have hboundary := htext.isBoundary [':', ':'] rest
    show Gives (pure _ >>= _) _
    rw [pure_bind]
    refine .pure ((Fits.one (r := ⟨c.span.start, c.span.start + 2⟩) ?_).snoc (.sym _) |>.node
      hc.stands.cuts (List.forall_mem_singleton.2 ?_) (List.pairwise_singleton _ _))
    · exact Fits.nil.node ⟨Nat.le_add_right _ 2, hc.stands.cuts.start, hboundary⟩
        (fun _ h => absurd h List.not_mem_nil) .nil
    · refine Span.contains_iff.2 ⟨Nat.le_refl _, ?_⟩
      have hcolons : Text.byteLength (':' :: ':' :: rest) = 1 + (1 + Text.byteLength rest) := rfl
      show c.span.start + 2 ≤ c.span.stop
      omega

theorem branch_gives (role : Role) :
    Gives (l.branch (c.part? role)) fun o => Fits l.source (partSpans c role) o.toList := by
  refine option_gives rfl (fun d hd => ?_) (sound_of_part? hc)
  show Gives (if d.construct = .elsifBranch then _ else _) _
  split
  · exact (hl d hd).map fun t ht => .one ht
  · exact statementsOf_gives hl d hd

theorem conditional_gives (negated : Bool) :
    Gives (l.conditional c negated) (Term.PlacedIn l.source c.span) := by
  unfold conditional
  refine (part_gives hl hc .condition).bind fun condition hcondition => ?_
  refine (branch_gives hl hc .consequence).bind fun yes hyes => ?_
  refine (branch_gives hl hc .alternative).bind fun no hno => .pure ?_
  have hcondition := hcondition.region.orNil
  have hyes := hyes.region.orNil
  have hno := hno.region.orNil
  split
  · exact (hcondition.parts (hno.parts hyes)).inRoles [.condition, .alternative, .consequence] hc.stands
      (by decide)
  · exact (hcondition.parts (hyes.parts hno)).inRoles [.condition, .consequence, .alternative] hc.stands
      (by decide)

theorem modifier_gives (negated : Bool) :
    Gives (l.modifier c negated) (Term.PlacedIn l.source c.span) := by
  unfold modifier
  refine (part_gives hl hc .body).bind fun body hbody => ?_
  refine (part_gives hl hc .condition).bind fun condition hcondition => .pure ?_
  have hroles : [Role.condition, .body].Nodup := by decide
  have hcondition := hcondition.region.orNil
  have hbody := hbody.region.orNil
  split
  · exact (hcondition.parts (hbody.value .nil)).inRoles _ hc.stands hroles
  · exact (hcondition.parts (hbody.snoc .nil)).inRoles _ hc.stands hroles

theorem loop_gives (kind : Kind) : Gives (l.loop c kind) (Term.PlacedIn l.source c.span) := by
  unfold loop
  refine (part_gives hl hc .condition).bind fun condition hcondition => ?_
  refine (statementsOf_part_gives hl hc .body).bind fun body hbody => .pure ?_
  exact (hcondition.region.orNil.parts hbody.region.orNil).inRoles [.condition, .body] hc.stands (by decide)

theorem loopModifier_gives (kind : Kind) :
    Gives (l.loopModifier c kind) (Term.PlacedIn l.source c.span) := by
  unfold loopModifier
  refine (part_gives hl hc .body).bind fun body hbody => ?_
  refine (part_gives hl hc .condition).bind fun condition hcondition => .pure ?_
  exact (hcondition.region.orNil.parts hbody.region.orNil).inRoles [.condition, .body] hc.stands (by decide)

theorem forLoop_gives : Gives (l.forLoop c) (Term.PlacedIn l.source c.span) := by
  have hrest : ∀ {target}, Fits l.source (partSpans c .pattern) [orNil target] → Gives (do
      let value ← l.part c .value
      let body ← l.statementsOf (c.part? .body)
      return plainTerm .forLoop c.span [orNil target, orNil value, orNil body])
      (Term.PlacedIn l.source c.span) := by
    intro target htarget
    refine (part_gives hl hc .value).bind fun value hvalue => ?_
    refine (statementsOf_part_gives hl hc .body).bind fun body hbody => .pure ?_
    exact (htarget.region.parts (hvalue.region.orNil.parts hbody.region.orNil)).inRoles
      [.pattern, .value, .body] hc.stands (by decide)
  unfold forLoop
  cases hpattern : c.part? .pattern with
  | some p =>
    have hp := hc.child (Concrete.mem_children_of_part? hpattern)
    refine ((bareTarget_gives hl hp).map fun t ht => ?_).bind fun target h => hrest h
    exact partSpans_eq hpattern ▸ .one ht
  | none =>
    show Gives (pure none >>= _) _
    rw [pure_bind]
    exact @hrest none ((Fits.nil.value .nil).sublist (List.nil_sublist _))

def isBranch (d : Concrete) : Bool := d.construct == .whenBranch

def isElse (d : Concrete) : Bool := d.construct == .elseBranch

def caseSpans (p : Concrete → Bool) (ds : List Concrete) : List Span := (ds.filter p).map Concrete.span

/-- The branches of a case stand in parts that are branches, what is left over in one that is left over. -/
structure CaseFits (cs : List Char) (front : List Concrete) (acc : List Term × Option Term) : Prop where
  branches : Fits cs (caseSpans isBranch front) acc.1
  rest : Fits cs (caseSpans isElse front) acc.2.toList

theorem caseStep_gives {front : List Concrete} {acc : List Term × Option Term}
    (h : CaseFits l.source front acc) :
    Gives (caseStep l acc c) (CaseFits l.source (front ++ [c])) := by
  have hspans : ∀ p, caseSpans p (front ++ [c]) = caseSpans p front ++ caseSpans p [c] := fun p => by
    rw [caseSpans, List.filter_append, List.map_append]
    rfl
  have hsub : ∀ p, (caseSpans p front).Sublist (caseSpans p (front ++ [c])) := fun p =>
    hspans p ▸ List.sublist_append_left _ _
  have hself : ∀ {p : Concrete → Bool}, p c = true → caseSpans p [c] = [c.span] := fun hp => by
    rw [caseSpans, List.filter_cons_of_pos hp]
    rfl
  unfold caseStep
  cases hk : c.construct with
  | whenBranch =>
    refine (hl c hc).bind fun t ht => .pure ⟨?_, h.rest.sublist (hsub _)⟩
    rw [hspans, hself (show isBranch c = true from beq_iff_eq.2 hk)]
    exact h.branches.append (.one ht)
  | elseBranch =>
    refine (statementsOf_gives hl c hc).bind fun o ho => .pure ⟨h.branches.sublist (hsub _), ?_⟩
    rw [hspans, hself (show isElse c = true from beq_iff_eq.2 hk)]
    exact ho.sublist (List.sublist_append_right _ _)
  | _ => exact .pure ⟨h.branches.sublist (hsub _), h.rest.sublist (hsub _)⟩

theorem caseSteps_gives {ds front : List Concrete} (hds : ∀ d ∈ ds, d ∈ c.children)
    {acc : List Term × Option Term} (h : CaseFits l.source front acc) :
    Gives (ds.foldlM (caseStep l) acc) (CaseFits l.source (front ++ ds)) := by
  induction ds generalizing acc front with
  | nil =>
    rw [List.append_nil]
    exact .pure h
  | cons d ds ih =>
    obtain ⟨hd, hds⟩ := List.forall_mem_cons.1 hds
    rw [List.foldlM_cons]
    refine (caseStep_gives hl (hc.child hd) h).bind fun acc h => ?_
    rw [← List.singleton_append, ← List.append_assoc]
    exact ih hds h

theorem caseOf_gives : Gives (l.caseOf c) (Term.PlacedIn l.source c.span) := by
  unfold caseOf
  extract_lets parts
  have hparts : ∀ d ∈ parts, d ∈ c.children := fun d hd =>
    Concrete.mem_children_of_named (List.mem_filter.1 hd).1
  refine (part_gives hl hc .value).bind fun value hvalue => ?_
  have hnone : CaseFits l.source [] ([], none) := ⟨.nil, .nil⟩
  refine (caseSteps_gives hl hc hparts hnone).bind fun r hr => .pure ?_
  let other := fun (p : Concrete → Bool) (d : Concrete) => p d && (d.role != .value && isNamed d)
  have hregion : ∀ {p : Concrete → Bool} {ts}, Fits l.source (caseSpans p parts) ts →
      Fits l.source (regions c [other p]) ts := by
    intro p ts h
    have hfilter : parts.filter p = c.children.filter (other p) := by
      rw [← List.filter_filter, ← List.filter_filter]
      rfl
    rw [caseSpans, hfilter] at h
    exact h.filtered
  have hvalue' : ∀ (p : Concrete → Bool) (d : Concrete), hasRole .value d = true → other p d = false := by
    intro p d hd
    show (p d && (d.role != .value && isNamed d)) = false
    rw [beq_iff_eq.1 hd]
    exact Bool.and_false _
  have hbranch : ∀ d, other isBranch d = true → other isElse d = false := by
    intro d hd
    have hd := beq_iff_eq.1 (Bool.and_eq_true_iff.1 hd).1
    show (d.construct == .elseBranch && _) = false
    rw [hd]
    rfl
  refine Fits.inNode hc.stands ?_
    (hvalue.region.orNil.parts ((hregion hr.branches).parts (hregion hr.rest).orNil))
  refine List.pairwise_cons.2 ⟨List.forall_mem_cons.2 ⟨hvalue' _, List.forall_mem_singleton.2 (hvalue' _)⟩, ?_⟩
  exact List.pairwise_pair.2 hbranch

theorem whenBranch_gives : Gives (l.whenBranch c) (Term.PlacedIn l.source c.span) := by
  unfold whenBranch
  refine (filtered_gives hl hc (hasRole .pattern)).bind fun values hvalues => ?_
  refine (statementsOf_part_gives hl hc .body).bind fun body hbody => .pure ?_
  exact (hvalues.parts hbody.region.orNil).inRoles [.pattern, .body] hc.stands (by decide)

/-! ## definitions -/

def methodStatements (c : Concrete) : List Concrete :=
  c.named.filter fun d => d.role != .name && d.role != .parameters && d.role != .object

/-- Where the body of a method stands, which without one is where its statements do. -/
def bodySpans (c : Concrete) : List Span :=
  match c.part? .body, methodStatements c with
  | some b, _ => [b.span]
  | none, [] => []
  | none, d :: ds => [hull d.span (ds.map Concrete.span)]

omit hl hc in
theorem methodStatements_sublist : (methodStatements c).Sublist c.children :=
  List.filter_sublist.trans List.filter_sublist

omit hl hc in
theorem isStatement_of_mem (hd : d ∈ methodStatements c) : d.IsStatement := by
  obtain ⟨hnamed, hrole⟩ := List.mem_filter.1 hd
  have hpassed := (List.mem_filter.1 hnamed).2
  simp only [bne_iff_ne, Bool.and_eq_true] at hrole
  exact ⟨by simpa using hpassed, by simp [hrole]⟩

theorem methodBody_gives :
    Gives (l.methodBody c) fun o => Fits l.source (bodySpans c) o.toList := by
  unfold methodBody bodySpans
  cases hpart : c.part? .body with
  | some b =>
    have hb := hc.child (Concrete.mem_children_of_part? hpart)
    show Gives (if b.construct = .bodyStatement then _ else _) _
    split
    · exact statementsOf_gives hl b hb
    · exact (hl b hb).map fun t ht => .one ht
  | none =>
    have hsub : (methodStatements c).Sublist c.children := methodStatements_sublist
    show Gives (l.statements (methodStatements c)) _
    cases hstatements : methodStatements c with
    | nil => exact .pure .nil
    | cons d ds =>
      rw [hstatements] at hsub
      have hordered : Span.InOrder ((d :: ds).map Concrete.span) :=
        hc.stands.ordered.sublist (hsub.map Concrete.span)
      have hle : ∀ s ∈ (d :: ds).map Concrete.span, s.start ≤ s.stop :=
        List.forall_mem_map.2 fun e he => (hc.child (hsub.subset he)).stands.cuts.le
      refine (all_gives hl hc fun e he => hsub.subset he).map fun ts h => ?_
      cases ht : sequenceTerm ts with
      | none => exact .sublist .nil (List.nil_sublist _)
      | some t => exact .one (h.sequence hordered (hull_contains hordered hle) ht)

omit hl in
theorem inside_bodySpans : ∀ r ∈ bodySpans c, c.span.contains r = true := by
  unfold bodySpans
  split
  · next b hpart =>
    exact List.forall_mem_singleton.2 (hc.stands.inside b (Concrete.mem_children_of_part? hpart))
  · exact List.forall_mem_nil _
  · next d ds _ hstatements =>
    have hsub : (d :: ds).Sublist c.children := hstatements ▸ methodStatements_sublist
    refine List.forall_mem_singleton.2 (hull_inside ?_)
    exact List.forall_mem_map.2 fun e he => hc.stands.inside e (hsub.subset he)

omit hl in
theorem bodySpans_apart (hmethod : c.construct ∈ [.methodDefinition, .singletonMethod])
    (hd : d ∈ c.children) (hrole : d.role ∈ [.object, .name, .parameters]) :
    ∀ r ∈ bodySpans c, d.span.Apart r := by
  unfold bodySpans
  split
  · next b hpart =>
    refine List.forall_mem_singleton.2 (hc.stands.apart hd (Concrete.mem_children_of_part? hpart) ?_)
    rintro rfl
    rw [Concrete.role_of_part? hpart] at hrole
    exact absurd hrole (by decide)
  · exact List.forall_mem_nil _
  · next e es hpart hstatements =>
    have hbehind : ∀ e' ∈ e :: es, d.span.stop ≤ e'.span.start := fun e' he' =>
      hc.stands.toIsLaidOut.stop_le_start (P := fun x => x.role ∈ [.object, .name, .parameters])
        (hc.stands.method hmethod hpart) (fun x hx hx' => hx'.2 hx) hd
        (methodStatements_sublist.subset (hstatements ▸ he')) hrole
        (isStatement_of_mem (hstatements ▸ he'))
    refine List.forall_mem_singleton.2 (.inl ?_)
    have hfirst := hbehind e List.mem_cons_self
    have hlast : d.span.stop ≤ ((es.map Concrete.span).getLast?.getD e.span).start := by
      have hmem : (es.map Concrete.span).getLast?.getD e.span ∈ (e :: es).map Concrete.span :=
        getLast?_getD_mem e.span (es.map Concrete.span)
      obtain ⟨e', he', heq⟩ := List.mem_map.1 hmem
      exact heq ▸ hbehind e' he'
    exact Nat.le_min.2 ⟨hfirst, hlast⟩

/-- The span of the parameters of a method, which without any are an empty span behind its name. -/
def methodParameters (c : Concrete) : Span :=
  parametersSpan ((c.part? .name).elim c.span.start fun d => d.span.stop) (c.part? .parameters)

omit hl in
/-- what stands apart from the parameters and the name stands apart from the span of the parameters -/
theorem methodParameters_apart {r : Span} (hr : c.span.contains r = true)
    (h : ∀ d ∈ c.children, d.role ∈ [.name, .parameters] → d.span.Apart r) :
    (methodParameters c).Apart r := by
  unfold methodParameters
  cases hparameters : c.part? .parameters with
  | some e =>
    refine h e (Concrete.mem_children_of_part? hparameters) ?_
    rw [Concrete.role_of_part? hparameters]
    decide
  | none =>
    -- the empty span stands where the name ends, or in front of all
    cases hname : c.part? .name with
    | none => exact .inl (Span.contains_iff.1 hr).1
    | some e =>
      have he := Concrete.mem_children_of_part? hname
      have hle := (hc.child he).stands.cuts.le
      refine (h e he (by rw [Concrete.role_of_part? hname]; decide)).imp id fun h => ?_
      show r.stop ≤ e.span.stop
      omega

omit hl in
theorem methodParameters_inside : c.span.contains (methodParameters c) = true := by
  unfold methodParameters
  cases hparameters : c.part? .parameters with
  | some e => exact hc.stands.inside e (Concrete.mem_children_of_part? hparameters)
  | none =>
    cases hname : c.part? .name with
    | none => exact Span.contains_iff.2 ⟨Nat.le_refl _, hc.stands.cuts.le⟩
    | some e =>
      have he := Concrete.mem_children_of_part? hname
      have hle := (hc.child he).stands.cuts.le
      have hin := Span.contains_iff.1 (hc.stands.inside e he)
      exact Span.contains_iff.2 ⟨by show c.span.start ≤ e.span.stop; omega, hin.2⟩

omit hl in
theorem methodSpans_apart (hmethod : c.construct ∈ [.methodDefinition, .singletonMethod]) :
    (partSpans c .object ++ methodParameters c :: bodySpans c).Pairwise Span.Apart := by
  refine List.pairwise_append.2 ⟨?_, List.pairwise_cons.2 ⟨fun r hr => ?_, ?_⟩, fun r hr => ?_⟩
  · unfold partSpans
    cases c.part? .object <;> simp
  · refine methodParameters_apart hc (inside_bodySpans hc r hr) fun d hd hrole => ?_
    exact bodySpans_apart hc hmethod hd (List.mem_cons_of_mem _ hrole) r hr
  · unfold bodySpans
    split <;> simp
  · obtain ⟨d, hpart, rfl⟩ := mem_partSpans.1 hr
    have hd := Concrete.mem_children_of_part? hpart
    have hrole := Concrete.role_of_part? hpart
    refine List.forall_mem_cons.2 ⟨.symm ?_, bodySpans_apart hc hmethod hd (hrole ▸ List.mem_cons_self)⟩
    refine methodParameters_apart hc (hc.stands.inside d hd) fun e he hrole' => ?_
    refine hc.stands.apart he hd fun heq => ?_
    rw [heq, hrole] at hrole'
    exact absurd hrole' (by decide)

theorem method_gives (isSingleton : Bool)
    (hmethod : c.construct ∈ [.methodDefinition, .singletonMethod]) :
    Gives (l.method c isSingleton) (Term.PlacedIn l.source c.span) := by
  unfold method
  extract_lets name start noLoc loc kind rest
  have hstart : isBoundary l.source start = true := by
    unfold start name
    cases hname : c.part? .name with
    | none => exact hc.stands.cuts.start
    | some e => exact (hc.child (Concrete.mem_children_of_part? hname)).stands.cuts.stop
  have hargs : Gives (l.parametersOr start (c.part? .parameters))
      (Term.PlacedIn l.source (methodParameters c)) :=
    parametersOr_gives hl hstart (sound_of_part? hc)
  have hrest : ∀ {object : List Term}, Fits l.source (partSpans c .object) object →
      Gives (rest object) (Term.PlacedIn l.source c.span) := by
    intro object hobject
    refine Gives.bind (P := fun r => r.1.PlacedIn l.source (methodParameters c) ∧
      Fits l.source (bodySpans c) r.2.toList) ?_ fun r hr => .pure ?_
    · exact .inScope (hargs.bind fun args hargs =>
        (methodBody_gives hl hc).bind fun body hbody => .pure ⟨hargs, hbody⟩)
    · refine (hobject.append ((Fits.cons hr.1 hr.2.orNil).value (.sym _))).node hc.stands.cuts ?_
        (methodSpans_apart hc hmethod)
      exact List.forall_mem_append.2 ⟨inside_partSpans hc.stands, List.forall_mem_cons.2
        ⟨methodParameters_inside hc, inside_bodySpans hc⟩⟩
  split
  · refine ((part_gives hl hc .object).map fun o ho => ?_).bind fun object h => hrest h
    exact ho.orNil
  · rw [pure_bind]
    exact hrest (Fits.nil.sublist (List.nil_sublist _))

theorem closedBody_gives : Gives (l.closedBody c)
    fun o => Fits l.source (partSpans c .body) o.toList :=
  .inScope (statementsOf_part_gives hl hc .body)

theorem classDefinition_gives : Gives (l.classDefinition c) (Term.PlacedIn l.source c.span) := by
  unfold classDefinition
  refine (part_gives hl hc .name).bind fun name hname => ?_
  refine (part_gives hl hc .superclass).bind fun superclass hsuper => ?_
  refine (closedBody_gives hl hc).bind fun body hbody => .pure ?_
  exact (hname.region.orNil.parts (hsuper.region.orNil.parts hbody.region.orNil)).inRoles
    [.name, .superclass, .body] hc.stands (by decide)

theorem moduleDefinition_gives : Gives (l.moduleDefinition c) (Term.PlacedIn l.source c.span) := by
  unfold moduleDefinition
  refine (part_gives hl hc .name).bind fun name hname => ?_
  refine (closedBody_gives hl hc).bind fun body hbody => .pure ?_
  exact (hname.region.orNil.parts hbody.region.orNil).inRoles [.name, .body] hc.stands (by decide)

theorem singletonClass_gives : Gives (l.singletonClass c) (Term.PlacedIn l.source c.span) := by
  unfold singletonClass
  refine (part_gives hl hc .value).bind fun value hvalue => ?_
  refine (closedBody_gives hl hc).bind fun body hbody => .pure ?_
  exact (hvalue.region.orNil.parts hbody.region.orNil).inRoles [.value, .body] hc.stands (by decide)

omit hl hc in
theorem fits_flatten {cs : List Char} {ds : List Concrete} {tss : List (List Term)}
    (h : List.Forall₂ (fun d ts => Fits cs [d.span] ts) ds tss) :
    Fits cs (ds.map Concrete.span) tss.flatten := by
  induction h with
  | nil => exact .nil
  | cons h _ ih => exact h.append ih

theorem jump_gives (kind : Kind) : Gives (l.jump c kind) (Term.PlacedIn l.source c.span) := by
  unfold jump
  refine (Gives.mapM (R := fun d ts => Fits l.source [d.span] ts) fun d hd => ?_).bind
    fun tss htss => .pure ?_
  · have hd := hc.child (Concrete.mem_children_of_named hd)
    split
    · exact arguments_gives hl d hd
    · exact (hl d hd).map fun t ht => .one ht
  · exact (fits_flatten htss).filtered.inNode hc.stands (List.pairwise_singleton _ _)

theorem firstPart_gives : Gives (l.firstPart c) (Term.PlacedIn l.source c.span) := by
  unfold firstPart
  cases hnamed : c.named with
  | nil => exact .pure (leaf_placed hc [])
  | cons d ds =>
    have hd : d ∈ c.children := Concrete.mem_children_of_named (hnamed ▸ List.mem_cons_self)
    exact (hl d (hc.child hd)).imp fun t ht => ht.mono (hc.stands.inside d hd)

/-! ## every node -/

/-- **The layout of a sound node stands inside it**, if those of its parts do. -/
theorem node_gives : Gives (l.node c) (Term.PlacedIn l.source c.span) := by
  have hstands := hc.stands
  unfold node
  extract_lets word variableTerm
  have hvariable : ∀ kind, Gives (variableTerm kind) (Term.PlacedIn l.source c.span) := fun kind =>
    .pure (leaf_placed hc [.sym _])
  have hword : ∀ kind, Gives (word kind) (Term.PlacedIn l.source c.span) := fun kind =>
    .pure (leaf_placed hc [])
  cases hk : c.construct with
  | identifier => exact identifier_gives hc
  | constant => exact .pure (leaf_placed hc [.nil, .sym _])
  | selfWord | superWord | nilWord | trueWord | falseWord => exact hword _
  | instanceVariable | classVariable | globalVariable => exact hvariable _
  | integer =>
    dsimp only [integer]
    split
    · exact .pure (leaf_placed hc [.int _])
    · exact .pure (leaf_placed hc [.str _])
  | float =>
    dsimp only [float]
    split
    · exact .pure (leaf_placed hc [.float _])
    · exact .pure (leaf_placed hc [.str _])
  | character => exact .pure (leaf_placed hc [.str _])
  | bareString => exact .pure (leaf_placed hc [.str _])
  | simpleSymbol => exact .pure (leaf_placed hc [.sym _])
  | hashKeySymbol | bareSymbol => exact hvariable _
  | scopeResolution => exact scopeResolution_gives hl hc (hstands.scope hk)
  | string => exact string_gives hl hc
  | delimitedSymbol => exact delimitedSymbol_gives hl hc
  | regex => exact regexp_gives hl hc (hstands.regex hk)
  | array | stringArray | symbolArray => exact array_gives hl hc
  | hash => exact hash_gives hl hc
  | pair => exact pair_gives hl hc
  | call => exact call_gives hl hc (hstands.call hk)
  | elementReference => exact elementReference_gives hl hc
  | binary => exact binary_gives hl hc
  | unary => exact unary_gives hl hc
  | parenthesized => exact (named_gives hl hc).bind fun _ h => .pure h
  | whenPattern | superclassPart | inPart => exact firstPart_gives hl hc
  | assignment => exact assignment_gives hl hc
  | operatorAssignment => exact operatorAssignment_gives hl hc
  | ifBranch | elsifBranch | conditional => exact conditional_gives hl hc false
  | unlessBranch => exact conditional_gives hl hc true
  | ifModifier => exact modifier_gives hl hc false
  | unlessModifier => exact modifier_gives hl hc true
  | whileLoop | untilLoop => exact loop_gives hl hc _
  | whileModifier | untilModifier => exact loopModifier_gives hl hc _
  | forLoop => exact forLoop_gives hl hc
  | caseOf => exact caseOf_gives hl hc
  | whenBranch => exact whenBranch_gives hl hc
  | methodDefinition => exact method_gives hl hc false (by rw [hk]; decide)
  | singletonMethod => exact method_gives hl hc true (by rw [hk]; decide)
  | classDefinition => exact classDefinition_gives hl hc
  | moduleDefinition => exact moduleDefinition_gives hl hc
  | singletonClass => exact singletonClass_gives hl hc
  | returnJump | breakJump | nextJump | yieldCall => exact jump_gives hl hc _
  | range => exact range_gives hl hc
  | blockParameters | methodParameters | lambdaParameters => exact parameters_gives hl c hc
  | _ => exact wrap_gives hl hc _

end

/-! ## texts -/

theorem within_places (source : List Char) (depth : Nat) :
    PlacesParts ⟨source, within source depth⟩ := by
  induction depth with
  | zero => exact fun d _ => .fail
  | succ depth ih => exact fun d hd => node_gives (l := ⟨source, within source depth⟩) ih hd

/-- **The term of a text is placed**, if the nodes that it is made of are sound and stand one behind the
other in the text. -/
theorem rootTerm_placed {source : List Char} {forest : List Concrete} {term : Term}
    (hsound : ∀ c ∈ forest, c.Sound source) (hordered : Span.InOrder (forest.map Concrete.span))
    (h : rootTerm source forest = .ok term) : term.Placed source := by
  have hinside : ∀ r ∈ forest.map Concrete.span, (⟨0, Text.byteLength source⟩ : Span).contains r = true :=
    List.forall_mem_map.2 fun c hc => (hsound c hc).stands.cuts.inside_text
  have hstatements : Gives ((ofSource source).statements forest)
      fun o => ∀ t ∈ o, t.Placed source := by
    refine (Gives.mapM fun c hc => within_places source maxNesting c (hsound c hc)).map
      fun ts hts t ht => ?_
    have hfit : FitEach source (forest.map Concrete.span) ts := List.forall₂_map_left_iff.2 hts
    exact (hfit.sequence hordered hinside ht).placed
  rw [rootTerm_eq] at h
  cases hrun : ((ofSource source).statements forest).run [Scope.fresh true] with
  | error e =>
    rw [hrun] at h
    cases h
  | ok r =>
    obtain ⟨root, scopes⟩ := r
    rw [hrun] at h
    cases h
    cases root with
    | some t => exact hstatements _ _ _ hrun t rfl
    | none => exact .leaf (Span.cuts_text source)

end RubyLint.Ruby.Layout
