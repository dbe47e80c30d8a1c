import RubyLint.Proofs.Layout.Placed.Call

/-!
# Placed assignments

A target is laid out over a span around it, with the value that it takes.

* `target_gives`       a target with its value;
* `assignment_gives`   an assignment of one or several values.
-/

namespace RubyLint.Ruby.Layout

section
variable {l : Layout} {c d : Concrete} {rs : List Span} {ts : List Term} {t : Term}
variable (hl : l.PlacesParts) (hc : c.Sound l.source)

include hl hc

/-- a target that is laid out over a span around it, with a value that stands apart from it -/
theorem target_gives {value : Option Term} {span : Span} (hvalue : Fits l.source rs value.toList)
    (hspan : span.Cuts l.source) (hin : ∀ r ∈ c.span :: rs, span.contains r = true)
    (hapart : (c.span :: rs).Pairwise Span.Apart) :
    Gives (l.target c value span) (Term.PlacedIn l.source span) := by
  have hnode : ∀ {kind loc ps ts}, Fits l.source (regions c ps) ts →
      ps.Pairwise (fun p q : Concrete → Bool => ∀ d, p d = true → q d = false) →
      (Term.node kind span loc (ts ++ value.toList)).PlacedIn l.source span := fun h hps =>
    ((h.group (apart_regions hc.stands hps) (inside_regions hc.stands)).append hvalue).node
      hspan hin hapart
  have hleaf : ∀ {kind} (vs : List Value),
      (plainTerm kind span (vs.map Term.value ++ value.toList)).PlacedIn l.source span := by
    intro kind vs
    have h : Fits l.source (regions c []) (vs.map Term.value ++ []) := Fits.nil.values vs
    rw [List.append_nil] at h
    exact hnode h .nil
  unfold target
  extract_lets text variableTerm
  cases c.construct with
  | identifier => exact (Gives.any _).bind fun _ _ => .pure (hleaf [.sym _])
  | instanceVariable => exact .pure (hleaf [.sym _])
  | globalVariable => exact .pure (hleaf [.sym _])
  | classVariable => exact .pure (hleaf [.sym _])
  | constant => exact .pure (hleaf [.nil, .sym _])
  | scopeResolution =>
    refine (part_gives hl hc .scope).bind fun scope hscope => .pure ?_
    exact hnode (hscope.region.orNil.snoc (.sym _)) (List.pairwise_singleton _ _)
  | call =>
    refine (part_gives hl hc .receiver).bind fun receiver hreceiver => .pure ?_
    exact hnode (hreceiver.region.orNil.snoc (.sym _)) (List.pairwise_singleton _ _)
  | elementReference =>
    refine (part_gives hl hc .object).bind fun object hobject => ?_
    refine (indices_gives hl hc).bind fun indices hindices => .pure ?_
    exact hnode (hobject.region.orNil.parts (hindices.value (.sym _))) disjoint_object
  | leftAssignmentList =>
    refine (Gives.any _).bind fun _ _ => ?_
    refine (filtered_gives hl hc isNamed).bind fun ts hts => .pure ?_
    exact hnode hts (List.pairwise_singleton _ _)
  | _ => exact .pure (hleaf [])

theorem bareTarget_gives : Gives (l.target c none c.span) (Term.PlacedIn l.source c.span) :=
  target_gives hl hc .nil hc.stands.cuts (List.forall_mem_singleton.2 (Span.contains_refl _))
    (List.pairwise_singleton _ _)

theorem assignedValue_gives : Gives (l.assignedValue c) (Term.PlacedIn l.source c.span) := by
  unfold assignedValue
  cases c.construct with
  | rightAssignmentList => exact wrap_gives hl hc .array
  | _ => exact hl c hc

theorem assignment_gives : Gives (l.assignment c) (Term.PlacedIn l.source c.span) := by
  unfold assignment
  cases hleft : c.part? .left with
  | none => exact .fail
  | some left =>
    have hmem := Concrete.mem_children_of_part? hleft
    refine (Gives.any _).bind fun _ _ => ?_
    extract_lets rest
    have hspan := partSpans_eq hleft
    have hrest : ∀ {value : Term}, Fits l.source (partSpans c .right) [value] →
        Gives (rest value) (Term.PlacedIn l.source c.span) := by
      intro value hvalue
      have hsome : Fits l.source (partSpans c .right) (some value).toList := hvalue
      have hone := target_gives hl (hc.child hmem) hsome hc.stands.cuts
        (List.forall_mem_cons.2 ⟨hc.stands.inside left hmem, inside_partSpans hc.stands⟩)
        (by simpa only [hspan, List.singleton_append] using
          partSpans_apart hc.stands (show Role.left ≠ .right by decide))
      unfold rest
      cases left.construct with
      | leftAssignmentList =>
        refine (bareTarget_gives hl (hc.child hmem)).bind fun targets htargets => .pure ?_
        have htargets : Fits l.source (partSpans c .left) [targets] := hspan ▸ .one htargets
        exact (htargets.region.parts hvalue.region).inRoles [.left, .right] hc.stands (by decide)
      | _ => exact hone
    cases hright : c.part? .right with
    | some right =>
      refine (assignedValue_gives hl (hc.child (Concrete.mem_children_of_part? hright))).bind
        fun value hvalue => hrest ?_
      exact partSpans_eq hright ▸ .one hvalue
    | none =>
      show Gives (pure nilTerm >>= _) _
      rw [pure_bind]
      exact hrest ((Fits.nil.value _).sublist (List.nil_sublist _))

theorem operatorAssignment_gives :
    Gives (l.operatorAssignment c) (Term.PlacedIn l.source c.span) := by
  unfold operatorAssignment
  cases hleft : c.part? .left with
  | none => exact .fail
  | some left =>
    have hmem := Concrete.mem_children_of_part? hleft
    refine (bareTarget_gives hl (hc.child hmem)).bind fun target htarget => ?_
    refine (part_gives hl hc .right).bind fun value hvalue => ?_
    have htarget : Fits l.source (partSpans c .left) [target] := partSpans_eq hleft ▸ .one htarget
    have hvalue := hvalue.region.orNil
    have hroles : [Role.left, .right].Nodup := by decide
    extract_lets op loc node
    split
    · exact .pure ((htarget.region.parts hvalue).inRoles _ hc.stands hroles)
    split
    · exact .pure ((htarget.region.parts hvalue).inRoles _ hc.stands hroles)
    · exact .pure ((htarget.region.parts (hvalue.value _)).inRoles _ hc.stands hroles)

end

end RubyLint.Ruby.Layout
