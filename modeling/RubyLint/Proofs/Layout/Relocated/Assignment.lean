import RubyLint.Proofs.Layout.Relocated.Call
import RubyLint.Ruby.Layout.Assignment

/-!
# Assignments in another place

The names that an assignment binds are texts, so that the same names are bound wherever the assignment
stands.

* `identifiersIn_shift`   the identifiers below a node are those below the node in the other place;
* `target_alike`          what is assigned to, with the value or without it;
* `assignment_alike`, `operatorAssignment_alike`   the two kinds of assignment.
-/

namespace RubyLint.Ruby

theorem identifiersIn_shift (a : Nat) (c : Concrete) :
    identifiersIn (c.shift a) = (identifiersIn c).map (Concrete.shift a) := by
  induction c using Concrete.ind with
  | h c ih =>
    have hbelow : ((c.shift a).children.attach.flatMap fun d =>
          if d.1.isToken then [] else identifiersIn d.1) =
        (c.children.attach.flatMap fun d =>
          if d.1.isToken then [] else identifiersIn d.1).map (Concrete.shift a) := by
      rw [List.flatMap_subtype (g := fun d => if d.isToken then [] else identifiersIn d) fun _ _ => rfl,
        List.flatMap_subtype (g := fun d => if d.isToken then [] else identifiersIn d) fun _ _ => rfl,
        List.unattach_attach, List.unattach_attach, Concrete.shift_children, List.flatMap_map,
        List.map_flatMap]
      refine List.flatMap_congr fun d hd => ?_
      rw [Concrete.shift_isToken]
      split
      · rfl
      · exact ih d hd
    rw [identifiersIn.eq_def, identifiersIn.eq_def c, Concrete.shift_construct]
    split
    · rfl
    · rfl
    · rfl
    · exact hbelow

theorem identifiersIn_inside {n : Nat} {c : Concrete} (h : c.Inside n) :
    ∀ d ∈ identifiersIn c, d.Inside n := by
  induction c using Concrete.ind with
  | h c ih =>
    intro d hd
    rw [identifiersIn.eq_def] at hd
    split at hd
    · exact List.mem_singleton.1 hd ▸ h
    · exact absurd hd List.not_mem_nil
    · exact absurd hd List.not_mem_nil
    · obtain ⟨⟨e, he⟩, -, hd⟩ := List.mem_flatMap.1 hd
      dsimp only at hd
      split at hd
      · exact absurd hd List.not_mem_nil
      · exact ih e he (h.child he) d hd

namespace Layout.Relocates

variable {l l' : Layout} {a n : Nat} {c : Concrete}
variable (h : l.Relocates l' a n) (hc : c.Inside n)

include h hc

theorem declareTargets_eq : l.declareTargets (c.shift a) = l'.declareTargets c := by
  unfold declareTargets
  rw [identifiersIn_shift, List.forM_eq_forM, List.forM_map]
  have hinside := identifiersIn_inside hc
  generalize identifiersIn c = ds at hinside
  induction ds with
  | nil => rfl
  | cons d ds ih =>
    obtain ⟨hd, hds⟩ := List.forall_mem_cons.1 hinside
    rw [List.forM_cons, List.forM_cons, h.text_eq hd]
    exact congrArg _ (funext fun _ => ih hds)

theorem declareTarget_eq : l.declareTarget (c.shift a) = l'.declareTarget c := by
  unfold declareTarget
  rw [Concrete.shift_construct, h.text_eq hc, h.declareTargets_eq hc]

theorem target_alike {value value' : Option Term} (span span' : Span)
    (hvalue : value.map Term.outline = value'.map Term.outline) :
    Alike Term.outline (l.target (c.shift a) value span) (l'.target c value' span') := by
  have hvalues : value.toList.map Term.outline = value'.toList.map Term.outline := by
    rw [← Option.toList_map, hvalue, Option.toList_map]
  have hsome : value.isSome = value'.isSome := by
    rw [← Option.isSome_map (f := Term.outline), hvalue, Option.isSome_map]
  unfold target
  rw [Concrete.shift_construct, h.text_eq hc, hsome, h.part?_text hc, h.partText_eq hc,
    h.callKind_eq hc, h.declareTargets_eq hc, indices_shift]
  dsimp only
  cases c.construct with
  | identifier =>
    refine (Alike.refl id _).bind fun _ _ _ => .pure ?_
    rw [outline_plainTerm, outline_plainTerm, List.map_cons, List.map_cons, hvalues]
  | instanceVariable | globalVariable | classVariable | constant =>
    refine .pure ?_
    simp only [outline_plainTerm, List.map_cons, List.map_append, hvalues]
  | scopeResolution =>
    refine (h.part_alike hc).bind fun scope scope' hscope => .pure ?_
    simp only [outline_plainTerm, List.map_cons, List.map_append, outline_orNil, hscope, hvalues]
  | call =>
    refine (h.part_alike hc).bind fun scope scope' hscope => .pure ?_
    simp only [Term.outline_node, List.map_cons, List.map_append, outline_orNil, hscope, hvalues]
  | elementReference =>
    refine (h.part_alike hc).bind fun object object' hobject => ?_
    refine (h.all_alike fun d hd => hc.named d (List.mem_of_mem_filter hd)).bind fun ts ts' hts => .pure ?_
    simp only [outline_plainTerm, List.map_cons, List.map_append, outline_orNil, hobject, hts, hvalues]
  | leftAssignmentList =>
    rw [Concrete.shift_named]
    refine (Alike.refl id _).bind fun _ _ _ => ?_
    refine (h.all_alike hc.named).bind fun ts ts' hts => .pure ?_
    rw [outline_plainTerm, outline_plainTerm, List.map_append, List.map_append, hts, hvalues]
  | _ => exact .pure (by rw [outline_plainTerm, outline_plainTerm, hvalues])

theorem assignedValue_alike : Alike Term.outline (l.assignedValue (c.shift a)) (l'.assignedValue c) := by
  unfold assignedValue
  rw [Concrete.shift_construct]
  split
  · exact h.wrap_alike hc _
  · exact h.below c hc

theorem assignment_alike : Alike Term.outline (l.assignment (c.shift a)) (l'.assignment c) := by
  unfold assignment
  rw [Concrete.shift_part?, Concrete.shift_part?]
  cases hleft : c.part? .left with
  | none => exact .throw rfl
  | some left =>
    have hinside := hc.part left hleft
    rw [Option.map_some]
    dsimp -zeta only
    rw [h.declareTarget_eq hinside, Concrete.shift_construct]
    refine (Alike.refl id _).bind fun _ _ _ => ?_
    extract_lets rest rest'
    -- what comes behind the value
    have hrest : ∀ {value value' : Term}, value.outline = value'.outline →
        Alike Term.outline (rest value) (rest' value') := by
      intro value value' hvalue
      unfold rest rest'
      split
      · refine (h.target_alike hinside _ _ rfl).bind fun t t' ht => .pure ?_
        simp only [outline_plainTerm, List.map_cons, ht, hvalue]
      · exact h.target_alike hinside _ _ (congrArg some hvalue)
    cases hright : c.part? .right with
    | none => exact hrest rfl
    | some right => exact (h.assignedValue_alike (hc.part right hright)).bind fun _ _ => hrest

theorem operatorAssignment_alike :
    Alike Term.outline (l.operatorAssignment (c.shift a)) (l'.operatorAssignment c) := by
  unfold operatorAssignment
  rw [Concrete.shift_part?, h.partText_eq hc]
  cases hleft : c.part? .left with
  | none => exact .throw rfl
  | some left =>
    dsimp only [Option.map_some]
    refine (h.target_alike (hc.part left hleft) _ _ rfl).bind fun t t' ht => (h.part_alike hc).bind
      fun value value' hvalue => ?_
    split_ifs <;> exact .pure (by
      simp only [Term.outline_node, List.map_cons, List.map_nil, outline_orNil, ht, hvalue])

end Layout.Relocates

end RubyLint.Ruby
