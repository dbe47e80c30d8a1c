import RubyLint.Proofs.Layout.Relocated.Literal

/-!
# Calls in another place

Parameters, arguments, blocks, calls and operators: what is asked about their parts is asked about
constructs, roles and texts, none of which changes with the place.

* `parameter_alike`   a parameter, and those inside it;
* `arguments_alike`   arguments, the last pairs as one hash;
* `call_alike`        a call, with its block if it has one.
-/

namespace RubyLint.Ruby.Layout

theorem isPairArgument_shift (a : Nat) (c : Concrete) :
    isPairArgument (c.shift a) = isPairArgument c := by
  rw [isPairArgument, Concrete.shift_construct, isPairArgument]

theorem splitArguments_shift (a : Nat) (cs : List Concrete) :
    splitArguments (cs.map (Concrete.shift a)) =
      ((splitArguments cs).1.map (Concrete.shift a), (splitArguments cs).2.1.map (Concrete.shift a),
        (splitArguments cs).2.2.map (Concrete.shift a)) := by
  unfold splitArguments
  have hblock : (fun d : Concrete => d.construct != .blockArgument) ∘ Concrete.shift a =
      fun d => d.construct != .blockArgument := funext fun d => by
    rw [Function.comp, Concrete.shift_construct]
  have hpair : isPairArgument ∘ Concrete.shift a = isPairArgument := funext (isPairArgument_shift a)
  simp only [List.takeWhile_map, hblock, ← List.map_reverse, List.dropWhile_map, hpair,
    List.map_drop, List.length_map]

section
variable {a : Nat} {c : Concrete}

theorem partOrFind?_shift {role : Role} {p : Concrete → Bool} (hp : ∀ d : Concrete, p (d.shift a) = p d) :
    ((c.shift a).part? role <|> (c.shift a).named.find? p) =
      (c.part? role <|> c.named.find? p).map (Concrete.shift a) := by
  rw [Concrete.shift_part?, Concrete.shift_named, Concrete.find?_map_shift a hp]
  cases c.part? role <;> rfl

theorem blockBody?_shift : blockBody? (c.shift a) = (blockBody? c).map (Concrete.shift a) :=
  partOrFind?_shift fun d => by rw [Concrete.shift_construct]

theorem blockParameters?_shift :
    blockParameters? (c.shift a) = (blockParameters? c).map (Concrete.shift a) :=
  partOrFind?_shift fun d => by rw [Concrete.shift_construct]

theorem isPart_shift {role : Role} {construct : Construct} :
    (((c.shift a).part? role).any fun d => d.construct == construct) =
      (c.part? role).any fun d => d.construct == construct := by
  rw [Concrete.shift_part?, Option.any_map]
  cases c.part? role with
  | none => rfl
  | some d => exact congrArg (· == construct) (Concrete.shift_construct a d)

theorem indices_shift : indices (c.shift a) = (indices c).map (Concrete.shift a) := by
  rw [indices, Concrete.shift_named, indices]
  exact Concrete.filter_map_shift a (fun d => by rw [Concrete.shift_role]) c.named

end

namespace Relocates

variable {l l' : Layout} {a n : Nat} {c : Concrete}
variable (h : l.Relocates l' a n) (hc : c.Inside n)

/-! ## parameters -/

theorem innerParameters_alike {c : Concrete}
    (hinner : ∀ d ∈ c.children, Alike Term.outline (l.parameter (d.shift a)) (l'.parameter d)) :
    Alike (List.map Term.outline)
      ((c.shift a).children.attach.filterMapM fun d =>
        if d.1.isPassedOver then return none else some <$> l.parameter d.1)
      (c.children.attach.filterMapM fun d =>
        if d.1.isPassedOver then return none else some <$> l'.parameter d.1) := by
  rw [List.filterMapM_subtype
      (g := fun d => if d.isPassedOver then return none else some <$> l.parameter d) fun _ _ => rfl,
    List.filterMapM_subtype
      (g := fun d => if d.isPassedOver then return none else some <$> l'.parameter d) fun _ _ => rfl,
    List.unattach_attach, List.unattach_attach, Concrete.shift_children]
  refine .filterMapM (List.forall₂_map_left_iff.2 (List.forall₂_same.2 fun d hd => ?_))
  rw [Concrete.shift_isPassedOver]
  split
  · exact .refl _ _
  · exact (hinner d hd).some

include h

theorem parameter_alike {c : Concrete} (hc : c.Inside n) :
    Alike Term.outline (l.parameter (c.shift a)) (l'.parameter c) := by
  induction c using Concrete.ind with
  | h c ih =>
    have hinner := innerParameters_alike fun d hd => ih d hd (hc.child hd)
    rw [parameter.eq_def, parameter.eq_def l', h.part?_text hc, Concrete.shift_construct, h.text_eq hc]
    generalize (c.part? .name).map l'.text = name
    extract_lets given rest rest'
    have hrest : ∀ u, Alike Term.outline (rest u) (rest' u) := by
      intro u
      unfold rest rest'
      cases c.construct with
      | identifier =>
        exact (Alike.refl id _).bind fun _ _ _ => .pure (by rw [outline_plainTerm, outline_plainTerm])
      | optionalParameter =>
        exact (h.part_alike hc).bind fun value value' hvalue => .pure (by
          simp only [outline_plainTerm, List.map_append, List.map_cons, outline_orNil, hvalue])
      | keywordParameter =>
        refine (h.part_alike hc).bind fun value value' hvalue => ?_
        obtain ⟨rfl, rfl⟩ | ⟨t, t', rfl, rfl, ht⟩ := cases_of_map_eq hvalue
        · exact .pure (by rw [outline_plainTerm, outline_plainTerm])
        · exact .pure (by simp only [outline_plainTerm, List.map_append, List.map_cons, ht])
      | destructuredParameter =>
        refine hinner.bind fun ts ts' hts => .pure ?_
        rw [outline_plainTerm, outline_plainTerm, hts]
      | _ => exact .pure (by rw [outline_plainTerm, outline_plainTerm])
    cases name with
    | none => exact hrest ()
    | some name => exact (Alike.refl id _).bind fun _ _ _ => hrest ()

theorem parameters_alike (hc : c.Inside n) :
    Alike Term.outline (l.parameters (c.shift a)) (l'.parameters c) := by
  unfold parameters
  rw [Concrete.shift_named]
  refine (Alike.mapM_shift fun d hd => h.parameter_alike (hc.named d hd)).bind fun ts ts' hts => .pure ?_
  rw [outline_plainTerm, outline_plainTerm, hts]

theorem parametersOr_alike {o : Option Concrete} (ho : ∀ d ∈ o, d.Inside n) (offset offset' : Nat) :
    Alike Term.outline (l.parametersOr offset (o.map (Concrete.shift a)))
      (l'.parametersOr offset' o) := by
  cases o with
  | none => exact .pure (by rw [outline_plainTerm, outline_plainTerm])
  | some d => exact h.parameters_alike (ho d rfl)

theorem scoped_alike {o : Option Concrete} {isClosed : Bool} {offset offset' : Nat}
    {p q : Arrange (Option Term)} (ho : ∀ d ∈ o, d.Inside n) (hbody : Alike (Option.map Term.outline) p q) :
    Alike (fun parts : Term × Option Term => (parts.1.outline, parts.2.map Term.outline))
      (inScope isClosed do
        let args ← l.parametersOr offset (o.map (Concrete.shift a))
        let body ← p
        return (args, body))
      (inScope isClosed do
        let args ← l'.parametersOr offset' o
        let body ← q
        return (args, body)) := by
  refine .inScope _ ((h.parametersOr_alike ho _ _).bind fun args args' hargs => hbody.bind
    fun body body' hbody => .pure ?_)
  rw [hargs, hbody]

/-! ## arguments -/

theorem pairsHash_alike {pairs : List Concrete} (hpairs : ∀ d ∈ pairs, d.Inside n) :
    Alike (List.map Term.outline) (l.pairsHash (pairs.map (Concrete.shift a))) (l'.pairsHash pairs) := by
  cases pairs with
  | nil => exact .refl _ _
  | cons p ps =>
    refine (h.all_alike hpairs).bind fun ts ts' hts => .pure ?_
    rw [List.map_singleton, List.map_singleton, outline_plainTerm, outline_plainTerm, hts]

theorem arguments_alike {o : Option Concrete} (ho : ∀ d ∈ o, d.Inside n) :
    Alike (List.map Term.outline) (l.arguments (o.map (Concrete.shift a))) (l'.arguments o) := by
  unfold arguments
  have hnamed : (o.map (Concrete.shift a)).elim [] Concrete.named =
      (o.elim [] Concrete.named).map (Concrete.shift a) := by
    cases o with
    | none => rfl
    | some d => exact Concrete.shift_named a d
  have hinside : ∀ d ∈ o.elim [] Concrete.named, d.Inside n := by
    cases o with
    | none => exact fun _ hd => absurd hd List.not_mem_nil
    | some d => exact (ho d rfl).named
  have hcut := splitArguments_eq (o.elim [] Concrete.named)
  rw [hnamed, splitArguments_shift]
  generalize splitArguments (o.elim [] Concrete.named) = cut at hcut ⊢
  obtain ⟨plain, pairs, rest⟩ := cut
  rw [← hcut, List.forall_mem_append, List.forall_mem_append] at hinside
  refine (h.all_alike hinside.1).bind fun front front' hfront => ?_
  refine (h.pairsHash_alike hinside.2.1).bind fun hash hash' hhash => ?_
  refine (h.all_alike hinside.2.2).bind fun back back' hback => .pure ?_
  rw [List.map_append, List.map_append, hfront, hhash, hback, List.map_append, List.map_append]

/-! ## calls -/

include hc

theorem callKind_eq : l.callKind (c.shift a) = l'.callKind c := by
  rw [callKind, isSafe, h.partText_eq hc, callKind, isSafe]

theorem block_alike {span span' : Span} {call call' : Term} (hcall : call.outline = call'.outline) :
    Alike Term.outline (l.block span call (c.shift a)) (l'.block span' call' c) := by
  unfold block
  rw [h.text_eq hc, blockParameters?_shift, blockBody?_shift]
  dsimp only
  refine (h.scoped_alike (fun d hd => hc.child (Concrete.mem_of_part?_or_find? hd)) <|
    h.statementsOf_alike fun d hd => hc.child (Concrete.mem_of_part?_or_find? hd)).bind
      fun parts parts' hparts => .pure ?_
  obtain ⟨hargs, hbody⟩ := Prod.mk.inj hparts
  simp only [Term.outline_node, List.map_cons, List.map_nil, hcall, hargs, outline_orNil, hbody]

theorem call_alike : Alike Term.outline (l.call (c.shift a)) (l'.call c) := by
  have harguments : Alike (List.map Term.outline)
      (l.arguments ((c.part? .arguments).map (Concrete.shift a))) (l'.arguments (c.part? .arguments)) :=
    h.arguments_alike hc.part
  have hreceiver : ((c.shift a).part? .receiver).isNone = (c.part? .receiver).isNone := by
    rw [Concrete.shift_part?, Option.isNone_map]
  unfold call
  rw [isPart_shift, hreceiver, h.part?_text hc, h.callKind_eq hc, Concrete.shift_part?,
    Concrete.shift_part?]
  extract_lets isSuper rest name isSuper' rest'
  -- what comes behind the call itself
  have hrest : ∀ {call call' : Term}, call.outline = call'.outline →
      Alike Term.outline (rest call) (rest' call') := by
    intro call call' hcall
    unfold rest rest'
    cases hblock : c.part? .block with
    | none => exact .pure hcall
    | some b => exact h.block_alike (hc.part b hblock) hcall
  rw [show isSuper' = isSuper from rfl]
  split
  · refine Alike.bind (harguments.map fun ts ts' hts => ?_) fun _ _ => hrest
    rw [outline_plainTerm, outline_plainTerm, hts]
  · simp only [pure_bind]
    refine (h.part_alike hc).bind fun receiver receiver' hreceiver => harguments.bind
      fun ts ts' hts => hrest ?_
    simp only [Term.outline_node, List.map_cons, outline_orNil, hreceiver, hts]

theorem elementReference_alike :
    Alike Term.outline (l.elementReference (c.shift a)) (l'.elementReference c) := by
  unfold elementReference
  rw [indices_shift]
  refine (h.part_alike hc).bind fun object object' hobject => ?_
  refine (h.all_alike fun d hd => hc.named d (List.mem_of_mem_filter hd)).bind fun ts ts' hts => .pure ?_
  simp only [Term.outline_node, List.map_cons, outline_orNil, hobject, hts]

/-! ## operators -/

theorem binary_alike : Alike Term.outline (l.binary (c.shift a)) (l'.binary c) := by
  unfold binary
  rw [h.partText_eq hc, isPart_shift]
  refine (h.part_alike hc).bind fun left left' hleft => (h.part_alike hc).bind
    fun right right' hright => ?_
  dsimp only
  split_ifs <;> exact .pure (by
    simp only [Term.outline_node, List.map_cons, List.map_nil, outline_orNil, hleft, hright])

theorem negativeNumber?_eq : (l.negativeNumber? (c.shift a)).map Term.outline =
    (l'.negativeNumber? c).map Term.outline := by
  unfold negativeNumber?
  rw [h.partText_eq hc, Concrete.shift_part?]
  split
  · cases hoperand : c.part? .operand with
    | none => rfl
    | some d =>
      dsimp only [Option.map_some]
      rw [Concrete.shift_construct, h.text_eq (hc.part d hoperand)]
      cases d.construct with
      | integer | float =>
        dsimp only
        rw [Option.map_map, Option.map_map]
        refine Option.map_congr fun _ _ => ?_
        rw [Function.comp_apply, Function.comp_apply, outline_plainTerm, outline_plainTerm]
      | _ => rfl
  · rfl

theorem unary_alike : Alike Term.outline (l.unary (c.shift a)) (l'.unary c) := by
  have hnumber := h.negativeNumber?_eq hc
  unfold unary
  obtain ⟨hnone, hnone'⟩ | ⟨t, t', ht, ht', hsame⟩ := cases_of_map_eq hnumber
  · rw [hnone, hnone', h.partText_eq hc]
    refine (h.part_alike hc).bind fun operand operand' hoperand => ?_
    dsimp only
    split_ifs <;> exact .pure (by
      simp only [Term.outline_node, List.map_cons, List.map_nil, outline_orNil, hoperand])
  · rw [ht, ht']
    exact .pure hsame

theorem range_alike : Alike Term.outline (l.range (c.shift a)) (l'.range c) := by
  unfold range
  rw [h.partText_eq hc]
  refine (h.part_alike hc).bind fun lower lower' hlower => (h.part_alike hc).bind
    fun upper upper' hupper => .pure ?_
  simp only [Term.outline_node, List.map_cons, List.map_nil, outline_orNil, hlower, hupper]

end Relocates

end RubyLint.Ruby.Layout
