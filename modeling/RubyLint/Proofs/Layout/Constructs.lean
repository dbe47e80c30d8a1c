import RubyLint.Proofs.Layout.Made

/-!
# Every construct by its moves

One lemma for each function of the layout: it does what its moves say, and its terms are made of those
of the parts.  The number of nodes that it puts around a part is at most three: a block around a call
around the pairs at the end of its arguments, or around the parameters around a value.

* `node_lays`   so much for every node that is not a word.
-/

namespace RubyLint.Ruby.Layout

section
variable (l : Layout) (c : Concrete) {k : Nat}

/-! ## parts -/

theorem part_lays (role : Role) : Lays l (l.part c role) (visitPart c role)
    fun vs t => Makes c.unpacking vs t.toList := by
  unfold part visitPart
  cases hpart : c.part? role with
  | some d =>
    refine (Lays.visit d).map fun vs t hvs => ?_
    subst hvs
    exact .one (Concrete.unpacking_le_of_part? hpart)
  | none => exact .pure .nil

variable {c}

theorem all_lays {cs : List Concrete} (h : ∀ d ∈ cs, d.unpacking ≤ k) :
    Lays l (l.all cs) (visits cs) (Makes k) := by
  have hmoves : visits cs = cs.flatMap fun d => [.visit d] := List.map_eq_flatMap
  rw [hmoves]
  refine Lays.mapM (P := fun vs t => Makes k vs [t]) (fun d hd => (Lays.visit d).imp ?_) .nil
    fun vs t vs' ts ht hts => ht.append hts
  rintro vs t rfl
  exact .one (h d hd)

theorem statements_lays {cs : List Concrete} (h : ∀ d ∈ cs, d.unpacking ≤ k) :
    Lays l (l.statements cs) (visits cs) fun vs t => Makes (k + 1) vs t.toList :=
  (all_lays l h).map fun _ _ hts => hts.sequence

theorem statementsOf_lays {o : Option Concrete} (h : ∀ d ∈ o, d.unpacking ≤ k) :
    Lays l (l.statementsOf o) (visitNamed o) fun vs t => Makes (k + 1) vs t.toList := by
  refine statements_lays l ?_
  cases o with
  | none => exact fun d hd => absurd hd List.not_mem_nil
  | some b => exact fun d hd => Nat.le_trans (Concrete.unpacking_le_of_named hd) (h b rfl)

variable (c)

theorem named_lays : Lays l (l.all c.named) (visits c.named) (Makes c.unpacking) :=
  all_lays l fun _ hd => Concrete.unpacking_le_of_named hd

theorem wrap_lays {kind : Kind} (hkind : kind ≠ .localVar) :
    Lays l (l.wrap kind c) (visits c.named) fun vs t => Makes (c.unpacking + 1) vs [t] :=
  (named_lays l c).map fun _ _ hts => hts.node hkind

theorem statementsOf_part_lays (role : Role) : Lays l (l.statementsOf (c.part? role))
    (visitNamed (c.part? role)) fun vs t => Makes (c.unpacking + 1) vs t.toList :=
  statementsOf_lays l fun _ hd => Concrete.unpacking_le_of_part? hd

/-! ## parameters -/

theorem bindEach_lays {cs : List Concrete} :
    Lays l (cs.forM fun d => declare (String.ofList (l.text d))) (cs.map (bindText l.source))
      fun vs _ => vs = [] := by
  induction cs with
  | nil => exact .pure rfl
  | cons d cs ih =>
    refine (Lays.declare _).bind fun vs _ hvs => ?_
    subst hvs
    exact ih

theorem nameChild_eq (name : Option (List Char)) :
    nameChild name = (name.toList.map fun n => Value.sym (String.ofList n)).map Term.value := by
  cases name <;> rfl

theorem filterMapM_lays {γ : Type} {f : γ → Arrange (Option Term)} {ms : γ → List Move} {cs : List γ}
    (hf : ∀ d ∈ cs, Lays l (f d) (ms d) fun vs t => Makes k vs t.toList) :
    Lays l (cs.filterMapM f) (cs.flatMap ms) (Makes k) := by
  induction cs with
  | nil => exact .pure .nil
  | cons d cs ih =>
    rw [List.filterMapM_cons, List.flatMap_cons]
    refine (hf d List.mem_cons_self).bind fun vs t ht => ?_
    have hrest := ih fun e he => hf e (List.mem_cons_of_mem d he)
    cases t with
    | none => exact hrest.imp fun vs' ts hts => ht.append hts
    | some t => exact hrest.last fun vs' ts hts => .pure (ht.append hts)

theorem parameter_lays : Lays l (l.parameter c) (parameterMoves l.source c)
    fun vs t => Makes (c.unpacking + 1) vs [t] := by
  induction c using Concrete.ind with
  | h c ih =>
    rw [parameter.eq_def]
    extract_lets name rest
    have hname : ∀ {vs : List Visited} {ts : List Term}, Makes c.unpacking vs ts →
        Makes c.unpacking vs (nameChild name ++ ts) := by
      intro vs ts h
      rw [nameChild_eq]
      exact h.values _
    obtain ⟨ms, hms, hrest⟩ : ∃ ms, parameterMoves l.source c =
        (c.part? .name).toList.map (bindText l.source) ++ ms ∧
        ∀ u, Lays l (rest u) ms fun vs t => Makes (c.unpacking + 1) vs [t] := by
      rw [parameterMoves.eq_def]
      refine ⟨_, rfl, fun u => ?_⟩
      have hplain : ∀ kind, kind ≠ .localVar →
          Lays l (pure (plainTerm kind c.span (nameChild name))) []
            fun vs t => Makes (c.unpacking + 1) vs [t] := by
        intro kind hkind
        have h := hname .nil
        rw [List.append_nil] at h
        exact .pure (h.node hkind)
      unfold rest
      cases hc : c.construct with
      | identifier =>
        refine (Lays.declare _).last fun vs _ hvs => .pure ?_
        subst hvs
        exact (Makes.nil.value _).node (by decide)
      | optionalParameter =>
        refine (part_lays l c .value).last fun vs t ht => .pure ?_
        exact (hname ht.orNil).node (by decide)
      | keywordParameter =>
        refine (part_lays l c .value).last fun vs t ht => ?_
        cases t with
        | some t => exact .pure ((hname ht).node (by decide))
        | none =>
          have h := hname ht
          rw [Option.toList_none, List.append_nil] at h
          exact .pure (h.node (by decide))
      | destructuredParameter =>
        refine (filterMapM_lays l (k := c.unpacking) ?_).last
          fun vs ts hts => .pure (hts.node (by decide))
        rintro ⟨d, hd⟩ -
        show Lays l (if d.isPassedOver then _ else _) (if d.isPassedOver then _ else _) _
        split
        · exact .pure .nil
        · refine (ih d hd).map fun vs t ht => ?_
          exact ht.mono (Concrete.unpacking_lt hc hd)
      | _ => exact hplain _ (by simp [parameterKind])
    rw [hms]
    cases hpart : c.part? .name with
    | none =>
      have hnone : name = none := by simp [name, hpart]
      rw [hnone]
      exact hrest ()
    | some d =>
      have hsome : name = some (l.text d) := by simp [name, hpart]
      rw [hsome]
      refine (Lays.declare _).bind fun vs u hvs => ?_
      subst hvs
      exact hrest u

theorem parameters_lays : Lays l (l.parameters c) (parametersMoves l.source c)
    fun vs t => Makes (c.unpacking + 2) vs [t] := by
  have hall : Lays l (c.named.mapM l.parameter) (parametersMoves l.source c)
      (Makes (c.unpacking + 1)) := by
    refine Lays.mapM (P := fun vs t => Makes (c.unpacking + 1) vs [t]) (fun d hd => ?_) .nil
      fun vs t vs' ts ht hts => ht.append hts
    refine (parameter_lays l d).imp fun vs t ht => ht.mono ?_
    exact Nat.succ_le_succ (Concrete.unpacking_le_of_named hd)
  exact hall.last fun vs ts hts => .pure (hts.node (by decide))

theorem parametersOr_lays (offset : Nat) {o : Option Concrete} (h : ∀ d ∈ o, d.unpacking ≤ k) :
    Lays l (l.parametersOr offset o) (o.elim [] (parametersMoves l.source))
      fun vs t => Makes (k + 2) vs [t] := by
  cases o with
  | none => exact .pure (Makes.mono (Makes.nil.node (by decide)) (Nat.le_add_left 1 (k + 1)))
  | some d =>
    refine (parameters_lays l d).imp fun vs t ht => ht.mono ?_
    exact Nat.add_le_add_right (h d rfl) 2

/-! ## calls -/

theorem splitArguments_eq (cs : List Concrete) :
    (splitArguments cs).1 ++ ((splitArguments cs).2.1 ++ (splitArguments cs).2.2) = cs := by
  have hplain : ∀ front : List Concrete, (front.reverse.dropWhile isPairArgument).reverse ++
      front.drop (front.reverse.dropWhile isPairArgument).reverse.length = front := by
    intro front
    have h := List.reverse_prefix.2 (List.dropWhile_suffix isPairArgument (l := front.reverse))
    rw [List.reverse_reverse] at h
    exact List.prefix_iff_eq_append.1 h
  unfold splitArguments
  show _ ++ (_ ++ _) = cs
  rw [← List.append_assoc, hplain, List.prefix_iff_eq_append.1 (List.takeWhile_prefix _)]

theorem pairsHash_lays {pairs : List Concrete} (h : ∀ d ∈ pairs, d.unpacking ≤ k) :
    Lays l (l.pairsHash pairs) (visits pairs) (Makes (k + 1)) := by
  cases pairs with
  | nil => exact .pure .nil
  | cons p ps =>
    exact (all_lays l h).last fun vs ts hts => .pure (hts.node (by decide))

theorem arguments_lays {o : Option Concrete} (h : ∀ d ∈ o, d.unpacking ≤ k) :
    Lays l (l.arguments o) (visitNamed o) (Makes (k + 1)) := by
  have hnamed : ∀ d ∈ o.elim [] Concrete.named, d.unpacking ≤ k := by
    cases o with
    | none => exact fun d hd => absurd hd List.not_mem_nil
    | some b => exact fun d hd => Nat.le_trans (Concrete.unpacking_le_of_named hd) (h b rfl)
  have hcut := splitArguments_eq (o.elim [] Concrete.named)
  unfold arguments visitNamed
  generalize o.elim [] Concrete.named = named at hnamed hcut ⊢
  generalize splitArguments named = cut at hcut ⊢
  obtain ⟨plain, pairs, rest⟩ := cut
  obtain rfl : plain ++ (pairs ++ rest) = named := hcut
  rw [List.forall_mem_append, List.forall_mem_append] at hnamed
  rw [visits, List.map_append, List.map_append]
  refine (all_lays l hnamed.1).bind fun vs ts hts => ?_
  refine (pairsHash_lays l hnamed.2.1).bind fun vs' ts' hts' => ?_
  refine (all_lays l hnamed.2.2).last fun vs'' ts'' hts'' => .pure ?_
  rw [List.append_assoc]
  exact (hts.mono (Nat.le_succ k)).append (hts'.append (hts''.mono (Nat.le_succ k)))

variable {l c}

theorem ownScope_lays (isClosed : Bool) {p : Arrange Term} {q : Arrange (Option Term)}
    {ms ms' : List Move} (hp : Lays l p ms fun vs t => Makes k vs [t])
    (hq : Lays l q ms' fun vs t => Makes k vs t.toList) :
    Lays l (inScope isClosed do return (← p, ← q)) (ownScope isClosed (ms ++ ms'))
      fun vs r => Makes k vs [r.1, orNil r.2] := by
  refine .inScope isClosed (hp.bind fun vs args hargs => ?_)
  exact hq.last fun vs' body hbody => .pure (hargs.append hbody.orNil)

variable (l c)

theorem block_lays (span : Span) {call : Term} {vs : List Visited} (hk : c.unpacking ≤ k)
    (hcall : Makes (k + 2) vs [call]) :
    Lays l (l.block span call c) (blockMoves l.source c)
      fun vs' t => Makes (k + 3) (vs ++ vs') [t] := by
  unfold block blockMoves
  generalize (if (l.text c).head? = some '{' then (1, 1) else (2, 3) : Nat × Nat) = lengths
  have hbody : ∀ d ∈ blockBody? c, d.unpacking ≤ k := fun d hd =>
    Nat.le_trans (Concrete.unpacking_le (Concrete.mem_of_part?_or_find? hd)) hk
  have hparameters : ∀ d ∈ blockParameters? c, d.unpacking ≤ k := fun d hd =>
    Nat.le_trans (Concrete.unpacking_le (Concrete.mem_of_part?_or_find? hd)) hk
  have hparts := ownScope_lays false
    (parametersOr_lays l (c.span.start + lengths.1) hparameters)
    ((statementsOf_lays l hbody).imp fun _ _ h => h.mono (Nat.le_succ _))
  exact hparts.last fun vs' r hr => .pure ((hcall.append hr).node (by decide))

theorem callKind_ne : l.callKind c ≠ .localVar := by
  unfold callKind
  split <;> decide

theorem call_lays : Lays l (l.call c) (callMoves l.source c)
    fun vs t => Makes (c.unpacking + 3) vs [t] := by
  have harguments := arguments_lays l fun d (hd : d ∈ c.part? .arguments) =>
    Concrete.unpacking_le_of_part? hd
  unfold call callMoves
  extract_lets isSuper rest name
  -- the call by itself has room for a block around it
  have hblock : ∀ {vs call}, Makes (c.unpacking + 2) vs [call] →
      Lays l (rest call) ((c.part? .block).elim [] (blockMoves l.source))
        fun vs' t => Makes (c.unpacking + 3) (vs ++ vs') [t] := by
    intro vs call hcall
    unfold rest
    cases hpart : c.part? .block with
    | some b => exact block_lays l b c.span (Concrete.unpacking_le_of_part? hpart) hcall
    | none =>
      refine .pure ?_
      rw [List.append_nil]
      exact hcall.mono (Nat.le_succ _)
  show Lays l (if isSuper then _ else _) ((if isSuper then _ else _) ++ _ ++ _) _
  split
  · refine Lays.bind (P := fun vs t => Makes (c.unpacking + 2) vs [t]) ?_ fun vs call h => hblock h
    exact harguments.map fun vs ts hts => hts.node (by decide)
  · rw [List.append_assoc]
    refine (part_lays l c .receiver).bind fun vs receiver hreceiver => ?_
    refine harguments.bind fun vs' args hargs => ?_
    rw [pure_bind]
    have hcall : Makes (c.unpacking + 2) (vs ++ vs') [.node (l.callKind c) (callSpan c)
        (l.callLoc c) (orNil receiver :: symTerm name :: args)] :=
      ((hreceiver.orNil.mono (Nat.le_succ _)).append (hargs.value _)).node (callKind_ne l c)
    exact (hblock hcall).imp fun vs'' t ht => List.append_assoc vs vs' vs'' ▸ ht

theorem indices_lays : Lays l (l.all (indices c)) (visits (indices c)) (Makes c.unpacking) :=
  all_lays l fun _ hd => Concrete.unpacking_le_of_named (List.mem_filter.1 hd).1

theorem elementReference_lays : Lays l (l.elementReference c)
    (visitPart c .object ++ visits (indices c)) fun vs t => Makes (c.unpacking + 1) vs [t] := by
  refine (part_lays l c .object).bind fun vs object hobject => ?_
  refine (indices_lays l c).last fun vs' ts hts => .pure ?_
  exact (hobject.orNil.append (hts.value _)).node (by decide)

/-! ## operators -/

theorem binary_lays : Lays l (l.binary c) (visitPart c .left ++ visitPart c .right)
    fun vs t => Makes (c.unpacking + 1) vs [t] := by
  refine (part_lays l c .left).bind fun vs left hleft => ?_
  refine (part_lays l c .right).last fun vs' right hright => ?_
  extract_lets op node both isRegexp
  have hboth : Makes c.unpacking (vs ++ vs') both := hleft.orNil.append hright.orNil
  split
  · exact .pure (hboth.node (by decide))
  split
  · exact .pure (hboth.node (by decide))
  split
  · exact .pure (hboth.node (by decide))
  · exact .pure ((hleft.orNil.append (hright.orNil.value _)).node (by decide))

theorem Makes.number (kind : Kind) (hkind : kind ≠ .localVar) (span : Span) (v : Value) :
    Makes (k + 1) [] [plainTerm kind span [.value v]] := (Makes.nil.value v).node hkind

theorem makes_negativeNumber? {t : Term} (h : l.negativeNumber? c = some t) :
    Makes (k + 1) [] [t] := by
  unfold negativeNumber? at h
  split at h
  · split at h
    · split at h
      · obtain ⟨n, -, rfl⟩ := Option.map_eq_some_iff.1 h
        exact .number .int (by decide) c.span _
      · obtain ⟨x, -, rfl⟩ := Option.map_eq_some_iff.1 h
        exact .number .float (by decide) c.span _
      · cases h
    · cases h
  · cases h

theorem unary_lays : Lays l (l.unary c) (unaryMoves l.source c)
    fun vs t => Makes (c.unpacking + 1) vs [t] := by
  have hnumber : (reading l.source).negativeNumber? c = l.negativeNumber? c := rfl
  unfold unary unaryMoves
  rw [hnumber]
  cases hn : l.negativeNumber? c with
  | some t => exact .pure (makes_negativeNumber? l c hn)
  | none =>
    refine (part_lays l c .operand).last fun vs operand hoperand => ?_
    extract_lets op loc
    split
    · exact .pure (hoperand.orNil.node (by decide))
    · exact .pure ((hoperand.orNil.snoc _).node (by decide))

theorem range_lays : Lays l (l.range c) (visitPart c .lower ++ visitPart c .upper)
    fun vs t => Makes (c.unpacking + 1) vs [t] := by
  refine (part_lays l c .lower).bind fun vs lower hlower => ?_
  refine (part_lays l c .upper).last fun vs' upper hupper => .pure ?_
  exact (hlower.orNil.append hupper.orNil).node (by split <;> decide)

/-! ## literals -/

def segmentMoves : Segment → List Move
  | .literal _ => []
  | .interpolation c => [.visit c]

theorem flatMap_segments (cs : List Concrete) : (segments cs).flatMap segmentMoves =
    visits (cs.filter fun d => d.construct == .interpolation) := by
  induction cs with
  | nil => rfl
  | cons d cs ih =>
    rw [segments]
    split
    · next hd =>
      rw [List.flatMap_cons, ih, List.filter_cons_of_pos (by simpa using hd)]
      rfl
    · next hd =>
      rw [List.filter_cons_of_neg (by simpa using hd), ← ih]
      split
      · next span rest heq => rw [heq, List.flatMap_cons, List.flatMap_cons]; rfl
      · rfl

theorem mem_of_mem_segments {cs : List Concrete} {d : Concrete}
    (h : Segment.interpolation d ∈ segments cs) : d ∈ cs := by
  have hvisit : Move.visit d ∈ visits (cs.filter fun d => d.construct == .interpolation) := by
    rw [← flatMap_segments]
    exact List.mem_flatMap.2 ⟨_, h, List.mem_cons_self⟩
  obtain ⟨d', hd', heq⟩ := List.mem_map.1 hvisit
  cases heq
  exact (List.mem_filter.1 hd').1

theorem makes_literalPart (span : Span) (unescape : Bool) :
    Makes (k + 1) [] [l.literalPart span unescape] := (Makes.nil.value _).node (by decide)

theorem interpolated_lays (unescape : Bool) : Lays l (l.interpolated c.named unescape)
    (interpolatedMoves c) (Makes (c.unpacking + 1)) := by
  unfold interpolated interpolatedMoves
  rw [← flatMap_segments]
  refine Lays.mapM (P := fun vs t => Makes (c.unpacking + 1) vs [t]) (fun s hs => ?_) .nil
    fun vs t vs' ts ht hts => ht.append hts
  cases s with
  | literal span => exact .pure (makes_literalPart l span unescape)
  | interpolation d =>
    refine (Lays.visit d).imp ?_
    rintro vs t rfl
    have hd := Concrete.unpacking_le_of_named (mem_of_mem_segments hs)
    exact .one (Nat.le_succ_of_le hd)

theorem interpolatedMoves_eq_nil (h : ¬ hasInterpolation c = true) : interpolatedMoves c = [] := by
  unfold interpolatedMoves
  rw [List.filter_eq_nil_iff.2]
  · rfl
  · exact fun d hd hd' => h (List.any_eq_true.2 ⟨d, hd, hd'⟩)

theorem string_lays : Lays l (l.string c) (interpolatedMoves c)
    fun vs t => Makes (c.unpacking + 2) vs [t] := by
  unfold string
  extract_lets text delimiters loc isDouble
  split
  · exact (interpolated_lays l c _).last fun vs ts hts => .pure (hts.node (by decide))
  · next h =>
    rw [interpolatedMoves_eq_nil c h]
    exact .pure ((Makes.nil.value _).node (by decide))

theorem delimitedSymbol_lays : Lays l (l.delimitedSymbol c) (interpolatedMoves c)
    fun vs t => Makes (c.unpacking + 2) vs [t] := by
  unfold delimitedSymbol
  extract_lets text
  split
  · exact (interpolated_lays l c _).last fun vs ts hts => .pure (hts.node (by decide))
  · next h =>
    rw [interpolatedMoves_eq_nil c h]
    exact .pure ((Makes.nil.value _).node (by decide))

theorem regexp_lays : Lays l (l.regexp c) (interpolatedMoves c)
    fun vs t => Makes (c.unpacking + 2) vs [t] := by
  unfold regexp
  extract_lets span text noLoc
  generalize (regexpContent? text).getD (0, Text.byteLength text) = ends
  obtain ⟨start, stop⟩ := ends
  dsimp -zeta only
  extract_lets content flagsStart flags options loc rest
  have hoptions : Makes (c.unpacking + 1) [] [options] := by
    have hflags := (Makes.nil (k := c.unpacking)).values
      (flags.map fun f => Value.sym (String.ofList [f]))
    rw [List.map_map, List.append_nil] at hflags
    exact hflags.node (by decide)
  have hnode : ∀ {vs ts}, Makes (c.unpacking + 1) vs ts →
      Makes (c.unpacking + 2) vs [.node .regexp span loc (ts ++ [options])] := fun hts =>
    (hts.beside hoptions).node (by decide)
  split
  · exact (interpolated_lays l c _).last fun vs ts hts => .pure (hnode hts)
  · next h =>
    rw [interpolatedMoves_eq_nil c h]
    split
    · rw [pure_bind]
      exact .pure (hnode .nil)
    · rw [pure_bind]
      exact .pure (hnode (makes_literalPart l content false))

theorem array_lays : Lays l (l.array c) (visits c.named)
    fun vs t => Makes (c.unpacking + 1) vs [t] :=
  (named_lays l c).last fun _ _ hts => .pure (hts.node (by decide))

theorem hash_lays : Lays l (l.hash c) (visits c.named)
    fun vs t => Makes (c.unpacking + 1) vs [t] :=
  (named_lays l c).last fun _ _ hts => .pure (hts.node (by decide))

theorem pair_lays : Lays l (l.pair c) (visitPart c .key ++ visitPart c .value)
    fun vs t => Makes (c.unpacking + 1) vs [t] := by
  refine (part_lays l c .key).bind fun vs key hkey => ?_
  refine (part_lays l c .value).last fun vs' value hvalue => .pure ?_
  exact (hkey.orNil.append hvalue.orNil).node (by decide)

/-! ## assignments -/

/-- The value is read before the target. -/
theorem target_lays (value : Option Term) (span : Span) {vs : List Visited} (hk : c.unpacking ≤ k)
    (hvalue : Makes (k + 1) vs value.toList) :
    Lays l (l.target c value span) (targetMoves l.source c)
      fun vs' t => Makes (k + 2) (vs ++ vs') [t] := by
  have hpart : ∀ role, Lays l (l.part c role) (visitPart c role)
      fun vs' t => Makes (k + 1) vs' [orNil t] := fun role =>
    (part_lays l c role).imp fun _ _ h => h.orNil.mono (Nat.le_succ_of_le hk)
  have hall : ∀ {cs}, (∀ d ∈ cs, d ∈ c.named) → Lays l (l.all cs) (visits cs) (Makes (k + 1)) :=
    fun hcs => (all_lays l fun d hd => Concrete.unpacking_le_of_named (hcs d hd)).imp
      fun _ _ h => h.mono (Nat.le_succ_of_le hk)
  unfold target targetMoves
  extract_lets text variableTerm
  have hvariable : ∀ kind, kind ≠ .localVar →
      Makes (k + 2) (vs ++ []) [variableTerm kind] := by
    intro kind hkind
    rw [List.append_nil]
    exact (hvalue.value _).node hkind
  cases hc : c.construct with
  | identifier =>
    refine (Lays.declare _).last fun vs' _ hvs' => .pure ?_
    subst hvs'
    exact hvariable _ (by decide)
  | instanceVariable => exact .pure (hvariable _ (by decide))
  | globalVariable => exact .pure (hvariable _ (by decide))
  | classVariable => exact .pure (hvariable _ (by decide))
  | constant =>
    refine .pure ?_
    rw [List.append_nil]
    exact ((hvalue.value _).value _).node (by decide)
  | scopeResolution =>
    refine (hpart .scope).last fun vs' scope hscope => .pure ?_
    exact (hscope.behind (hvalue.value _)).node (by decide)
  | call =>
    refine (hpart .receiver).last fun vs' receiver hreceiver => .pure ?_
    exact (hreceiver.behind (hvalue.value _)).node (callKind_ne l c)
  | elementReference =>
    refine (hpart .object).bind fun vs' object hobject => ?_
    refine (hall fun d hd => (List.mem_filter.1 hd).1).last fun vs'' indices hindices => .pure ?_
    exact ((hobject.append (hindices.value _)).behind hvalue).node (by decide)
  | leftAssignmentList =>
    refine (bindEach_lays l).bind fun vs' _ hvs' => ?_
    subst hvs'
    refine (hall fun d hd => hd).last fun vs'' ts hts => .pure ?_
    exact (hts.behind hvalue).node (by decide)
  | _ =>
    refine .pure ?_
    rw [List.append_nil]
    exact hvalue.node (by simp)

theorem declareTarget_lays : Lays l (l.declareTarget c)
    (match c.construct with
      | .identifier => [bindText l.source c]
      | .leftAssignmentList => (identifiersIn c).map (bindText l.source)
      | _ => []) fun vs _ => vs = [] := by
  unfold declareTarget
  cases c.construct with
  | identifier => exact .declare _
  | leftAssignmentList => exact bindEach_lays l
  | _ => exact .pure rfl

theorem assignedValue_lays (hk : c.unpacking ≤ k) : Lays l (l.assignedValue c)
    (match c.construct with
      | .rightAssignmentList => visits c.named
      | _ => [.visit c]) fun vs t => Makes (k + 1) vs [t] := by
  have hvisit : Lays l (l.below c) [.visit c] fun vs t => Makes (k + 1) vs [t] := by
    refine (Lays.visit c).imp ?_
    rintro vs t rfl
    exact .one (Nat.le_succ_of_le hk)
  unfold assignedValue
  cases c.construct with
  | rightAssignmentList =>
    exact (wrap_lays l c (by decide)).imp fun _ _ h => h.mono (Nat.succ_le_succ hk)
  | _ => exact hvisit

theorem assignment_lays : Lays l (l.assignment c) (assignmentMoves l.source c)
    fun vs t => Makes (c.unpacking + 3) vs [t] := by
  unfold assignment assignmentMoves
  cases hleft : c.part? .left with
  | none => exact .refuse _
  | some left =>
    have hk := Concrete.unpacking_le_of_part? hleft
    dsimp -zeta only
    rw [List.append_assoc]
    refine (declareTarget_lays l left).bind fun vs _ hvs => ?_
    subst hvs
    extract_lets rest
    have hvalue : ∀ {vs value}, Makes (c.unpacking + 1) vs [value] →
        Lays l (rest value) (targetMoves l.source left)
          fun vs' t => Makes (c.unpacking + 3) (vs ++ vs') [t] := by
      intro vs value hvalue
      unfold rest
      have hone := (target_lays l left (some value) c.span hk hvalue).imp
        fun _ _ h => h.mono (Nat.le_succ _)
      cases left.construct with
      | leftAssignmentList =>
        refine (target_lays l left none left.span hk .nil).last fun vs' t ht => .pure ?_
        exact (ht.behind (hvalue.mono (Nat.le_succ _))).node (by decide)
      | _ => exact hone
    cases hright : c.part? .right with
    | some right =>
      have hright := Concrete.unpacking_le_of_part? hright
      exact (assignedValue_lays l right hright).bind fun vs value h => hvalue h
    | none =>
      show Lays l (pure nilTerm >>= _) (targetMoves l.source left) _
      rw [pure_bind]
      exact hvalue (Makes.nil.value _)

theorem operatorAssignment_lays : Lays l (l.operatorAssignment c)
    (operatorAssignmentMoves l.source c) fun vs t => Makes (c.unpacking + 3) vs [t] := by
  unfold operatorAssignment operatorAssignmentMoves
  cases hleft : c.part? .left with
  | none => exact .refuse _
  | some left =>
    have hk := Concrete.unpacking_le_of_part? hleft
    refine (target_lays l left none left.span hk .nil).bind fun vs target htarget => ?_
    refine (part_lays l c .right).last fun vs' value hvalue => ?_
    have hvalue := hvalue.orNil.mono (Nat.le_add_right _ 2)
    extract_lets op loc node
    split
    · exact .pure ((htarget.append hvalue).node (by decide))
    split
    · exact .pure ((htarget.append hvalue).node (by decide))
    · exact .pure ((htarget.append (hvalue.value _)).node (by decide))

/-! ## names, conditions and loops -/

theorem scopeResolution_lays : Lays l (l.scopeResolution c) (visitPart c .scope)
    fun vs t => Makes (c.unpacking + 2) vs [t] := by
  have hrest : ∀ {vs scope}, Makes (c.unpacking + 1) vs [scope] → Lays l
      (pure (plainTerm .constant c.span [scope, symTerm (l.partText c .name)])) []
      fun _ t => Makes (c.unpacking + 2) vs [t] := fun h => .pure ((h.snoc _).node (by decide))
  unfold scopeResolution visitPart
  cases hpart : c.part? .scope with
  | some d =>
    refine (Lays.visit d).last fun vs scope hvs => hrest ?_
    subst hvs
    exact .one (Nat.le_succ_of_le (Concrete.unpacking_le_of_part? hpart))
  | none =>
    have hroot : Makes (c.unpacking + 1) []
        [plainTerm .rootScope ⟨c.span.start, c.span.start + 2⟩ []] := Makes.nil.node (by decide)
    show Lays l (pure _ >>= _) [] _
    rw [pure_bind]
    exact .pure ((hroot.snoc _).node (by decide))

theorem branch_lays {o : Option Concrete} (h : ∀ d ∈ o, d.unpacking ≤ k) :
    Lays l (l.branch o) (branchMoves o) fun vs t => Makes (k + 1) vs t.toList := by
  cases o with
  | none => exact .pure .nil
  | some d =>
    show Lays l (if d.construct = .elsifBranch then _ else _)
      (if d.construct = .elsifBranch then _ else _) _
    split
    · refine (Lays.visit d).map fun vs t hvs => ?_
      subst hvs
      exact .one (Nat.le_succ_of_le (h d rfl))
    · exact statementsOf_lays l h

theorem conditional_lays (negated : Bool) : Lays l (l.conditional c negated)
    (visitPart c .condition ++ branchMoves (c.part? .consequence) ++
      branchMoves (c.part? .alternative)) fun vs t => Makes (c.unpacking + 2) vs [t] := by
  unfold conditional
  rw [List.append_assoc]
  refine (part_lays l c .condition).bind fun vs condition hcondition => ?_
  refine (branch_lays l fun d hd => Concrete.unpacking_le_of_part? hd).bind fun vs' yes hyes => ?_
  refine (branch_lays l fun d hd => Concrete.unpacking_le_of_part? hd).last fun vs'' no hno => .pure ?_
  have hcondition := hcondition.orNil.mono (Nat.le_succ _)
  refine Makes.node ?_ (by decide)
  split
  · exact hcondition.append (hno.orNil.behind hyes.orNil)
  · exact hcondition.append (hyes.orNil.append hno.orNil)

theorem modifier_lays (negated : Bool) : Lays l (l.modifier c negated)
    (visitPart c .body ++ visitPart c .condition) fun vs t => Makes (c.unpacking + 1) vs [t] := by
  unfold modifier
  refine (part_lays l c .body).bind fun vs body hbody => ?_
  refine (part_lays l c .condition).last fun vs' condition hcondition => .pure ?_
  refine Makes.node ?_ (by decide)
  split
  · exact hcondition.orNil.behind (hbody.orNil.value _)
  · exact hcondition.orNil.behind (hbody.orNil.snoc _)

theorem loop_lays {kind : Kind} (hkind : kind ≠ .localVar) : Lays l (l.loop c kind)
    (visitPart c .condition ++ visitNamed (c.part? .body))
    fun vs t => Makes (c.unpacking + 2) vs [t] := by
  unfold loop
  refine (part_lays l c .condition).bind fun vs condition hcondition => ?_
  refine (statementsOf_part_lays l c .body).last fun vs' body hbody => .pure ?_
  exact ((hcondition.orNil.mono (Nat.le_succ _)).append hbody.orNil).node hkind

theorem loopModifier_lays {kind : Kind} (hkind : kind ≠ .localVar) : Lays l (l.loopModifier c kind)
    (visitPart c .body ++ visitPart c .condition) fun vs t => Makes (c.unpacking + 1) vs [t] := by
  unfold loopModifier
  refine (part_lays l c .body).bind fun vs body hbody => ?_
  refine (part_lays l c .condition).last fun vs' condition hcondition => .pure ?_
  exact (hcondition.orNil.behind hbody.orNil).node hkind

theorem forLoop_lays : Lays l (l.forLoop c) (forMoves l.source c)
    fun vs t => Makes (c.unpacking + 3) vs [t] := by
  have hrest : ∀ {vs target}, Makes (c.unpacking + 2) vs [orNil target] → Lays l (do
      let value ← l.part c .value
      let body ← l.statementsOf (c.part? .body)
      return plainTerm .forLoop c.span [orNil target, orNil value, orNil body])
      (visitPart c .value ++ visitNamed (c.part? .body))
      fun vs' t => Makes (c.unpacking + 3) (vs ++ vs') [t] := by
    intro vs target htarget
    refine (part_lays l c .value).bind fun vs' value hvalue => ?_
    refine (statementsOf_part_lays l c .body).last fun vs'' body hbody => .pure ?_
    have hvalue := hvalue.orNil.mono (Nat.le_add_right _ 2)
    have hbody := hbody.orNil.mono (Nat.le_succ _)
    exact (htarget.append (hvalue.append hbody)).node (by decide)
  unfold forLoop forMoves
  rw [List.append_assoc]
  cases hpattern : c.part? .pattern with
  | some p =>
    have hp := Concrete.unpacking_le_of_part? hpattern
    refine ((target_lays l p none p.span hp .nil).map fun vs t ht => ?_).bind fun vs target h => hrest h
    exact ht
  | none =>
    show Lays l (pure none >>= _) _ _
    rw [pure_bind]
    exact @hrest [] none (Makes.nil.value _)

def caseStep (acc : List Term × Option Term) (d : Concrete) :
    Arrange (List Term × Option Term) := do
  match d.construct with
  | .whenBranch => return (acc.1 ++ [← l.below d], acc.2)
  | .elseBranch => return (acc.1, ← l.statementsOf (some d))
  | _ => return acc

/-- the branches are added at the end; of several parts that are left over the last one is kept -/
theorem caseSteps_lays {ds : List Concrete} (hds : ∀ d ∈ ds, d.unpacking ≤ k)
    (acc : List Term × Option Term) : Lays l (ds.foldlM (caseStep l) acc)
      (ds.flatMap caseBranchMoves) fun vs r => ∃ ts, r.1 = acc.1 ++ ts ∧
        (∀ t ∈ ts, Made vs (k + 1) t) ∧ (∀ t ∈ r.2, t ∈ acc.2 ∨ Made vs (k + 1) t) ∧
        (ds.countP (fun d => d.construct == .elseBranch) = 0 → r.2 = acc.2 ∧ Makes (k + 1) vs ts) ∧
        (ds.countP (fun d => d.construct == .elseBranch) ≤ 1 → acc.2 = none →
          Makes (k + 1) vs (ts ++ r.2.toList)) := by
  induction ds generalizing acc with
  | nil =>
    refine .pure ⟨[], (List.append_nil _).symm, fun t h => absurd h List.not_mem_nil,
      fun t h => .inl h, fun _ => ⟨rfl, .nil⟩, fun _ hacc => ?_⟩
    rw [hacc]
    exact .nil
  | cons d ds ih =>
    have hd := hds d List.mem_cons_self
    have ih := ih fun e he => hds e (List.mem_cons_of_mem d he)
    rw [List.foldlM_cons, List.flatMap_cons, List.countP_cons]
    unfold caseStep caseBranchMoves
    cases hc : d.construct with
    | whenBranch =>
      refine ((Lays.visit d).last fun vs t hvs => .pure ⟨t, hvs, rfl⟩).bind
        (P := fun vs r => ∃ t, vs = [(d, t)] ∧ r = (acc.1 ++ [t], acc.2)) ?_
      rintro vs r ⟨t, rfl, rfl⟩
      refine (ih (acc.1 ++ [t], acc.2)).imp fun vs r h => ?_
      obtain ⟨ts, hr, hmade, hlast, hnone, hone⟩ := h
      have ht : Makes (k + 1) [(d, t)] [t] := .one (Nat.le_succ_of_le hd)
      have hmono : ∀ {t'}, Made vs (k + 1) t' → Made ([(d, t)] ++ vs) (k + 1) t' := fun h =>
        h.mono (fun _ hv => List.mem_append_right _ hv) (Nat.le_refl _)
      refine ⟨t :: ts, ?_, ?_, fun t' h => (hlast t' h).imp_right hmono, fun h => ?_, fun h hacc => ?_⟩
      · rw [hr, List.append_assoc]
        rfl
      · refine List.forall_mem_cons.2 ⟨?_, fun t' h => hmono (hmade t' h)⟩
        exact .part List.mem_cons_self (Nat.le_succ_of_le hd)
      · obtain ⟨hr, hts⟩ := hnone h
        exact ⟨hr, ht.append hts⟩
      · exact ht.append (hone h hacc)
    | elseBranch =>
      have hstatements := statementsOf_lays l (o := some d) fun e he => Option.some.inj he ▸ hd
      refine (hstatements.last fun vs o ho => .pure ⟨o, ho, rfl⟩).bind
        (P := fun vs r => ∃ o : Option Term, Makes (k + 1) vs o.toList ∧ r = (acc.1, o)) ?_
      rintro vs' r ⟨o, ho, rfl⟩
      refine (ih (acc.1, o)).imp fun vs r h => ?_
      obtain ⟨ts, hr, hmade, hlast, hnone, hone⟩ := h
      have hmono : ∀ {t'}, Made vs (k + 1) t' → Made (vs' ++ vs) (k + 1) t' := fun h =>
        h.mono (fun _ hv => List.mem_append_right _ hv) (Nat.le_refl _)
      refine ⟨ts, hr, fun t h => hmono (hmade t h), fun t h => .inr ?_, fun h => ?_, fun h _ => ?_⟩
      · rcases hlast t h with h | h
        · refine (ho.made t (Option.mem_toList.2 h)).mono (fun _ hv => ?_) (Nat.le_refl _)
          exact List.mem_append_left _ hv
        · exact hmono h
      · exact absurd h (Nat.succ_ne_zero _)
      · obtain ⟨hr, hts⟩ := hnone (Nat.le_zero.1 (Nat.le_of_succ_le_succ h))
        rw [hr]
        exact hts.behind ho
    | _ =>
      rw [pure_bind]
      exact ih acc

theorem caseOf_lays : Lays l (l.caseOf c) (caseMoves c) fun vs t => Made vs (c.unpacking + 2) t ∧
    (c.named.countP (fun d => d.construct == .elseBranch) ≤ 1 → Makes (c.unpacking + 2) vs [t]) := by
  unfold caseOf caseMoves
  extract_lets parts
  refine (part_lays l c .value).bind fun vs value hvalue => ?_
  have hparts : ∀ d ∈ parts, d.unpacking ≤ c.unpacking := fun d hd =>
    Concrete.unpacking_le_of_named (List.mem_filter.1 hd).1
  refine (caseSteps_lays l hparts ([], none)).last fun vs' r h => .pure ?_
  obtain ⟨ts, hr, hmade, hlast, -, hone⟩ := h
  have hvalue := hvalue.orNil.mono (Nat.le_succ _)
  rw [List.nil_append] at hr
  subst hr
  constructor
  · refine .node (by decide) fun t ht => ?_
    have hmono : ∀ {t}, Made vs' (c.unpacking + 1) t → Made (vs ++ vs') (c.unpacking + 1) t :=
      fun h => h.mono (fun _ hv => List.mem_append_right _ hv) (Nat.le_refl _)
    rcases List.mem_append.1 ht with ht | ht
    · rcases List.mem_cons.1 ht with rfl | ht
      · exact (hvalue.made _ List.mem_cons_self).mono (fun _ hv => List.mem_append_left _ hv)
          (Nat.le_refl _)
      · exact hmono (hmade t ht)
    · obtain rfl := List.mem_singleton.1 ht
      cases hother : r.2 with
      | none => exact .value .nil
      | some t =>
        rcases hlast t hother with h | h
        · cases h
        · exact hmono h
  · intro hcount
    have hle : parts.countP (fun d => d.construct == .elseBranch) ≤ 1 :=
      Nat.le_trans List.filter_sublist.countP_le hcount
    have hall := hvalue.append (hone hle rfl)
    cases hother : r.2 with
    | none =>
      rw [hother, Option.toList_none, List.append_nil] at hall
      exact (hall.snoc .nil).node (by decide)
    | some t =>
      rw [hother] at hall
      exact hall.node (by decide)

theorem whenBranch_lays : Lays l (l.whenBranch c)
    (visits (c.parts .pattern) ++ visitNamed (c.part? .body))
    fun vs t => Makes (c.unpacking + 2) vs [t] := by
  unfold whenBranch
  refine (all_lays l fun d hd =>
    Concrete.unpacking_le (Concrete.mem_children_of_parts hd)).bind fun vs values hvalues => ?_
  refine (statementsOf_part_lays l c .body).last fun vs' body hbody => .pure ?_
  exact ((hvalues.mono (Nat.le_succ _)).append hbody.orNil).node (by decide)

/-! ## definitions -/

theorem methodBody_lays : Lays l (l.methodBody c) (methodBodyMoves c)
    fun vs t => Makes (c.unpacking + 1) vs t.toList := by
  unfold methodBody methodBodyMoves
  cases hpart : c.part? .body with
  | some b =>
    have hb := Concrete.unpacking_le_of_part? hpart
    show Lays l (if b.construct = .bodyStatement then _ else _)
      (if b.construct = .bodyStatement then _ else _) _
    split
    · exact statementsOf_lays l fun d hd => Option.some.inj hd ▸ hb
    · refine (Lays.visit b).map fun vs t hvs => ?_
      subst hvs
      exact .one (Nat.le_succ_of_le hb)
  | none =>
    exact statements_lays l fun d hd => Concrete.unpacking_le_of_named (List.mem_filter.1 hd).1

theorem method_lays (isSingleton : Bool) : Lays l (l.method c isSingleton)
    (methodMoves l.source c isSingleton) fun vs t => Makes (c.unpacking + 3) vs [t] := by
  have hparts := ownScope_lays true
    (parametersOr_lays l ((c.part? .name).elim c.span.start fun d => d.span.stop)
      fun d (hd : d ∈ c.part? .parameters) => Concrete.unpacking_le_of_part? hd)
    ((methodBody_lays l c).imp fun _ _ h => h.mono (Nat.le_succ _))
  unfold method methodMoves
  extract_lets name start noLoc loc kind rest
  have hkind : kind ≠ .localVar := by
    unfold kind
    split <;> decide
  have hrest : ∀ {vs object}, Makes (c.unpacking + 2) vs object → Lays l (rest object)
      (ownScope true ((c.part? .parameters).elim [] (parametersMoves l.source) ++ methodBodyMoves c))
      fun vs' t => Makes (c.unpacking + 3) (vs ++ vs') [t] := fun hobject =>
    hparts.last fun vs r hr => .pure ((hobject.append (hr.value _)).node hkind)
  split
  · refine ((part_lays l c .object).map fun vs t ht => ?_).bind fun vs object h => hrest h
    exact ht.orNil.mono (Nat.le_add_right _ 2)
  · rw [pure_bind]
    exact hrest .nil

theorem closedBody_lays : Lays l (l.closedBody c) (closedBodyMoves c)
    fun vs t => Makes (c.unpacking + 1) vs [orNil t] :=
  .inScope true ((statementsOf_part_lays l c .body).imp fun _ _ h => h.orNil)

theorem classDefinition_lays : Lays l (l.classDefinition c)
    (visitPart c .name ++ visitPart c .superclass ++ closedBodyMoves c)
    fun vs t => Makes (c.unpacking + 2) vs [t] := by
  unfold classDefinition
  rw [List.append_assoc]
  refine (part_lays l c .name).bind fun vs name hname => ?_
  refine (part_lays l c .superclass).bind fun vs' superclass hsuper => ?_
  refine (closedBody_lays l c).last fun vs'' body hbody => .pure ?_
  have hname := hname.orNil.mono (Nat.le_succ _)
  have hsuper := hsuper.orNil.mono (Nat.le_succ _)
  exact (hname.append (hsuper.append hbody)).node (by decide)

theorem moduleDefinition_lays : Lays l (l.moduleDefinition c)
    (visitPart c .name ++ closedBodyMoves c) fun vs t => Makes (c.unpacking + 2) vs [t] := by
  unfold moduleDefinition
  refine (part_lays l c .name).bind fun vs name hname => ?_
  refine (closedBody_lays l c).last fun vs' body hbody => .pure ?_
  exact ((hname.orNil.mono (Nat.le_succ _)).append hbody).node (by decide)

theorem singletonClass_lays : Lays l (l.singletonClass c)
    (visitPart c .value ++ closedBodyMoves c) fun vs t => Makes (c.unpacking + 2) vs [t] := by
  unfold singletonClass
  refine (part_lays l c .value).bind fun vs value hvalue => ?_
  refine (closedBody_lays l c).last fun vs' body hbody => .pure ?_
  exact ((hvalue.orNil.mono (Nat.le_succ _)).append hbody).node (by decide)

theorem jump_lays {kind : Kind} (hkind : kind ≠ .localVar) : Lays l (l.jump c kind) (jumpMoves c)
    fun vs t => Makes (c.unpacking + 2) vs [t] := by
  unfold jump jumpMoves
  refine (Lays.mapM (P := Makes (c.unpacking + 1)) (R := fun vs tss => Makes _ vs tss.flatten)
    (fun d hd => ?_) .nil fun vs ts vs' tss hts htss => ?_).last fun vs tss htss => .pure (htss.node hkind)
  · have hle := Concrete.unpacking_le_of_named hd
    split
    · exact arguments_lays l fun e he => Option.some.inj he ▸ hle
    · refine (Lays.visit d).map fun vs t hvs => ?_
      subst hvs
      exact .one (Nat.le_succ_of_le hle)
  · exact hts.append htss

theorem firstPart_lays : Lays l (l.firstPart c) (visits c.named.head?.toList)
    fun vs t => Makes (c.unpacking + 1) vs [t] := by
  unfold firstPart
  cases hnamed : c.named with
  | nil => exact .pure (Makes.nil.node (by decide))
  | cons d ds =>
    refine (Lays.visit d).imp ?_
    rintro vs t rfl
    have hd : d ∈ c.named := hnamed ▸ List.mem_cons_self
    exact .one (Nat.le_succ_of_le (Concrete.unpacking_le_of_named hd))

/-! ## every node -/

def KeepsAll (c : Concrete) : Prop :=
  c.construct = .caseOf → c.named.countP (fun d => d.construct == .elseBranch) ≤ 1

/-- **The layout of a node does what its moves say**, and puts at most three nodes around the terms of its
parts, a parameter that is taken apart counted on its own.  The term of every part stands in the term of
the node, except of a case with several parts that are left over. -/
theorem node_lays (hc : c.construct ≠ .identifier) : Lays l (l.node c) (moves l.source c)
    fun vs t => Made vs (c.unpacking + 3) t ∧ (KeepsAll c → Makes (c.unpacking + 3) vs [t]) := by
  have hall : ∀ {p ms j}, j ≤ 3 → (Lays l p ms fun vs t => Makes (c.unpacking + j) vs [t]) →
      Lays l p ms fun vs t => Made vs (c.unpacking + 3) t ∧
        (KeepsAll c → Makes (c.unpacking + 3) vs [t]) := by
    intro p ms j hj h
    refine h.imp fun vs t ht => ?_
    have ht := ht.mono (Nat.add_le_add_left hj _)
    exact ⟨ht.made t List.mem_cons_self, fun _ => ht⟩
  -- a node without parts, with values for children
  have hleaf : ∀ {kind loc} (ws : List Value), kind ≠ .localVar →
      Lays l (pure (.node kind c.span loc (ws.map Term.value))) []
        fun vs t => Made vs (c.unpacking + 3) t ∧ (KeepsAll c → Makes (c.unpacking + 3) vs [t]) := by
    intro kind loc ws hkind
    refine hall (j := 1) (by decide) (.pure ?_)
    have h := (Makes.nil (k := c.unpacking)).values ws
    rw [List.append_nil] at h
    exact h.node hkind
  unfold node moves
  extract_lets word variableTerm
  cases hk : c.construct with
  | identifier => exact absurd hk hc
  | constant => exact hleaf [.nil, .sym _] (by decide)
  | selfWord | superWord | nilWord | trueWord | falseWord => exact hleaf [] (by decide)
  | instanceVariable | classVariable | globalVariable => exact hleaf [.sym _] (by decide)
  | integer =>
    dsimp only [integer]
    split
    · exact hleaf [.int _] (by decide)
    · exact hleaf [.str _] (by decide)
  | float =>
    dsimp only [float]
    split
    · exact hleaf [.float _] (by decide)
    · exact hleaf [.str _] (by decide)
  | character => exact hleaf [.str _] (by decide)
  | bareString => exact hleaf [.str _] (by decide)
  | simpleSymbol => exact hleaf [.sym _] (by decide)
  | hashKeySymbol | bareSymbol => exact hleaf [.sym _] (by decide)
  | scopeResolution => exact hall (by decide) (scopeResolution_lays l c)
  | string => exact hall (by decide) (string_lays l c)
  | delimitedSymbol => exact hall (by decide) (delimitedSymbol_lays l c)
  | regex => exact hall (by decide) (regexp_lays l c)
  | array | stringArray | symbolArray => exact hall (by decide) (array_lays l c)
  | hash => exact hall (by decide) (hash_lays l c)
  | pair => exact hall (by decide) (pair_lays l c)
  | call => exact hall (by decide) (call_lays l c)
  | elementReference => exact hall (by decide) (elementReference_lays l c)
  | binary => exact hall (by decide) (binary_lays l c)
  | unary => exact hall (by decide) (unary_lays l c)
  | parenthesized =>
    exact hall (j := 1) (by decide)
      ((named_lays l c).last fun _ _ hts => .pure (hts.node (by decide)))
  | whenPattern | superclassPart | inPart => exact hall (by decide) (firstPart_lays l c)
  | assignment => exact hall (by decide) (assignment_lays l c)
  | operatorAssignment => exact hall (by decide) (operatorAssignment_lays l c)
  | ifBranch | elsifBranch | conditional => exact hall (by decide) (conditional_lays l c false)
  | unlessBranch => exact hall (by decide) (conditional_lays l c true)
  | ifModifier => exact hall (by decide) (modifier_lays l c false)
  | unlessModifier => exact hall (by decide) (modifier_lays l c true)
  | whileLoop | untilLoop => exact hall (by decide) (loop_lays l c (by decide))
  | whileModifier | untilModifier => exact hall (by decide) (loopModifier_lays l c (by decide))
  | forLoop => exact hall (by decide) (forLoop_lays l c)
  | caseOf =>
    refine (caseOf_lays l c).imp fun vs t h => ?_
    refine ⟨h.1.mono (fun _ hv => hv) (Nat.le_succ _), fun hkeeps => ?_⟩
    exact (h.2 (hkeeps hk)).mono (Nat.le_succ _)
  | whenBranch => exact hall (by decide) (whenBranch_lays l c)
  | methodDefinition => exact hall (by decide) (method_lays l c false)
  | singletonMethod => exact hall (by decide) (method_lays l c true)
  | classDefinition => exact hall (by decide) (classDefinition_lays l c)
  | moduleDefinition => exact hall (by decide) (moduleDefinition_lays l c)
  | singletonClass => exact hall (by decide) (singletonClass_lays l c)
  | returnJump | breakJump | nextJump | yieldCall =>
    exact hall (by decide) (jump_lays l c (by decide))
  | range => exact hall (by decide) (range_lays l c)
  | blockParameters | methodParameters | lambdaParameters =>
    exact hall (by decide) (parameters_lays l c)
  | _ => exact hall (j := 1) (by decide) (wrap_lays l c (by simp))

/-! ## words -/

/-- The term of a word: a local variable, or else a call on the current object. -/
def wordTerm (source : List Char) (c : Concrete) (isLocal : Bool) : Term :=
  let name := symTerm ((reading source).text c)
  if isLocal then plainTerm .localVar c.span [name]
  else .node .send c.span { Loc.none with selector := some c.span } [nilTerm, name]

/-- A word is read by the scopes, and leaves them as they are. -/
theorem run_identifier (s : List Scope) : (l.identifier c).run s =
    .ok (wordTerm l.source c (isLocal (wordName l.source c) s), s) := by
  unfold identifier wordTerm
  show (do
    let scopes ← get
    if isLocal (wordName l.source c) scopes then
      return plainTerm .localVar c.span [symTerm (l.text c)]
    else
      return .node .send c.span { Loc.none with selector := some c.span }
        [nilTerm, symTerm (l.text c)] : Arrange Term).run s = _
  cases h : isLocal (wordName l.source c) s <;> simp [h, reading] <;> rfl

end

theorem run_within_word {source : List Char} {n : Nat} {c : Concrete} {s : List Scope}
    (hc : c.construct = .identifier) : (within source (n + 1) c).run s =
      .ok (wordTerm source c (isLocal (wordName source c) s), s) := by
  show (Layout.node ⟨source, within source n⟩ c).run s = _
  unfold Layout.node
  rw [hc]
  exact run_identifier ⟨source, within source n⟩ c s

/-! ## texts -/

theorem rootTerm_eq (source : List Char) (forest : List Concrete) : rootTerm source forest =
    match ((ofSource source).statements forest).run [Scope.fresh true] with
    | .ok (root, _) => .ok (root.getD (plainTerm .sequence ⟨0, Text.byteLength source⟩ []))
    | .error e => .error e := by
  unfold rootTerm
  show ((fun r : Option Term × List Scope => r.1) <$>
    ((ofSource source).statements forest).run [Scope.fresh true] >>= _) = _
  cases ((ofSource source).statements forest).run [Scope.fresh true] <;> rfl

end RubyLint.Ruby.Layout
