import RubyLint.Proofs.Rule.Finding
import RubyLint.Proofs.Rule.Matching
import RubyLint.Proofs.Rule.Reading

/-!
# Parentheses around a pushed element

A push with the operator `<<` groups with what is written beside it.  The element is enclosed where it
binds no tighter than the operator, and the whole where it would be grouped with what is around it.

* `Node.BindsLoosely`    the constructs that bind no tighter than `<<`;
* `Node.IsRegrouped`     the places where a call is grouped with what is around it, once it is written
                         with the operator;
* `isLoose_iff`, `needsWrapping_iff`   the rule encloses exactly those;
* `arrayPushSingle_grouping`   so its correction is the receiver, the operator and the element, with
                         parentheses where they are needed and nowhere else.
-/

namespace RubyLint

/-! ## how tightly a node binds -/

namespace Node

variable {t : SyntaxTree}

/-- a call that is written with one of the operators between its operands -/
structure IsInfix (n : Node t) (operators : List String) : Prop where
  noDot : n.loc.dot = none
  exists_left : ∃ left, n.receiver? = some left
  hasRight : n.hasArguments = true
  named : ∃ operator ∈ operators, n.methodName? = some operator

structure IsCommand (n : Node t) : Prop where
  hasArguments : n.hasArguments = true
  bare : n.loc.opening = none
  hasName : n.loc.dot.isSome = true ∨ n.receiver? = none

def EndsOpen (n : Node t) : Prop := ∃ text, n.source? = some text ∧ text.toList.getLast? ≠ some ')'

structure IsWordNot (n : Node t) : Prop where
  isNot : n.isMethod "!" = true
  exists_text : ∃ text, n.source? = some text ∧ "not".toList <+: text.toList

/-- The kinds that bind no tighter than the operator that pushes: joined by `and` or `or`, chosen by a
condition, repeated, rescued, a range, or an assignment of any form. -/
def looseKinds : List Kind :=
  [.conjunction, .disjunction, .conditional, .whileLoop, .untilLoop, .other "rescue_modifier",
    .inclusiveRange, .exclusiveRange, .localAssign, .instanceAssign, .globalAssign, .classAssign,
    .constAssign, .other "masgn", .opAssign, .orAssign, .andAssign, .matchAssign]

/-- The node binds no tighter than the operator that pushes. -/
inductive BindsLoosely (n : Node t) : Prop
  | joined (h : n.kind ∈ looseKinds)
  | negated (hcall : n.isCall = true) (h : n.IsWordNot)
  /-- a comparison, a shift, or an operator on bits -/
  | operator (h : n.IsInfix Rule.looseOperators)
  | command (h : n.IsCommand)
  /-- a call of the overridden method or of the block, with arguments -/
  | passed (hkind : n.kind = .superCall ∨ n.kind = .yieldCall) (hpos : 0 < n.childCount)
      (h : n.EndsOpen)
  | checked (hkind : n.kind = .definedCheck) (hbare : n.loc.opening = none) (h : n.EndsOpen)

/-- The call is grouped in another way where it stands, once it is written with the operator that
pushes: as the receiver of a call, or as an operand of an operator that binds as tightly or tighter. -/
inductive IsRegrouped (n : Node t) : Prop
  | receiver {around : Node t} (h : around.receiver? = some n)
  | operand {around : Node t} (hn : n ∈ around.childNodes) (h : around.IsInfix Rule.tightOperators)

theorem isCall_of_hasArguments {n : Node t} (h : n.hasArguments = true) : n.isCall = true :=
  (Bool.and_eq_true_iff.1 h).1

theorem isCall_iff {n : Node t} : n.isCall = true ↔ n.kind = .send ∨ n.kind = .safeSend := by
  unfold isCall
  generalize n.kind = kind
  cases kind <;> simp [Kind.isCall]

end Node

namespace Rule

open Node (looseKinds)

section
variable {t : SyntaxTree} {n : Node t} {b : Bool}

/-! ## what the rule asks -/

theorem isInfixOf_iff {operators : List String} :
    isInfixOf operators n = true ↔ n.IsInfix operators := by
  unfold isInfixOf
  rw [Bool.and_eq_true, Bool.and_eq_true, Bool.and_eq_true, Option.isNone_iff_eq_none,
    Option.isSome_iff_exists, Option.any_eq_true]
  constructor
  · rintro ⟨⟨⟨hdot, hleft⟩, hright⟩, name, hname, hmem⟩
    exact ⟨hdot, hleft, hright, name, List.contains_iff_mem.1 hmem, hname⟩
  · rintro ⟨hdot, hleft, hright, name, hmem, hname⟩
    exact ⟨⟨⟨hdot, hleft⟩, hright⟩, name, hname, List.contains_iff_mem.2 hmem⟩

theorem isCommandCall_iff : isCommandCall n = true ↔ n.IsCommand := by
  unfold isCommandCall
  rw [Bool.and_eq_true, Bool.and_eq_true, Bool.or_eq_true, Option.isNone_iff_eq_none,
    Option.isNone_iff_eq_none]
  exact ⟨fun ⟨⟨hargs, hbare⟩, hname⟩ => ⟨hargs, hbare, hname⟩, fun h =>
    ⟨⟨h.hasArguments, h.bare⟩, h.hasName⟩⟩

theorem isWordNot_iff (h : isWordNot n = .ok b) : b = true ↔ n.IsWordNot := by
  unfold isWordNot at h
  split at h
  · next hnot =>
    cases htext : n.text with
    | error fault =>
      rw [htext] at h
      cases h
    | ok text =>
      rw [htext] at h
      obtain rfl : "not".toList.isPrefixOf text.toList = b := Except.ok.inj h
      rw [List.isPrefixOf_iff_prefix]
      constructor
      · exact fun hfront => ⟨hnot, text, text_eq_ok htext, hfront⟩
      · rintro ⟨-, text', hsource, hfront⟩
        rw [text_eq_ok htext] at hsource
        exact Option.some.inj hsource ▸ hfront
  · next hnot =>
    obtain rfl := Except.ok.inj h
    exact iff_of_false Bool.false_ne_true fun hword => hnot hword.isNot

theorem isOpenEnded_iff (h : isOpenEnded n = .ok b) : b = true ↔ n.EndsOpen := by
  unfold isOpenEnded at h
  cases htext : n.text with
  | error fault =>
    rw [htext] at h
    cases h
  | ok text =>
    rw [htext] at h
    obtain rfl : (text.toList.getLast? != some ')') = b := Except.ok.inj h
    rw [bne_iff_ne]
    constructor
    · exact fun hend => ⟨text, text_eq_ok htext, hend⟩
    · rintro ⟨text', hsource, hend⟩
      rw [text_eq_ok htext] at hsource
      exact Option.some.inj hsource ▸ hend

theorem isOpenEnded_if_iff {c : Prop} [Decidable c]
    (h : (if c then isOpenEnded n else .ok false) = .ok b) : b = true ↔ c ∧ n.EndsOpen := by
  split at h
  · next hc =>
    rw [isOpenEnded_iff h]
    exact ⟨fun hend => ⟨hc, hend⟩, And.right⟩
  · next hc =>
    obtain rfl := Except.ok.inj h
    exact iff_of_false Bool.false_ne_true fun hend => hc hend.1

theorem bindsLoosely_call_iff (hcall : n.isCall = true) :
    n.BindsLoosely ↔ n.IsWordNot ∨ n.IsInfix looseOperators ∨ n.IsCommand := by
  constructor
  · rintro (h | ⟨-, h⟩ | h | h | ⟨h, -, -⟩ | ⟨h, -, -⟩)
    case negated => exact .inl h
    case operator => exact .inr (.inl h)
    case command => exact .inr (.inr h)
    all_goals rcases Node.isCall_iff.1 hcall with hkind | hkind <;> simp [hkind, looseKinds] at h
  · rintro (h | h | h)
    · exact .negated hcall h
    · exact .operator h
    · exact .command h

theorem bindsLoosely_iff (hcall : n.isCall = false) : n.BindsLoosely ↔
    n.kind ∈ looseKinds ∨ ((n.kind = .superCall ∨ n.kind = .yieldCall) ∧ 0 < n.childCount ∨
      n.kind = .definedCheck ∧ n.loc.opening = none) ∧ n.EndsOpen := by
  have hneither : ¬ n.isCall = true := fun h => Bool.false_ne_true (hcall.symm.trans h)
  constructor
  · rintro (h | ⟨h, -⟩ | h | h | ⟨hkind, hpos, h⟩ | ⟨hkind, hbare, h⟩)
    case joined => exact .inl h
    case negated => exact absurd h hneither
    case operator =>
      obtain ⟨left, hleft⟩ := h.exists_left
      exact absurd (Node.isCall_of_receiver? hleft) hneither
    case command => exact absurd (Node.isCall_of_hasArguments h.hasArguments) hneither
    case passed => exact .inr ⟨.inl ⟨hkind, hpos⟩, h⟩
    case checked => exact .inr ⟨.inr ⟨hkind, hbare⟩, h⟩
  · rintro (h | ⟨⟨hkind, hpos⟩ | ⟨hkind, hbare⟩, h⟩)
    · exact .joined h
    · exact .passed hkind hpos h
    · exact .checked hkind hbare h

/-- what the rule asks of a node that is neither a call nor ends in what it is given -/
theorem isLoose_of_kind (hcall : n.isCall = false)
    (hpassed : ¬ (n.kind = .superCall ∨ n.kind = .yieldCall)) (hchecked : n.kind ≠ .definedCheck) :
    isLoose n = .ok (decide (n.kind ∈ looseKinds)) := by
  have hneither : ¬ (n.kind = .send ∨ n.kind = .safeSend) := fun h =>
    Bool.false_ne_true (hcall.symm.trans (Node.isCall_iff.2 h))
  unfold isLoose
  generalize n.kind = kind at hneither hpassed hchecked ⊢
  cases kind with
  | other name => simp [looseKinds, Bool.beq_eq_decide_eq]
  | _ => simp_all [looseKinds]

theorem isLoose_iff (h : isLoose n = .ok b) : b = true ↔ n.BindsLoosely := by
  cases hcall : n.isCall with
  | true =>
    -- of a call, the rule asks three questions
    obtain ⟨not, hnot, hb⟩ : ∃ not, isWordNot n = .ok not ∧
        (not || isInfixOf looseOperators n || isCommandCall n) = b := by
      unfold isLoose at h
      rcases Node.isCall_iff.1 hcall with hkind | hkind <;> rw [hkind] at h
      all_goals
        cases hnot : isWordNot n with
        | error fault =>
          rw [hnot] at h
          cases h
        | ok not =>
          rw [hnot] at h
          exact ⟨not, rfl, Except.ok.inj h⟩
    rw [bindsLoosely_call_iff hcall, ← hb, Bool.or_eq_true, Bool.or_eq_true, isWordNot_iff hnot,
      isInfixOf_iff, isCommandCall_iff, or_assoc]
  | false =>
    rw [bindsLoosely_iff hcall]
    by_cases hpassed : n.kind = .superCall ∨ n.kind = .yieldCall
    · have hasked : isLoose n = if 0 < n.childCount then isOpenEnded n else .ok false := by
        unfold isLoose
        rcases hpassed with hkind | hkind <;> rw [hkind]
      rw [isOpenEnded_if_iff (hasked.symm.trans h)]
      rcases hpassed with hkind | hkind <;> simp [hkind, looseKinds]
    by_cases hchecked : n.kind = .definedCheck
    · have hasked : isLoose n = if n.loc.opening.isNone then isOpenEnded n else .ok false := by
        unfold isLoose
        rw [hchecked]
      rw [isOpenEnded_if_iff (hasked.symm.trans h)]
      simp [hchecked, looseKinds]
    rw [isLoose_of_kind hcall hpassed hchecked] at h
    obtain rfl := Except.ok.inj h
    simp [hpassed, hchecked]

/-! ## what the rule writes -/

/-- The text is written in parentheses if the condition holds, and bare if it does not. -/
structure IsGrouped (p : Prop) (text written : String) : Prop where
  enclosed : p → written = "(" ++ text ++ ")"
  bare : ¬ p → written = text

theorem isGrouped_ite {p : Prop} (h : b = true ↔ p) (text : String) :
    IsGrouped p text (if b then "(" ++ text ++ ")" else text) :=
  ⟨fun hp => if_pos (h.2 hp), fun hp => if_neg (mt h.1 hp)⟩

/-- a bare text has the parentheses that a condition asks for exactly if the condition fails -/
theorem imp_enclosed_iff {p : Prop} (text : String) :
    (p → text = "(" ++ text ++ ")") ↔ ¬ p := by
  have hne : text ≠ "(" ++ text ++ ")" := by
    intro h
    have hlength := congrArg String.length h
    rw [String.length_append, String.length_append] at hlength
    have hopening : "(".length = 1 := rfl
    omega
  exact ⟨fun h hp => hne (h hp), fun h hp => absurd hp h⟩

theorem isGrouped_operandText {written : String} (h : operandText n = .ok written) :
    ∃ text, n.source? = some text ∧ IsGrouped n.BindsLoosely text written := by
  unfold operandText at h
  cases htext : n.text with
  | error fault =>
    rw [htext] at h
    cases h
  | ok text =>
    cases hloose : isLoose n with
    | error fault =>
      rw [htext, hloose] at h
      cases h
    | ok b =>
      rw [htext, hloose] at h
      obtain rfl : (if b then "(" ++ text ++ ")" else text) = written := Except.ok.inj h
      exact ⟨text, text_eq_ok htext, isGrouped_ite (isLoose_iff hloose) text⟩

theorem needsWrapping_iff (ht : t.WellFormed) : needsWrapping n = true ↔ n.IsRegrouped := by
  constructor
  · intro h
    unfold needsWrapping at h
    split at h
    · next around hparent =>
      rw [Bool.and_eq_true, Bool.or_eq_true] at h
      rcases h.2 with hreceiver | hoperand
      · exact .receiver (beq_iff_eq.1 hreceiver)
      · exact .operand (Node.mem_childNodes_of_parent? hparent) (isInfixOf_iff.1 hoperand)
    · cases h
  · rintro (@⟨around, h⟩ | @⟨around, hn, h⟩)
    · have hparent := (ht.placed_child (Node.mem_childNodes_of_receiver? h)).2
      unfold needsWrapping
      rw [hparent]
      simp [Node.isCall_of_receiver? h, h]
    · have hparent := (ht.placed_child hn).2
      unfold needsWrapping
      rw [hparent]
      simp [Node.isCall_of_hasArguments h.hasRight, isInfixOf_iff.2 h]

/-! ## what the rule is about -/

/-- a call of one of the methods on an element, which is neither spread nor a block -/
structure Pushes (n receiver : Node t) (method : String) (element : Node t) : Prop where
  kind : n.kind = .send ∨ n.kind = .safeSend
  children : n.children = [.node receiver, .value (.sym method), .node element]
  named : method = "push" ∨ method = "append"
  plain : element.kind ≠ .splat ∧ element.kind ≠ .blockPass

open Pattern (Condition Derivation Captures)

def pushOfOneCompiled : Pattern.Compiled pushOfOne := .ofText
  (.exactly (.kindIn [.send, .safeSend]) [
    .capture 0 (.negation (.builtin .absent)),
    .capture 1 (.union [.literal (.sym "push"), .literal (.sym "append")]),
    .capture 2 (.negation (.union [.kind .splat, .kind .blockPass]))])
  (by decide +kernel)

theorem pushes_of_match {caps : Captures t} (hm : pushOfOne.match? n = some caps)
    {receiver element : Node t} {method : String} (hreceiver : caps.node? 0 = some receiver)
    (hmethod : caps.sym? 1 = some method) (helement : caps.node? 2 = some element) :
    Pushes n receiver method element := by
  obtain ⟨d, hd, hcaps⟩ := pushOfOneCompiled.exists_derives hm
  obtain ⟨m, e, ds, hn, hhead, hds, rfl⟩ := hd.exactly_inv
  obtain rfl := NodeChild.node.inj hn
  obtain ⟨⟨m, hn, hkind⟩, rfl⟩ := Condition.Derives.plain_inv (by trivial) hhead
  obtain rfl := NodeChild.node.inj hn
  obtain ⟨c, rest, e, es, hchildren, rfl, hfirst, hrest⟩ := hds.cons_inv
  obtain ⟨c', rest, e', es, rfl, rfl, hsecond, hrest⟩ := hrest.cons_inv
  obtain ⟨c'', rest, e'', es, rfl, rfl, hthird, hrest⟩ := hrest.cons_inv
  obtain ⟨rfl, rfl⟩ := hrest.nil_inv
  obtain ⟨-, he⟩ := capture_inv hfirst rfl
  obtain ⟨hnamed, he'⟩ := capture_inv hsecond rfl
  obtain ⟨hplain, he''⟩ := capture_inv hthird rfl
  have hget : ∀ slot, caps.get? slot = Captures.lastOf
      [⟨0, .single c⟩, ⟨1, .single c'⟩, ⟨2, .single c''⟩] slot := by
    intro slot
    rw [hcaps, Derivation.bindings, Derivation.bindingsEach, Derivation.bindingsEach,
      Derivation.bindingsEach, Derivation.bindingsEach, he, he', he'']
    rfl
  obtain rfl := eq_node_of_get? (hget 0) hreceiver
  obtain rfl := eq_sym_of_get? (hget 1) hmethod
  obtain rfl := eq_node_of_get? (hget 2) helement
  refine ⟨by simpa using hkind, hchildren, ?_, ?_, ?_⟩
  · rcases hnamed with ⟨w, hw, hsame⟩ | ⟨w, hw, hsame⟩ | hnone
    · obtain rfl := NodeChild.value.inj hw
      exact .inl (by simpa [Value.same] using hsame)
    · obtain rfl := NodeChild.value.inj hw
      exact .inr (by simpa [Value.same] using hsame)
    · exact hnone.elim
  · exact fun hsplat => hplain (.inl ⟨element, rfl, hsplat⟩)
  · exact fun hpass => hplain (.inr (.inl ⟨element, rfl, hpass⟩))

/-! ## the rule -/

/-- the operator of a call, as it is written between the receiver and the element -/
def pushOperator (n : Node t) : String := if n.kind = .safeSend then "&.<< " else " << "

/-- The finding puts the receiver, the operator and the element in the place of the call, each part
grouped as it was. -/
structure Regroups (n receiver element : Node t) (whole : String) : Prop where
  /-- pairs without braces cannot be an operand -/
  braced : element.kind = .hash → element.loc.opening ≠ none
  /-- a block cannot belong to an operator -/
  noBlock : n.blockNode? = none
  exists_texts : ∃ subject text operand, receiver.source? = some subject ∧
    element.source? = some text ∧ IsGrouped element.BindsLoosely text operand ∧
    IsGrouped n.IsRegrouped (subject ++ pushOperator n ++ operand) whole

theorem pushVerdict_regroups (ht : t.WellFormed) (n : Node t) :
    Verdict.Answers (fun f => ∃ receiver method element whole,
      Pushes n receiver method element ∧ f.span = n.span ∧
      f.correction = some ⟨[⟨n.span, whole⟩]⟩ ∧ Regroups n receiver element whole)
      (pushVerdict n) := by
  rw [pushVerdict]
  split
  case h_2 => exact .nothing
  next caps hm =>
  split
  case h_2 => exact .nothing
  next receiver hreceiver =>
  split
  case h_2 => exact .nothing
  next method hmethod =>
  split
  case h_2 => exact .nothing
  next element helement =>
  split
  case isTrue => exact .nothing
  next hbraced =>
  split
  case isTrue => exact .nothing
  next hblock =>
  obtain ⟨operand, hoperand⟩ := exists_operandText ht element
  obtain ⟨subject, hsubject⟩ := ht.exists_text receiver
  obtain ⟨text, htext, hgrouped⟩ := isGrouped_operandText hoperand
  rw [hoperand, hsubject]
  refine .found ⟨receiver, method, element, _, pushes_of_match hm hreceiver hmethod helement, rfl,
    rfl, ⟨?_, ?_, subject, text, operand, text_eq_ok hsubject, htext, hgrouped, ?_⟩⟩
  · exact fun hkind hnone => hbraced ⟨hkind, Option.isNone_iff_eq_none.2 hnone⟩
  · simpa using hblock
  have hoperator : (if n.isSafeNavigation then "&.<< " else " << ") = pushOperator n := by
    simp [pushOperator, Node.isSafeNavigation]
  rw [hoperator]
  exact isGrouped_ite (needsWrapping_iff ht) _

/-- **The correction of a push encloses exactly what binds too loosely.**  In a well-formed tree the rule
has an answer at every node.  What it answers at a node replaces the node, which is a call of `push` or
`append` on a receiver with one element, by the receiver, the operator and the element:

* the element is in parentheses if it binds no tighter than the operator, and else as it is written;
* the whole is in parentheses if the call is a receiver, or an operand of an operator that binds as
  tightly or tighter, and else bare.  This does not go by the spelling of the operator. -/
theorem arrayPushSingle_grouping (ht : t.WellFormed) (context : RuleContext) (n : Node t) :
    ∃ os, (arrayPushSingle.evaluate context n).offenses = .ok os ∧
      ∀ o ∈ os, ∃ receiver method element whole, Pushes n receiver method element ∧
        o.span = n.span ∧ o.correction = some ⟨[⟨n.span, whole⟩]⟩ ∧
        Regroups n receiver element whole := by
  let report (f : Finding) : Offense := f.toOffense arrayPushSingle.id .warning t.source.toList
  obtain ⟨os, hos, hall⟩ := @exists_offenses_ofVerdict report _ _ (pushVerdict_regroups ht n)
  refine ⟨os, hos, fun o ho => ?_⟩
  obtain ⟨f, ⟨receiver, method, element, whole, hpushes, hspan, hcorrection, hregroups⟩, rfl⟩ :=
    hall o ho
  exact ⟨receiver, method, element, whole, hpushes, hspan, hcorrection, hregroups⟩

/-! ## pushes inside something else -/

def pushedInSum : SyntaxTree :=
  SyntaxTree.ofNode "x + a.push(y == z)" .send ⟨0, 18⟩ ⟨some ⟨2, 3⟩, none, none, none, some ⟨2, 3⟩⟩ [
    .node .send ⟨0, 1⟩ ⟨some ⟨0, 1⟩, none, none, none, none⟩ [.value .nil, .value (.sym "x")],
    .value (.sym "+"),
    .node .send ⟨4, 18⟩ ⟨some ⟨6, 10⟩, some ⟨5, 6⟩, some ⟨10, 11⟩, some ⟨17, 18⟩, none⟩ [
      .node .send ⟨4, 5⟩ ⟨some ⟨4, 5⟩, none, none, none, none⟩ [.value .nil, .value (.sym "a")],
      .value (.sym "push"),
      .node .send ⟨11, 17⟩ ⟨some ⟨13, 15⟩, none, none, none, some ⟨13, 15⟩⟩ [
        .node .send ⟨11, 12⟩ ⟨some ⟨11, 12⟩, none, none, none, none⟩
          [.value .nil, .value (.sym "y")],
        .value (.sym "=="),
        .node .send ⟨16, 17⟩ ⟨some ⟨16, 17⟩, none, none, none, none⟩
          [.value .nil, .value (.sym "z")]]]]

def pushInSum : Node pushedInSum := ⟨5, by decide +kernel⟩

theorem pushInSum_grouping : pushedInSum.WellFormed ∧ pushInSum.source? = some "a.push(y == z)" ∧
    ∃ os o, (arrayPushSingle.evaluate Config.standard.context pushInSum).offenses = .ok os ∧
      o ∈ os ∧ o.correction = some ⟨[⟨⟨4, 18⟩, "(a << (y == z))"⟩]⟩ ∧
      ∃ receiver method element, Pushes pushInSum receiver method element ∧
        Regroups pushInSum receiver element "(a << (y == z))" := by
  have ht : pushedInSum.WellFormed := by decide +kernel
  have hfound : ((arrayPushSingle.evaluate Config.standard.context pushInSum).offenses.toOption.map
      fun os => os.map fun o => o.correction) =
      some [some ⟨[⟨⟨4, 18⟩, "(a << (y == z))"⟩]⟩] := by
    decide +kernel
  obtain ⟨os, hos, hall⟩ := arrayPushSingle_grouping ht Config.standard.context pushInSum
  rw [hos] at hfound
  have hcorrections : os.map (fun o => o.correction) = _ := Option.some.inj hfound
  obtain ⟨o, rfl, hcorrection⟩ := List.map_eq_singleton_iff.1 hcorrections
  obtain ⟨receiver, method, element, whole, hpushes, -, hwhole, hregroups⟩ :=
    hall o List.mem_cons_self
  obtain rfl : whole = "(a << (y == z))" := by
    rw [hwhole] at hcorrection
    injection hcorrection with h
    injection h with h
    injection h with h
    injection h
  exact ⟨ht, by decide +kernel, _, o, hos, List.mem_cons_self, hcorrection, receiver, method,
    element, hpushes, hregroups⟩

/-- a push that does nothing without a receiver, as one of two elements of an array -/
def pushedInArray : SyntaxTree :=
  SyntaxTree.ofNode "[a&.push(b), c]" .array ⟨0, 15⟩ ⟨none, none, some ⟨0, 1⟩, some ⟨14, 15⟩, none⟩ [
    .node .safeSend ⟨1, 11⟩ ⟨some ⟨4, 8⟩, some ⟨2, 4⟩, some ⟨8, 9⟩, some ⟨10, 11⟩, none⟩ [
      .node .send ⟨1, 2⟩ ⟨some ⟨1, 2⟩, none, none, none, none⟩ [.value .nil, .value (.sym "a")],
      .value (.sym "push"),
      .node .send ⟨9, 10⟩ ⟨some ⟨9, 10⟩, none, none, none, none⟩ [.value .nil, .value (.sym "b")]],
    .node .send ⟨13, 14⟩ ⟨some ⟨13, 14⟩, none, none, none, none⟩ [.value .nil, .value (.sym "c")]]

def pushInArray : Node pushedInArray := ⟨2, by decide +kernel⟩

/-- Written with the operator behind the dot, a call without parentheses stands between the brackets. -/
theorem pushInArray_bare : pushedInArray.WellFormed ∧ pushInArray.kind = .safeSend ∧
    pushInArray.parent?.map (fun around => (around.kind, around.childCount)) = some (.array, 2) ∧
    ((arrayPushSingle.evaluate Config.standard.context pushInArray).offenses.toOption.map
      fun os => os.map fun o => o.correction) = some [some ⟨[⟨⟨1, 11⟩, "a&.<< b"⟩]⟩] := by
  decide +kernel

end

end Rule

end RubyLint
