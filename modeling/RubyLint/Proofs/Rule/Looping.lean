import RubyLint.Proofs.Rule.Matching
import RubyLint.Proofs.Rule.Unreadable
import RubyLint.Proofs.Syntax.Laminar
import RubyLint.Proofs.Syntax.Terms
import RubyLint.Rule.Hoisting

/-!
# Literals in loops

A loop evaluates some of its parts again and again, and others only once: a `for` the body again and what
it walks over once, a block its body again and the call that it belongs to once.  The rule looks for loops
around a literal, and does not always ask in which part of the loop the literal stands.

* `Node.Loops`           the forms of loops;
* `Node.Counts`          the loops that the rule counts for a literal;
* `Node.RunsAgain`, `Node.StandsOutside`   the literal is in a part that is evaluated again, or in another;
* `counts_iff`           which of these the rule counts in a well-formed tree.
-/

namespace RubyLint

/-! ## loops -/

/-- How a construct repeats something: as long as a condition holds, for what an expression yields, without
an end, or for the elements of a collection. -/
inductive LoopForm where
  | conditional
  | walking
  | endless
  | enumerating
deriving DecidableEq

/-- The part is evaluated on each round: the condition and the body, or the body alone, which stands in the
third place. -/
def LoopForm.Repeats : LoopForm → Nat → Prop
  | .conditional, _ => True
  | _, i => i = 2

namespace Node

variable {t : SyntaxTree}

/-- The node is a loop of the form. -/
inductive Loops (a : Node t) : LoopForm → Prop
  | conditional (h : a.kind = .whileLoop ∨ a.kind = .untilLoop) : Loops a .conditional
  | walking (h : a.kind = .forLoop) : Loops a .walking
  /-- a block of `loop`, which is a method of the kernel -/
  | endless {call : Node t} (hcall : a.sendNode? = some call) (hname : call.methodName? = some "loop")
      (hkernel : ∀ receiver, call.receiver? = some receiver → receiver.source? = some "Kernel") :
      Loops a .endless
  /-- a block of a method of every collection -/
  | enumerating {call : Node t} {method : String} (hcall : a.sendNode? = some call)
      (hname : call.methodName? = some method) (hmethod : Rule.isEnumerableMethod method = true) :
      Loops a .enumerating

def IsCalledOn (a receiver : Node t) : Prop :=
  ∃ call, a.sendNode? = some call ∧ call.receiver? = some receiver

/-- The rule counts the loop for the literal: the span of a collection must not contain that of the
literal. -/
def Counts (a literal : Node t) : Prop :=
  ∃ form, a.Loops form ∧ (form = .enumerating →
    ∀ receiver, a.IsCalledOn receiver → receiver.span.contains literal.span = false)

/-- The literal stands in a part of a loop that is evaluated on each round. -/
def RunsAgain (a literal : Node t) : Prop :=
  ∃ form i part, a.Loops form ∧ form.Repeats i ∧ a.childNode? i = some part ∧ part.Covers literal

/-- The literal stands in another part of a loop: in what a `for` walks over, or in the call or the
parameters of a block. -/
def StandsOutside (a literal : Node t) : Prop :=
  ∃ form i part, a.Loops form ∧ ¬ form.Repeats i ∧ a.childNode? i = some part ∧ part.Covers literal

/-- The literal stands in the collection that a loop enumerates. -/
def IsEnumeratedIn (a literal : Node t) : Prop :=
  a.Loops .enumerating ∧ ∃ receiver, a.IsCalledOn receiver ∧ receiver.Covers literal

end Node

namespace Rule

section
variable {t : SyntaxTree} {n a literal : Node t}

/-! ## what the rule asks -/

theorem kind_of_sendNode? {call : Node t} (h : a.sendNode? = some call) : a.kind = .block := by
  unfold Node.sendNode? at h
  split at h
  · next hkind => exact hkind
  · cases h

theorem counts_iff_of_kind (hkind : a.kind ≠ .block) :
    a.Counts literal ↔ a.kind = .whileLoop ∨ a.kind = .untilLoop ∨ a.kind = .forLoop := by
  constructor
  · rintro ⟨form, hform, -⟩
    cases hform with
    | conditional h => exact h.imp_right .inl
    | walking h => exact .inr (.inr h)
    | endless hcall => exact absurd (kind_of_sendNode? hcall) hkind
    | enumerating hcall => exact absurd (kind_of_sendNode? hcall) hkind
  · rintro (h | h | h)
    · exact ⟨.conditional, .conditional (.inl h), nofun⟩
    · exact ⟨.conditional, .conditional (.inr h), nofun⟩
    · exact ⟨.walking, .walking h, nofun⟩

theorem exists_call_of_counts (hkind : a.kind = .block) (h : a.Counts literal) :
    ∃ call method, a.sendNode? = some call ∧ call.methodName? = some method := by
  obtain ⟨form, hform, -⟩ := h
  cases hform with
  | conditional h => rcases h with h | h <;> cases hkind.symm.trans h
  | walking h => cases hkind.symm.trans h
  | endless hcall hname => exact ⟨_, _, hcall, hname⟩
  | enumerating hcall hname => exact ⟨_, _, hcall, hname⟩

theorem counts_iff_of_call {call : Node t} {method : String} (hcall : a.sendNode? = some call)
    (hname : call.methodName? = some method) : a.Counts literal ↔
      (method = "loop" ∧
        ∀ receiver, call.receiver? = some receiver → receiver.source? = some "Kernel") ∨
      isEnumerableMethod method = true ∧
        ∀ receiver, call.receiver? = some receiver → receiver.span.contains literal.span = false := by
  have hkind := kind_of_sendNode? hcall
  constructor
  · rintro ⟨form, hform, hspan⟩
    cases hform with
    | conditional h => rcases h with h | h <;> cases hkind.symm.trans h
    | walking h => cases hkind.symm.trans h
    | endless hcall' hname' hkernel =>
      obtain rfl := Option.some.inj (hcall.symm.trans hcall')
      exact .inl ⟨Option.some.inj (hname.symm.trans hname'), hkernel⟩
    | enumerating hcall' hname' hmethod =>
      obtain rfl := Option.some.inj (hcall.symm.trans hcall')
      obtain rfl := Option.some.inj (hname.symm.trans hname')
      exact .inr ⟨hmethod, fun receiver hr => hspan rfl receiver ⟨_, hcall, hr⟩⟩
  · rintro (⟨rfl, hkernel⟩ | ⟨hmethod, hspan⟩)
    · exact ⟨.endless, .endless hcall hname hkernel, nofun⟩
    · refine ⟨.enumerating, .enumerating hcall hname hmethod, fun _ receiver hreceiver => ?_⟩
      obtain ⟨call', hcall', hr⟩ := hreceiver
      obtain rfl := Option.some.inj (hcall.symm.trans hcall')
      exact hspan receiver hr

theorem reads_isLoopBlock (hkind : a.kind = .block) :
    t.Reads (isLoopBlock a literal) fun b => b = true ↔ a.Counts literal := by
  unfold isLoopBlock
  split
  case h_2 hnone =>
    refine .ok (iff_of_false Bool.false_ne_true fun h => ?_)
    obtain ⟨call, _, hcall, -⟩ := exists_call_of_counts hkind h
    exact hnone call hcall
  next call hcall =>
  split
  case h_2 hnone =>
    refine .ok (iff_of_false Bool.false_ne_true fun h => ?_)
    obtain ⟨call', method, hcall', hname⟩ := exists_call_of_counts hkind h
    obtain rfl := Option.some.inj (hcall.symm.trans hcall')
    exact hnone method hname
  next method hname =>
  rw [counts_iff_of_call hcall hname]
  split
  · next hloop =>
    subst hloop
    have hmethod : isEnumerableMethod "loop" = false := by decide
    simp only [hmethod, true_and, Bool.false_eq_true, false_and, or_false]
    split
    · next receiver hreceiver =>
      refine (SyntaxTree.Reads.text receiver).bind fun text htext => .ok ?_
      simp [hreceiver, htext]
    · next hnone => exact .ok (iff_of_true rfl fun _ hr => by cases hnone.symm.trans hr)
  · next hloop =>
    refine .ok ?_
    simp only [hloop, false_and, false_or, Bool.and_eq_true, Option.all_eq_true, Bool.not_eq_true']

/-- The rule asks whether it counts the node, unless it cannot read what a `loop` is called on. -/
theorem reads_isLoop (a literal : Node t) :
    t.Reads (isLoop literal a) fun b => b = true ↔ a.Counts literal := by
  by_cases hkind : a.kind = .block
  · unfold isLoop
    rw [hkind]
    exact reads_isLoopBlock hkind
  · have hasked : isLoop literal a =
        .ok (decide (a.kind = .whileLoop ∨ a.kind = .untilLoop ∨ a.kind = .forLoop)) := by
      unfold isLoop
      split <;> simp_all
    rw [hasked, counts_iff_of_kind hkind]
    exact .ok decide_eq_true_iff

/-! ## where the literal stands -/

theorem exists_part_of_mem_ancestors (h : a ∈ literal.ancestors) :
    ∃ i part, a.childNode? i = some part ∧ part.Covers literal := by
  suffices hchild : ∃ c ∈ a.childNodes, c.Covers literal by
    obtain ⟨c, hc, hcovers⟩ := hchild
    obtain ⟨i, hi⟩ := SyntaxTree.exists_childNode?_of_mem hc
    exact ⟨i, c, hi, hcovers⟩
  induction literal using Node.ancestors.induct with
  | case1 n q hq ih =>
    rw [Node.mem_ancestors_iff] at h
    obtain ⟨q', hq', h⟩ := h
    obtain rfl := Option.some.inj (hq.symm.trans hq')
    have hn := Node.mem_childNodes_of_parent? hq
    rcases h with rfl | h
    · exact ⟨n, hn, .self n⟩
    · obtain ⟨c, hc, hcovers⟩ := ih h
      exact ⟨c, hc, hcovers.trans (.through hn (.self n))⟩
  | case2 n hnone =>
    rw [Node.mem_ancestors_iff] at h
    obtain ⟨q, hq, -⟩ := h
    cases hnone.symm.trans hq

/-- a loop around the literal has it in a part that is evaluated again, or in another -/
theorem runsAgain_or_standsOutside {form : LoopForm} (ha : a ∈ literal.ancestors)
    (hform : a.Loops form) : a.RunsAgain literal ∨ a.StandsOutside literal := by
  obtain ⟨i, part, hi, hpart⟩ := exists_part_of_mem_ancestors ha
  by_cases hrepeats : form.Repeats i
  · exact .inl ⟨form, i, part, hform, hrepeats, hi, hpart⟩
  · exact .inr ⟨form, i, part, hform, hrepeats, hi, hpart⟩

theorem covers_of_mem_ancestors (h : a ∈ literal.ancestors) :
    a.Covers literal ∧ ¬ literal.Covers a := by
  obtain ⟨i, part, hi, hpart⟩ := exists_part_of_mem_ancestors h
  refine ⟨.through (Node.mem_childNodes_of_childNode? hi) hpart, fun hcovers => ?_⟩
  exact absurd (Nat.le_trans hcovers.index_le hpart.index_le) (Nat.not_le.2 (Node.childNode?_lt hi))

theorem childNode?_of_sendNode? {call : Node t} (h : a.sendNode? = some call) :
    a.childNode? 0 = some call := by
  unfold Node.sendNode? at h
  split at h
  · exact h
  · cases h

/-- the span of what a call is made on contains that of a literal exactly if the literal stands in it -/
theorem contains_iff_covers (ht : t.WellFormed) {receiver : Node t} (ha : a ∈ literal.ancestors)
    (hreceiver : a.IsCalledOn receiver) (hliteral : literal.isCall = false)
    (hpos : literal.span.start < literal.span.stop) :
    receiver.span.contains literal.span = true ↔ receiver.Covers literal := by
  obtain ⟨call, hcall, hr⟩ := hreceiver
  have hcall := Node.mem_childNodes_of_childNode? (childNode?_of_sendNode? hcall)
  have hreceiver := Node.mem_childNodes_of_receiver? hr
  have hparent : ∀ n : Node t, ∀ m ∈ n.childNodes, m.parent? = some n := fun _ _ h => (ht.placed_child h).2
  obtain ⟨hcovers, hnot⟩ := covers_of_mem_ancestors ha
  refine ⟨fun hcontains => ?_, fun h => (ht.encloses_covered h).contains⟩
  rw [Span.contains_iff] at hcontains
  have hbelow : a.Covers receiver := .through hcall (.through hreceiver (.self receiver))
  rcases SyntaxTree.covers_or_parted hbelow hcovers with h | h | ⟨p, c, d, hc, hd, hcd, hcr, hdl⟩
  · exact h
  · -- above the receiver stand only the call and what is around the block
    rcases (Node.covers_iff_parent hparent).1 h with rfl | ⟨q, hq, h⟩
    · exact .self literal
    obtain rfl := Option.some.inj (hq.symm.trans (hparent call receiver hreceiver))
    rcases (Node.covers_iff_parent hparent).1 h with rfl | ⟨q', hq', h⟩
    · exact absurd (Node.isCall_of_receiver? hr) (by simp [hliteral])
    · obtain rfl := Option.some.inj (hq'.symm.trans (hparent a q hcall))
      exact absurd h hnot
  · have hapart : c.span.Apart d.span := (ht.pairwise_childNodes p).forall hc hd hcd
    have hc := (ht.encloses_covered hcr).le
    have hd := (ht.encloses_covered hdl).le
    rcases hapart with h | h <;> omega

theorem eq_enumerating {form : LoopForm} (hform : a.Loops form) (h : a.Loops .enumerating) :
    form = .enumerating := by
  cases h with
  | enumerating hcall hname hmethod =>
    have hkind := kind_of_sendNode? hcall
    cases hform with
    | conditional h => rcases h with h | h <;> cases hkind.symm.trans h
    | walking h => cases hkind.symm.trans h
    | endless hcall' hname' =>
      obtain rfl := Option.some.inj (hcall.symm.trans hcall')
      obtain rfl := Option.some.inj (hname.symm.trans hname')
      exact absurd hmethod (by decide)
    | enumerating => rfl

/-- what stands in the body of a block stands in nothing that its call is made on -/
theorem not_covers_of_body (ht : t.WellFormed) {receiver part : Node t} (hreceiver : a.IsCalledOn receiver)
    (hpart : a.childNode? 2 = some part) (hcovers : part.Covers literal)
    (hpos : literal.span.start < literal.span.stop) : ¬ receiver.Covers literal := by
  obtain ⟨call, hcall, hr⟩ := hreceiver
  have hapart := ht.apart_of_childNode? (by decide) (childNode?_of_sendNode? hcall) hpart
  intro h
  have hinside := (ht.encloses_covered (.through (Node.mem_childNodes_of_receiver? hr) h)).le
  have hinside' := (ht.encloses_covered hcovers).le
  rcases hapart with h | h <;> omega

/-- A loop around a literal is counted if the literal is in a part that is evaluated again, and also if it
is in another part, unless it is in the collection that the loop enumerates. -/
theorem counts_iff (ht : t.WellFormed) (ha : a ∈ literal.ancestors) (hliteral : literal.isCall = false)
    (hpos : literal.span.start < literal.span.stop) :
    a.Counts literal ↔ a.RunsAgain literal ∨ a.StandsOutside literal ∧ ¬ a.IsEnumeratedIn literal := by
  have hcontains {receiver : Node t} (hreceiver : a.IsCalledOn receiver) :=
    contains_iff_covers ht ha hreceiver hliteral hpos
  constructor
  · rintro ⟨form, hform, hspan⟩
    refine (runsAgain_or_standsOutside ha hform).imp_right fun h => ⟨h, ?_⟩
    rintro ⟨henumerating, receiver, hreceiver, hcovers⟩
    have hfalse := hspan (eq_enumerating hform henumerating) receiver hreceiver
    rw [(hcontains hreceiver).2 hcovers] at hfalse
    cases hfalse
  · rintro (⟨form, i, part, hform, hrepeats, hi, hpart⟩ | ⟨⟨form, -, -, hform, -⟩, hnot⟩)
    · refine ⟨form, hform, fun henumerating receiver hreceiver => Bool.eq_false_iff.2 fun h => ?_⟩
      subst henumerating
      obtain rfl : i = 2 := hrepeats
      exact not_covers_of_body ht hreceiver hi hpart hpos ((hcontains hreceiver).1 h)
    · refine ⟨form, hform, fun henumerating receiver hreceiver => Bool.eq_false_iff.2 fun h => ?_⟩
      subst henumerating
      exact hnot ⟨hform, receiver, hreceiver, (hcontains hreceiver).1 h⟩

/-! ## the rule -/

/-- The literal that the call is made on is in a loop that is counted. -/
structure HoistsFromLoop (context : RuleContext) (n literal : Node t) : Prop where
  hoistable : ∃ className, hoistable? n context.loopLiteralSize = some (literal, className)
  notElided : isElided context.target n = false
  inLoop : ∃ a ∈ literal.ancestors, a.Counts literal

theorem reads_literalInLoopVerdict (context : RuleContext) (n : Node t) :
    t.Reads (literalInLoopVerdict context.loopLiteralSize context.target n) fun found => ∀ s,
      (∃ f, found = some f ∧ f.span = s) ↔
        ∃ literal, HoistsFromLoop context n literal ∧ s = literal.span := by
  unfold literalInLoopVerdict
  split
  case h_2 hnone =>
    refine .ok fun s => iff_of_false nofun ?_
    rintro ⟨literal, ⟨⟨className, h⟩, -, -⟩, -⟩
    exact hnone literal className h
  next literal className hhoistable =>
  have honly : ∀ s, (∃ literal, HoistsFromLoop context n literal ∧ s = literal.span) ↔
      (isElided context.target n = false ∧ ∃ a ∈ literal.ancestors, a.Counts literal) ∧
        s = literal.span := by
    refine fun s => ⟨?_, fun ⟨⟨helided, hloop⟩, hs⟩ =>
      ⟨literal, ⟨⟨className, hhoistable⟩, helided, hloop⟩, hs⟩⟩
    rintro ⟨literal', ⟨⟨className', h⟩, helided, hloop⟩, hs⟩
    cases hhoistable.symm.trans h
    exact ⟨⟨helided, hloop⟩, hs⟩
  simp only [honly]
  split
  · next helided => exact .ok fun s => iff_of_false nofun fun h => by simp [helided] at h
  next helided =>
  rw [Bool.not_eq_true] at helided
  refine (SyntaxTree.Reads.anyM fun a _ => reads_isLoop a literal).bind fun b hb => ?_
  rw [← hb]
  cases b with
  | false => exact .ok fun s => iff_of_false nofun fun h => Bool.false_ne_true h.1.2
  | true =>
    refine .ok fun s => ⟨?_, fun h => ⟨_, rfl, h.2.symm⟩⟩
    rintro ⟨f, hf, rfl⟩
    cases hf
    exact ⟨⟨helided, rfl⟩, rfl⟩

theorem isCall_of_hoistable? {size : Nat} {className : String}
    (h : hoistable? n size = some (literal, className)) : literal.isCall = false := by
  obtain ⟨receiver, -, h⟩ := Option.bind_eq_some_iff.1 h
  obtain ⟨method, -, h⟩ := Option.bind_eq_some_iff.1 h
  obtain ⟨name, hclass, h⟩ := Option.bind_eq_some_iff.1 h
  obtain ⟨-, h⟩ := Option.ite_none_right_eq_some.1 h
  cases h
  unfold Node.isCall
  unfold steadyClass? at hclass
  split at hclass
  · next hkind => rw [hkind]; rfl
  · next hkind => rw [hkind]; rfl
  · cases hclass

/-- **A literal is reported in a loop that is counted, and not only where it is made again.**  At every node
of every tree the rule reports the literal that the node is called on exactly if it can be made once, is made
at all, and is in a loop that the rule counts, unless a node has no text.

* A `while` or an `until` is counted for what is in its condition or in its body.
* A `for` is counted for what is in its body, and also for what it walks over.
* A block of `loop` is counted for what is in its body, and also for the call and the parameters.
* A block of a method of collections is counted for what is in its body, and also for the parameters and for
  the call, but for the collection that it is made on. -/
theorem collectionLiteralInLoop_counts (context : RuleContext) (n : Node t) :
    (t.Reads (collectionLiteralInLoop.evaluate context n).offenses fun os =>
      ∀ s, (∃ o ∈ os, o.span = s) ↔ ∃ literal, HoistsFromLoop context n literal ∧ s = literal.span) ∧
    (∀ literal, HoistsFromLoop context n literal →
      ∃ a ∈ literal.ancestors, a.RunsAgain literal ∨ a.StandsOutside literal) ∧
    (t.WellFormed → ∀ literal className,
      hoistable? n context.loopLiteralSize = some (literal, className) →
      literal.span.start < literal.span.stop → ∀ a ∈ literal.ancestors,
        (a.Counts literal ↔
          a.RunsAgain literal ∨ a.StandsOutside literal ∧ ¬ a.IsEnumeratedIn literal)) := by
  refine ⟨?_, fun literal h => ?_, fun ht literal className h hpos a ha => ?_⟩
  · refine (reads_literalInLoopVerdict context n).map fun found hfound s => Iff.trans ?_ (hfound s)
    simp [Finding.toOffense]
  · obtain ⟨a, ha, form, hform, -⟩ := h.inLoop
    exact ⟨a, ha, runsAgain_or_standsOutside ha hform⟩
  · exact counts_iff ht ha (isCall_of_hoistable? h) hpos

/-! ## what a loop walks over -/

def walkedList : SyntaxTree :=
  SyntaxTree.ofNode "for x in [1, 2].map(&:y) do\n z\nend" .forLoop ⟨0, 34⟩ Loc.none [
    .node .localAssign ⟨4, 5⟩ Loc.none [.value (.sym "x")],
    .node .send ⟨9, 24⟩ ⟨some ⟨16, 19⟩, some ⟨15, 16⟩, some ⟨19, 20⟩, some ⟨23, 24⟩, none⟩ [
      .node .array ⟨9, 15⟩ ⟨none, none, some ⟨9, 10⟩, some ⟨14, 15⟩, none⟩ [
        .node .int ⟨10, 11⟩ Loc.none [.value (.int 1)], .node .int ⟨13, 14⟩ Loc.none [.value (.int 2)]],
      .value (.sym "map"),
      .node .blockPass ⟨20, 23⟩ Loc.none [.node .sym ⟨21, 23⟩ Loc.none [.value (.sym "y")]]],
    .node .send ⟨29, 30⟩ ⟨some ⟨29, 30⟩, none, none, none, none⟩ [.value .nil, .value (.sym "z")]]

def walkedCall : Node walkedList := ⟨6, by decide +kernel⟩

def walkedLiteral : Node walkedList := ⟨3, by decide +kernel⟩

/-- The list is reported, and it is in no part of a loop that is evaluated again. -/
theorem walkedList_counts : walkedList.WellFormed ∧
    ((collectionLiteralInLoop.evaluate Config.standard.context walkedCall).offenses.toOption.map
      fun os => os.map fun o => o.span) = some [⟨9, 15⟩] ∧
    (hoistable? walkedCall Config.standard.context.loopLiteralSize).map (fun h => h.1) = some walkedLiteral ∧
    ∀ a ∈ walkedLiteral.ancestors, ¬ a.RunsAgain walkedLiteral := by
  refine ⟨by decide +kernel, by decide +kernel, by decide +kernel, ?_⟩
  have hkinds : ∀ a ∈ walkedLiteral.ancestors,
      a.kind ≠ .block ∧ a.kind ≠ .whileLoop ∧ a.kind ≠ .untilLoop := by decide +kernel
  have hthird : ∀ a ∈ walkedLiteral.ancestors, ∀ part, a.childNode? 2 = some part →
      walkedLiteral ∉ part.descendants := by decide +kernel
  rintro a ha ⟨form, i, part, hform, hrepeats, hi, hpart⟩
  obtain ⟨hblock, hwhile, huntil⟩ := hkinds a ha
  cases hform with
  | conditional h => exact h.elim hwhile huntil
  | walking =>
    obtain rfl : i = 2 := hrepeats
    exact hthird a ha part hi (Node.mem_descendants.2 hpart)
  | endless hcall => exact hblock (kind_of_sendNode? hcall)
  | enumerating hcall => exact hblock (kind_of_sendNode? hcall)

end

end Rule

end RubyLint
