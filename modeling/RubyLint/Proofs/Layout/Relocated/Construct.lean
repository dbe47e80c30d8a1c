import RubyLint.Proofs.Layout.Relocated.Assignment
import RubyLint.Ruby.Layout.Construct

/-!
# Every node in another place

Names, conditions, loops and definitions, and from them the layout of every node: the same code has the same
layout wherever it stands.

* `node_alike`        a node, if its parts are laid out alike;
* `within_shift`      a node and all that is below it, moved to the right;
* `within_sameCode`   the same code in two texts.
-/

namespace RubyLint.Ruby.Layout

theorem conditional_alike {l l' : Layout} {c c' : Concrete}
    (hcondition : Alike (Option.map Term.outline) (l.part c .condition) (l'.part c' .condition))
    (hyes : Alike (Option.map Term.outline) (l.branch (c.part? .consequence))
      (l'.branch (c'.part? .consequence)))
    (hno : Alike (Option.map Term.outline) (l.branch (c.part? .alternative))
      (l'.branch (c'.part? .alternative))) (negated : Bool) :
    Alike Term.outline (l.conditional c negated) (l'.conditional c' negated) := by
  unfold conditional
  refine hcondition.bind fun condition condition' hcondition => hyes.bind fun yes yes' hyes =>
    hno.bind fun no no' hno => .pure ?_
  rw [outline_plainTerm, outline_plainTerm]
  split <;> simp only [List.map_cons, List.map_nil, outline_orNil, hcondition, hyes, hno]

namespace Relocates

variable {l l' : Layout} {a n : Nat} {c : Concrete}
variable (h : l.Relocates l' a n) (hc : c.Inside n)

include h

theorem branch_alike {o : Option Concrete} (ho : ∀ d ∈ o, d.Inside n) :
    Alike (Option.map Term.outline) (l.branch (o.map (Concrete.shift a))) (l'.branch o) := by
  cases o with
  | none => exact .refl _ _
  | some d =>
    unfold branch
    rw [Option.map_some]
    dsimp only
    rw [Concrete.shift_construct]
    split
    · exact (h.below d (ho d rfl)).some
    · exact h.statementsOf_alike ho

include hc

/-! ## names -/

theorem identifier_alike : Alike Term.outline (l.identifier (c.shift a)) (l'.identifier c) := by
  unfold identifier
  rw [h.text_eq hc]
  refine .get fun s => ?_
  split
  · exact .pure (by rw [outline_plainTerm, outline_plainTerm])
  · exact .pure (by rw [Term.outline_node, Term.outline_node])

theorem scopeResolution_alike :
    Alike Term.outline (l.scopeResolution (c.shift a)) (l'.scopeResolution c) := by
  unfold scopeResolution
  rw [Concrete.shift_part?, h.partText_eq hc]
  extract_lets rest rest'
  have hrest : ∀ {scope scope' : Term}, scope.outline = scope'.outline →
      Alike Term.outline (rest scope) (rest' scope') := fun hscope => .pure (by
    simp only [outline_plainTerm, List.map_cons, hscope])
  cases hpart : c.part? .scope with
  | none => exact hrest (by rw [outline_plainTerm, outline_plainTerm])
  | some s => exact (h.below s (hc.part s hpart)).bind fun _ _ => hrest

/-! ## conditions and loops -/

theorem conditional_alike (negated : Bool) :
    Alike Term.outline (l.conditional (c.shift a) negated) (l'.conditional c negated) := by
  refine Layout.conditional_alike (h.part_alike hc) ?_ ?_ negated
  all_goals rw [Concrete.shift_part?]; exact h.branch_alike hc.part

theorem modifier_alike (negated : Bool) :
    Alike Term.outline (l.modifier (c.shift a) negated) (l'.modifier c negated) := by
  unfold modifier
  refine (h.part_alike hc).bind fun body body' hbody => ?_
  refine (h.part_alike hc).bind fun condition condition' hcondition => .pure ?_
  rw [outline_plainTerm, outline_plainTerm]
  split <;> simp only [List.map_cons, List.map_nil, outline_orNil, hcondition, hbody]

theorem loop_alike (kind : Kind) : Alike Term.outline (l.loop (c.shift a) kind) (l'.loop c kind) := by
  unfold loop
  rw [Concrete.shift_part?]
  refine (h.part_alike hc).bind fun condition condition' hcondition => ?_
  refine (h.statementsOf_alike hc.part).bind fun body body' hbody => .pure ?_
  simp only [outline_plainTerm, List.map_cons, List.map_nil, outline_orNil, hcondition, hbody]

theorem loopModifier_alike (kind : Kind) :
    Alike Term.outline (l.loopModifier (c.shift a) kind) (l'.loopModifier c kind) := by
  unfold loopModifier
  refine (h.part_alike hc).bind fun body body' hbody => ?_
  refine (h.part_alike hc).bind fun condition condition' hcondition => .pure ?_
  simp only [outline_plainTerm, List.map_cons, List.map_nil, outline_orNil, hcondition, hbody]

theorem forLoop_alike : Alike Term.outline (l.forLoop (c.shift a)) (l'.forLoop c) := by
  unfold forLoop
  rw [Concrete.shift_part?, Concrete.shift_part?]
  extract_lets rest rest'
  -- what comes behind the target
  have hrest : ∀ {target target' : Option Term}, target.map Term.outline = target'.map Term.outline →
      Alike Term.outline (rest target) (rest' target') := by
    intro target target' htarget
    refine (h.part_alike hc).bind fun value value' hvalue => ?_
    refine (h.statementsOf_alike hc.part).bind fun body body' hbody => .pure ?_
    simp only [outline_plainTerm, List.map_cons, List.map_nil, outline_orNil, htarget, hvalue, hbody]
  cases hpattern : c.part? .pattern with
  | none => exact hrest rfl
  | some p => exact (h.target_alike (hc.part p hpattern) _ _ rfl).some.bind fun _ _ => hrest

theorem caseOf_alike : Alike Term.outline (l.caseOf (c.shift a)) (l'.caseOf c) := by
  unfold caseOf
  rw [Concrete.shift_named, Concrete.filter_map_shift a fun d => by rw [Concrete.shift_role]]
  refine (h.part_alike hc).bind fun value value' hvalue => ?_
  extract_lets parts step parts' step'
  have hstep : ∀ d ∈ parts', ∀ x y : List Term × Option Term,
      (x.1.map Term.outline, x.2.map Term.outline) = (y.1.map Term.outline, y.2.map Term.outline) →
        Alike (fun x => (x.1.map Term.outline, x.2.map Term.outline)) (step x (d.shift a)) (step' y d) := by
    intro d hd x y hxy
    have hinside := hc.named d (List.mem_of_mem_filter hd)
    obtain ⟨hbranches, hotherwise⟩ := Prod.mk.inj hxy
    unfold step step'
    rw [Concrete.shift_construct]
    split
    · refine (h.below d hinside).bind fun t t' ht => .pure ?_
      rw [List.map_append, List.map_append, hbranches, hotherwise, List.map_singleton, List.map_singleton, ht]
    · refine (h.statementsOf_alike fun e he => Option.some.inj he ▸ hinside).bind fun o o' ho => .pure ?_
      rw [hbranches, ho]
    · exact .pure hxy
  refine (Alike.foldlM (List.forall₂_map_left_iff.2 (List.forall₂_same.2 hstep)) rfl).bind
    fun x y hxy => .pure ?_
  obtain ⟨hbranches, hotherwise⟩ := Prod.mk.inj hxy
  simp only [outline_plainTerm, List.map_append, List.map_cons, List.map_nil, outline_orNil, hvalue,
    hbranches, hotherwise]

theorem whenBranch_alike : Alike Term.outline (l.whenBranch (c.shift a)) (l'.whenBranch c) := by
  unfold whenBranch
  rw [Concrete.shift_parts, Concrete.shift_part?]
  refine (h.all_alike fun d hd => hc.child (Concrete.mem_children_of_parts hd)).bind fun ts ts' hts => ?_
  refine (h.statementsOf_alike hc.part).bind fun body body' hbody => .pure ?_
  simp only [outline_plainTerm, List.map_append, List.map_cons, List.map_nil, outline_orNil, hts, hbody]

/-! ## definitions -/

theorem methodBody_alike :
    Alike (Option.map Term.outline) (l.methodBody (c.shift a)) (l'.methodBody c) := by
  unfold methodBody
  rw [Concrete.shift_part?]
  cases hbody : c.part? .body with
  | some b =>
    rw [Option.map_some]
    dsimp only
    rw [Concrete.shift_construct]
    split
    · exact h.statementsOf_alike fun d hd => Option.some.inj hd ▸ hc.part b hbody
    · exact (h.below b (hc.part b hbody)).some
  | none =>
    rw [Option.map_none]
    dsimp only
    rw [Concrete.shift_named, Concrete.filter_map_shift a fun d => by rw [Concrete.shift_role]]
    exact h.statements_alike fun d hd => hc.named d (List.mem_of_mem_filter hd)

theorem method_alike (isSingleton : Bool) :
    Alike Term.outline (l.method (c.shift a) isSingleton) (l'.method c isSingleton) := by
  unfold method
  rw [h.partText_eq hc]
  extract_lets name start noLoc loc kind rest name' start' loc' rest'
  -- what comes behind the object
  have hrest : ∀ {object object' : List Term}, object.map Term.outline = object'.map Term.outline →
      Alike Term.outline (rest object) (rest' object') := by
    intro object object' hobject
    unfold rest rest'
    rw [Concrete.shift_part?]
    refine (h.scoped_alike hc.part (h.methodBody_alike hc)).bind fun parts parts' hparts => .pure ?_
    obtain ⟨hargs, hbody⟩ := Prod.mk.inj hparts
    simp only [Term.outline_node, List.map_append, List.map_cons, List.map_nil, hobject, hargs,
      outline_orNil, hbody]
  split
  · refine Alike.bind (f := List.map Term.outline) ((h.part_alike hc).map fun t t' ht => ?_)
      fun _ _ => hrest
    rw [List.map_singleton, List.map_singleton, outline_orNil, outline_orNil, ht]
  · exact hrest rfl

theorem closedBody_alike :
    Alike (Option.map Term.outline) (l.closedBody (c.shift a)) (l'.closedBody c) := by
  unfold closedBody
  rw [Concrete.shift_part?]
  exact .inScope _ (h.statementsOf_alike hc.part)

theorem classDefinition_alike :
    Alike Term.outline (l.classDefinition (c.shift a)) (l'.classDefinition c) := by
  unfold classDefinition
  refine (h.part_alike hc).bind fun name name' hname => (h.part_alike hc).bind
    fun superclass superclass' hsuperclass => (h.closedBody_alike hc).bind fun body body' hbody => .pure ?_
  simp only [outline_plainTerm, List.map_cons, List.map_nil, outline_orNil, hname, hsuperclass, hbody]

theorem moduleDefinition_alike :
    Alike Term.outline (l.moduleDefinition (c.shift a)) (l'.moduleDefinition c) := by
  unfold moduleDefinition
  refine (h.part_alike hc).bind fun name name' hname => (h.closedBody_alike hc).bind
    fun body body' hbody => .pure ?_
  simp only [outline_plainTerm, List.map_cons, List.map_nil, outline_orNil, hname, hbody]

theorem singletonClass_alike :
    Alike Term.outline (l.singletonClass (c.shift a)) (l'.singletonClass c) := by
  unfold singletonClass
  refine (h.part_alike hc).bind fun value value' hvalue => (h.closedBody_alike hc).bind
    fun body body' hbody => .pure ?_
  simp only [outline_plainTerm, List.map_cons, List.map_nil, outline_orNil, hvalue, hbody]

theorem jump_alike (kind : Kind) : Alike Term.outline (l.jump (c.shift a) kind) (l'.jump c kind) := by
  unfold jump
  rw [Concrete.shift_named]
  refine (Alike.mapM_shift (f := List.map Term.outline) fun d hd => ?_).bind fun ts ts' hts => .pure ?_
  · rw [Concrete.shift_construct]
    split
    · exact h.arguments_alike fun e he => Option.some.inj he ▸ hc.named d hd
    · refine (h.below d (hc.named d hd)).map fun t t' ht => ?_
      rw [List.map_singleton, List.map_singleton, ht]
  · rw [outline_plainTerm, outline_plainTerm, List.map_flatten, List.map_flatten, hts]

theorem firstPart_alike : Alike Term.outline (l.firstPart (c.shift a)) (l'.firstPart c) := by
  unfold firstPart
  rw [Concrete.shift_named]
  cases hnamed : c.named with
  | nil => exact .pure (by rw [outline_plainTerm, outline_plainTerm])
  | cons d ds => exact h.below d (hc.named d (hnamed ▸ List.mem_cons_self))

/-! ## every node -/

theorem node_alike : Alike Term.outline (l.node (c.shift a)) (l'.node c) := by
  unfold node
  rw [Concrete.shift_construct]
  cases c.construct with
  | identifier => exact h.identifier_alike hc
  | scopeResolution => exact h.scopeResolution_alike hc
  | constant | instanceVariable | classVariable | globalVariable | hashKeySymbol | bareSymbol |
      bareString =>
    refine .pure ?_
    rw [outline_plainTerm, outline_plainTerm, h.text_eq hc]
  | selfWord | superWord | nilWord | trueWord | falseWord => 
    exact .pure (by rw [outline_plainTerm, outline_plainTerm])
  | integer => exact .pure (by simp only [integer, outline_plainTerm, h.text_eq hc])
  | float => exact .pure (by simp only [float, outline_plainTerm, h.text_eq hc])
  | character => exact .pure (by simp only [character, outline_plainTerm, h.text_eq hc])
  | simpleSymbol => exact .pure (by simp only [simpleSymbol, outline_plainTerm, h.text_eq hc])
  | string => exact h.string_alike hc
  | delimitedSymbol => exact h.delimitedSymbol_alike hc
  | regex => exact h.regexp_alike hc
  | array | stringArray | symbolArray | hash | parenthesized => exact h.named_alike hc
  | pair => exact h.pair_alike hc
  | call => exact h.call_alike hc
  | elementReference => exact h.elementReference_alike hc
  | binary => exact h.binary_alike hc
  | unary => exact h.unary_alike hc
  | whenPattern | superclassPart | inPart => exact h.firstPart_alike hc
  | assignment => exact h.assignment_alike hc
  | operatorAssignment => exact h.operatorAssignment_alike hc
  | ifBranch | elsifBranch | conditional | unlessBranch => exact h.conditional_alike hc _
  | ifModifier | unlessModifier => exact h.modifier_alike hc _
  | whileLoop | untilLoop => exact h.loop_alike hc _
  | whileModifier | untilModifier => exact h.loopModifier_alike hc _
  | forLoop => exact h.forLoop_alike hc
  | caseOf => exact h.caseOf_alike hc
  | whenBranch => exact h.whenBranch_alike hc
  | methodDefinition | singletonMethod => exact h.method_alike hc _
  | classDefinition => exact h.classDefinition_alike hc
  | moduleDefinition => exact h.moduleDefinition_alike hc
  | singletonClass => exact h.singletonClass_alike hc
  | returnJump | breakJump | nextJump | yieldCall => exact h.jump_alike hc _
  | range => exact h.range_alike hc
  | blockParameters | methodParameters | lambdaParameters => exact h.parameters_alike hc
  | _ => exact h.wrap_alike hc _

end Relocates

/-- a node and all that is below it, with some text in front of it and behind it -/
theorem within_shift (front back : List Char) {code : List Char} (depth : Nat) {c : Concrete}
    (hc : c.Inside (Text.byteLength code)) : Alike Term.outline
      (within (front ++ (code ++ back)) depth (c.shift (Text.byteLength front)))
      (within code depth c) := by
  induction depth generalizing c with
  | zero => exact .throw rfl
  | succ depth ih =>
    refine Relocates.node_alike ⟨fun s hs => ?_, fun d hd => ih hd⟩ hc
    exact congrArg (fun text => text.getD []) (Text.slice_around front back hs)

theorem node_withRole (l : Layout) (role : Role) (c : Concrete) : l.node (c.withRole role) = l.node c := by
  cases c
  rfl

theorem within_withRole (source : List Char) (depth : Nat) (role : Role) (c : Concrete) :
    within source depth (c.withRole role) = within source depth c := by
  cases depth with
  | zero => cases c; rfl
  | succ depth => exact node_withRole _ role c

/-- the same code has the same layout in all texts, up to where the terms stand -/
theorem within_sameCode {source source' : List Char} {c c' : Concrete} (depth : Nat)
    (h : SameCode source source' c c') :
    Alike Term.outline (within source depth c) (within source' depth c') := by
  obtain ⟨code, r, hr, ⟨front, back, role, rfl, rfl⟩, ⟨front', back', role', rfl, rfl⟩⟩ := h
  rw [within_withRole, within_withRole]
  exact (within_shift front back depth hr).trans (within_shift front' back' depth hr).symm

end RubyLint.Ruby.Layout
