import RubyLint.Proofs.Layout.Alike
import RubyLint.Proofs.Text.Slice

/-!
# Code in another place

The same code may stand in different texts and at different places.  Its concrete tree is then the same
up to a shift of all spans, and its layout the same up to where the terms stand.

* `Concrete.shift`    the node, moved to the right with all that is below it;
* `Concrete.Inside`   the node stands inside the first bytes of its text;
* `Layout.Relocates`  a layout that reads behind some text what another one reads at the start of its own;
* `SameCode`          two nodes that are the same code, each in its own text.
-/

namespace RubyLint

/-- the span, moved to the right -/
def Span.shift (a : Nat) (s : Span) : Span := ⟨a + s.start, a + s.stop⟩

theorem Span.shift_join (a : Nat) (s s' : Span) : (s.shift a).join (s'.shift a) = (s.join s').shift a := by
  simp only [join, shift, Nat.add_min_add_left, Nat.add_max_add_left]

theorem Span.shift_isEmpty (a : Nat) (s : Span) : (s.shift a).isEmpty = s.isEmpty := by
  rw [Bool.eq_iff_iff]
  simp only [isEmpty, shift, beq_iff_eq, Nat.add_left_cancel_iff]

namespace Ruby

namespace Concrete

/-- the node, moved to the right with all that is below it -/
def shift (a : Nat) : Concrete → Concrete
  | .node role construct span children =>
    .node role construct (span.shift a) (children.attach.map fun ⟨d, _h⟩ => d.shift a)
termination_by c => sizeOf c
decreasing_by
  have := List.sizeOf_lt_of_mem _h
  simp only [node.sizeOf_spec]
  omega

theorem shift_node (a : Nat) (role : Role) (construct : Construct) (span : Span)
    (children : List Concrete) : (Concrete.node role construct span children).shift a =
      .node role construct (span.shift a) (children.map (shift a)) := by
  rw [shift, ← List.attach_map_val (l := children) (f := shift a)]

section
variable (a : Nat) (c : Concrete)

@[simp] theorem shift_role : (c.shift a).role = c.role := by
  cases c; rw [shift_node]; rfl

@[simp] theorem shift_construct : (c.shift a).construct = c.construct := by
  cases c; rw [shift_node]; rfl

@[simp] theorem shift_span : (c.shift a).span = c.span.shift a := by
  cases c; rw [shift_node]; rfl

@[simp] theorem shift_children : (c.shift a).children = c.children.map (shift a) := by
  cases c; rw [shift_node]; rfl

@[simp] theorem shift_isToken : (c.shift a).isToken = c.isToken := by
  rw [isToken, shift_construct, isToken]

@[simp] theorem shift_isPassedOver : (c.shift a).isPassedOver = c.isPassedOver := by
  rw [isPassedOver, shift_isToken, shift_construct, isPassedOver]

theorem filter_map_shift {p : Concrete → Bool} (hp : ∀ d : Concrete, p (d.shift a) = p d)
    (cs : List Concrete) : (cs.map (shift a)).filter p = (cs.filter p).map (shift a) := by
  rw [List.filter_map]
  exact congrArg _ (List.filter_congr fun d _ => hp d)

theorem find?_map_shift {p : Concrete → Bool} (hp : ∀ d : Concrete, p (d.shift a) = p d)
    (cs : List Concrete) : (cs.map (shift a)).find? p = (cs.find? p).map (shift a) := by
  rw [List.find?_map, show p ∘ shift a = p from funext hp]

@[simp] theorem shift_named : (c.shift a).named = c.named.map (shift a) := by
  rw [named, shift_children, named]
  exact filter_map_shift a (fun d => by rw [shift_isPassedOver]) c.children

@[simp] theorem shift_part? (role : Role) : (c.shift a).part? role = (c.part? role).map (shift a) := by
  rw [part?, shift_children, part?]
  exact find?_map_shift a (fun d => by rw [shift_role]) c.children

@[simp] theorem shift_parts (role : Role) : (c.shift a).parts role = (c.parts role).map (shift a) := by
  rw [parts, shift_children, parts]
  exact filter_map_shift a (fun d => by rw [shift_role]) c.children

end

/-- the node and all that is below it stand inside the first `n` bytes -/
inductive Inside (n : Nat) : Concrete → Prop
  | intro {c : Concrete} (hspan : c.span.start ≤ c.span.stop ∧ c.span.stop ≤ n)
    (hchildren : ∀ d ∈ c.children, Inside n d) : Inside n c

namespace Inside

variable {n : Nat} {c d : Concrete} {role : Role}

theorem start_le (h : c.Inside n) : c.span.start ≤ c.span.stop := by
  cases h with | intro hspan _ => exact hspan.1

theorem stop_le (h : c.Inside n) : c.span.stop ≤ n := by
  cases h with | intro hspan _ => exact hspan.2

theorem child (h : c.Inside n) (hd : d ∈ c.children) : d.Inside n := by
  cases h with | intro _ hchildren => exact hchildren d hd

theorem named (h : c.Inside n) : ∀ d ∈ c.named, d.Inside n := fun _ hd =>
  h.child (mem_children_of_named hd)

theorem part (h : c.Inside n) : ∀ d ∈ c.part? role, d.Inside n := fun _ hd =>
  h.child (mem_children_of_part? hd)

end Inside

end Concrete

/-! ## parts and statements -/

namespace Layout

variable {l l' : Layout} {c c' : Concrete} {cs cs' : List Concrete} {role : Role}

theorem statements_alike
    (h : List.Forall₂ (fun c c' => Alike Term.outline (l.below c) (l'.below c')) cs cs') :
    Alike (Option.map Term.outline) (l.statements cs) (l'.statements cs') :=
  (Alike.mapM h).map fun ts ts' hts => by rw [outline_sequenceTerm, outline_sequenceTerm, hts]

theorem part_alike (h : Option.Rel (fun c c' => Alike Term.outline (l.below c) (l'.below c'))
    (c.part? role) (c'.part? role)) :
    Alike (Option.map Term.outline) (l.part c role) (l'.part c' role) := by
  unfold part
  generalize c.part? role = o at h
  generalize c'.part? role = o' at h
  cases h with
  | none => exact .refl _ _
  | some h => exact h.some

end Layout

/-! ## a layout behind some text -/

theorem Alike.mapM_shift {α γ : Type} {f : α → γ} {F G : Concrete → Arrange α} {a : Nat}
    {cs : List Concrete} (h : ∀ d ∈ cs, Alike f (F (d.shift a)) (G d)) :
    Alike (List.map f) ((cs.map (Concrete.shift a)).mapM F) (cs.mapM G) :=
  .mapM (List.forall₂_map_left_iff.2 (List.forall₂_same.2 h))

/-- What the second layout reads at some place of the first `n` bytes, the first one reads `a` bytes
farther on. -/
structure Layout.Relocates (l l' : Layout) (a n : Nat) : Prop where
  textAt : ∀ s : Span, s.stop ≤ n → l.textAt (s.shift a) = l'.textAt s
  below : ∀ c : Concrete, c.Inside n → Alike Term.outline (l.below (c.shift a)) (l'.below c)

namespace Layout.Relocates

variable {l l' : Layout} {a n : Nat} {c : Concrete} {cs : List Concrete} {o : Option Concrete}
  {role : Role}
variable (h : l.Relocates l' a n) (hc : c.Inside n)

include h

theorem all_alike (hcs : ∀ d ∈ cs, d.Inside n) :
    Alike (List.map Term.outline) (l.all (cs.map (Concrete.shift a))) (l'.all cs) :=
  .mapM_shift fun d hd => h.below d (hcs d hd)

theorem statements_alike (hcs : ∀ d ∈ cs, d.Inside n) :
    Alike (Option.map Term.outline) (l.statements (cs.map (Concrete.shift a))) (l'.statements cs) :=
  Layout.statements_alike <| List.forall₂_map_left_iff.2 <| List.forall₂_same.2 fun d hd =>
    h.below d (hcs d hd)

theorem statementsOf_alike (ho : ∀ d ∈ o, d.Inside n) :
    Alike (Option.map Term.outline) (l.statementsOf (o.map (Concrete.shift a))) (l'.statementsOf o) := by
  cases o with
  | none => exact h.statements_alike fun _ hd => absurd hd List.not_mem_nil
  | some d =>
    show Alike _ (l.statements (d.shift a).named) (l'.statements d.named)
    rw [Concrete.shift_named]
    exact h.statements_alike (ho d rfl).named

include hc

theorem text_eq : l.text (c.shift a) = l'.text c := by
  rw [text, Concrete.shift_span]
  exact h.textAt c.span hc.stop_le

theorem part?_text : ((c.shift a).part? role).map l.text = (c.part? role).map l'.text := by
  rw [Concrete.shift_part?, Option.map_map]
  exact Option.map_congr fun d hd => h.text_eq (hc.part d hd)

theorem partText_eq : l.partText (c.shift a) role = l'.partText c role := by
  rw [partText, h.part?_text hc, partText]

theorem part_alike : Alike (Option.map Term.outline) (l.part (c.shift a) role) (l'.part c role) := by
  refine Layout.part_alike ?_
  rw [Concrete.shift_part?]
  cases hpart : c.part? role with
  | none => exact .none
  | some d => exact .some (h.below d (hc.part d hpart))

theorem named_alike {kind : Kind} {span span' : Span} {loc loc' : Loc} : Alike Term.outline
    (l.all (c.shift a).named >>= fun ts => pure (.node kind span loc ts))
    (l'.all c.named >>= fun ts => pure (.node kind span' loc' ts)) := by
  rw [Concrete.shift_named]
  refine (h.all_alike hc.named).bind fun ts ts' hts => .pure ?_
  rw [Term.outline_node, Term.outline_node, hts]

theorem wrap_alike (kind : Kind) : Alike Term.outline (l.wrap kind (c.shift a)) (l'.wrap kind c) := by
  unfold wrap
  rw [map_eq_pure_bind, map_eq_pure_bind]
  exact h.named_alike hc

end Layout.Relocates

/-! ## one code in two texts -/

/-- Where the code stands in the source, the node is what the other node is in the code by itself.  What
it is to its parent is left open. -/
def Concrete.IsCopy (r : Concrete) (code source : List Char) (c : Concrete) : Prop :=
  ∃ front back role, source = front ++ (code ++ back) ∧
    c = (r.shift (Text.byteLength front)).withRole role

/-- The two nodes are the same code, each in its own source and at its own place. -/
def SameCode (source source' : List Char) (c c' : Concrete) : Prop :=
  ∃ (code : List Char) (r : Concrete), r.Inside (Text.byteLength code) ∧ r.IsCopy code source c ∧
    r.IsCopy code source' c'

end Ruby

end RubyLint
