import Mathlib.Data.List.Forall2
import RubyLint.Proofs.Syntax.Preorder

/-!
# The outline of a subtree

The outline of a node is what is left of it and of everything below it if one forgets where it
stands: kinds, the layout of the children and terminal values.  Spans, texts, location parts and all
that is above or beside the node leave no trace in it.

* `children_outline`       nodes with one outline have the same children, up to their outlines;
* `isRecursiveBasicLiteral_congr`  what is asked about a subtree is seen in its outline;
* `NodeChild.SamePlace`    children that stand at the same place below two others;
* `IsAligned`              a relation of children that goes down with them, as `SamePlace` does
                           below children with one outline;
* `IsAligned.descendants`  what is aligned is listed in the same pre-order.
-/

namespace RubyLint

/-- a child, by its kinds, their layout and the values -/
inductive Outline where
  | value (v : Value)
  | node (kind : Kind) (children : List Outline)

/-- the outline of the node and what is below it -/
def Node.outline {t : SyntaxTree} (n : Node t) : Outline :=
  .node n.kind (n.children.attach.map fun
    | ⟨.node m, _h⟩ => m.outline
    | ⟨.value v, _⟩ => .value v)
termination_by n.index
decreasing_by exact Node.index_lt_of_mem _h

def NodeChild.outline {t : SyntaxTree} : NodeChild t → Outline
  | .node n => n.outline
  | .value v => .value v

variable {t t' : SyntaxTree}

namespace Node

variable {n : Node t} {n' : Node t'}

theorem outline_eq (n : Node t) : n.outline = .node n.kind (n.children.map NodeChild.outline) := by
  rw [outline, ← List.attach_map_val (l := n.children) (f := NodeChild.outline)]
  refine congrArg _ (List.map_congr_left fun c _ => ?_)
  obtain ⟨c, hc⟩ := c
  cases c <;> rfl

theorem kind_outline (h : n.outline = n'.outline) : n.kind = n'.kind := by
  rw [outline_eq, outline_eq] at h
  exact (Outline.node.inj h).1

theorem children_outline (h : n.outline = n'.outline) :
    List.Forall₂ (fun c c' => c.outline = c'.outline) n.children n'.children := by
  rw [outline_eq, outline_eq] at h
  have hsame := (Outline.node.inj h).2
  rw [← List.forall₂_eq_eq_eq, List.forall₂_map_left_iff, List.forall₂_map_right_iff] at hsame
  exact hsame

end Node

namespace NodeChild

variable {c : NodeChild t} {c' : NodeChild t'}

theorem cases_outline (h : c.outline = c'.outline) :
    (∃ n n', c = .node n ∧ c' = .node n' ∧ n.outline = n'.outline) ∨
      ∃ v, c = .value v ∧ c' = .value v := by
  cases c with
  | node n =>
    cases c' with
    | node n' => exact Or.inl ⟨n, n', rfl, rfl, h⟩
    | value v =>
      have h' : n.outline = .value v := h
      rw [Node.outline_eq] at h'
      cases h'
  | value v =>
    cases c' with
    | node n' =>
      have h' : .value v = n'.outline := h
      rw [Node.outline_eq] at h'
      cases h'
    | value v' => exact Or.inr ⟨v, rfl, congrArg _ (Outline.value.inj h).symm⟩

/-! ## places -/

/-- the child that one comes to by taking, again and again, the child with the next number -/
def at? : List Nat → NodeChild t → Option (NodeChild t)
  | [], c => some c
  | i :: path, .node n => (n.child? i).bind (at? path)
  | _ :: _, .value _ => none

/-- `SamePlace c c' d d'`: the child `d` stands below `c` where `d'` stands below `c'` -/
def SamePlace (c : NodeChild t) (c' : NodeChild t') (d : NodeChild t) (d' : NodeChild t') : Prop :=
  ∃ path, c.at? path = some d ∧ c'.at? path = some d'

theorem at?_append (path path' : List Nat) (c : NodeChild t) :
    c.at? (path ++ path') = (c.at? path).bind (at? path') := by
  induction path generalizing c with
  | nil => rfl
  | cons i path ih =>
    cases c with
    | value v => rfl
    | node n =>
      show (n.child? i).bind (at? (path ++ path')) = ((n.child? i).bind (at? path)).bind _
      rw [Option.bind_assoc]
      exact congrArg _ (funext ih)

end NodeChild

/-! ## lists that belong together -/

/-- lists of what belongs together, one for each member of two lists that do -/
theorem forall₂_flatMap {α β γ δ : Type} {P : α → β → Prop} {Q : γ → δ → Prop} {f : α → List γ}
    {g : β → List δ} {as : List α} {bs : List β} (h : List.Forall₂ P as bs)
    (hfg : ∀ a ∈ as, ∀ b, P a b → List.Forall₂ Q (f a) (g b)) :
    List.Forall₂ Q (as.flatMap f) (bs.flatMap g) := by
  induction h with
  | nil => exact .nil
  | @cons a b as bs hab _ ih =>
    rw [List.flatMap_cons, List.flatMap_cons]
    exact List.rel_append (hfg a List.mem_cons_self b hab)
      (ih fun x hx => hfg x (List.mem_cons_of_mem a hx))

/-- a question that is answered the same for members that belong together, asked of all -/
theorem all_congr_of_forall₂ {α β : Type} {P : α → β → Prop} {f : α → Bool} {g : β → Bool}
    {as : List α} {bs : List β} (h : List.Forall₂ P as bs)
    (hfg : ∀ a ∈ as, ∀ b, P a b → f a = g b) : as.all f = bs.all g := by
  induction h with
  | nil => rfl
  | @cons a b as bs hab _ ih =>
    rw [List.all_cons, List.all_cons, hfg a List.mem_cons_self b hab,
      ih fun x hx => hfg x (List.mem_cons_of_mem a hx)]

/-! ## relations that go down -/

/-- The relation holds of children with one outline, and if of two nodes, then of their children. -/
structure IsAligned (R : NodeChild t → NodeChild t' → Prop) : Prop where
  outline_eq : ∀ {c c'}, R c c' → c.outline = c'.outline
  children : ∀ {n n'}, R (.node n) (.node n') → List.Forall₂ R n.children n'.children

namespace NodeChild

variable {c d : NodeChild t} {c' d' : NodeChild t'}

theorem outline_eq_of_samePlace (h : c.outline = c'.outline) (hd : SamePlace c c' d d') :
    d.outline = d'.outline := by
  obtain ⟨path, hd, hd'⟩ := hd
  induction path generalizing c c' with
  | nil =>
    cases hd
    cases hd'
    exact h
  | cons i path ih =>
    rcases cases_outline h with ⟨n, n', rfl, rfl, hn⟩ | ⟨v, rfl, -⟩
    · obtain ⟨e, he, hd⟩ := Option.bind_eq_some_iff.1 hd
      obtain ⟨e', he', hd'⟩ := Option.bind_eq_some_iff.1 hd'
      obtain ⟨hi, rfl⟩ := List.getElem?_eq_some_iff.1 he
      obtain ⟨hi', rfl⟩ := List.getElem?_eq_some_iff.1 he'
      exact ih ((List.forall₂_iff_get.1 (Node.children_outline hn)).2 i hi hi') hd hd'
    · cases hd

theorem samePlace_self (c : NodeChild t) (c' : NodeChild t') : SamePlace c c' c c' := ⟨[], rfl, rfl⟩

theorem isAligned_samePlace (h : c.outline = c'.outline) : IsAligned (SamePlace c c') where
  outline_eq := outline_eq_of_samePlace h
  children := by
    intro n n' hn
    have hsame := Node.children_outline (outline_eq_of_samePlace h hn)
    obtain ⟨path, hpath, hpath'⟩ := hn
    refine List.forall₂_iff_get.2 ⟨hsame.length_eq, fun i hi hi' => ⟨path ++ [i], ?_, ?_⟩⟩
    · rw [at?_append, hpath]
      show (n.child? i).bind (at? []) = _
      rw [Node.child?, List.getElem?_eq_getElem hi]
      rfl
    · rw [at?_append, hpath']
      show (n'.child? i).bind (at? []) = _
      rw [Node.child?, List.getElem?_eq_getElem hi']
      rfl

end NodeChild

namespace IsAligned

variable {R : NodeChild t → NodeChild t' → Prop} {n : Node t} {n' : Node t'}

theorem node_cases (hR : IsAligned R) {c : NodeChild t} {c' : NodeChild t'} (h : R c c') :
    (∃ n n', c = .node n ∧ c' = .node n' ∧ n.outline = n'.outline) ∨
      ∃ v, c = .value v ∧ c' = .value v :=
  NodeChild.cases_outline (hR.outline_eq h)

theorem childNodes (hR : IsAligned R) (h : R (.node n) (.node n')) :
    List.Forall₂ (fun m m' => R (.node m) (.node m')) n.childNodes n'.childNodes := by
  refine List.rel_filterMap (fun c c' hc => ?_) (hR.children h)
  rcases hR.node_cases hc with ⟨m, m', rfl, rfl, -⟩ | ⟨v, rfl, rfl⟩
  · exact .some hc
  · exact .none

/-- the nodes from an aligned one on downwards, in pre-order -/
theorem descendants (hR : IsAligned R) (h : R (.node n) (.node n')) :
    List.Forall₂ (fun m m' => R (.node m) (.node m')) n.descendants n'.descendants := by
  -- by the index, which gets smaller on the way down
  induction hi : n.index using Nat.strongRecOn generalizing n n' with
  | ind i ih =>
    rw [Node.descendants_eq, Node.descendants_eq]
    refine .cons h (forall₂_flatMap (hR.childNodes h) fun m hm m' hmm => ?_)
    exact ih m.index (hi ▸ Node.childNodes_lt hm) hmm rfl

end IsAligned

/-! ## what is asked about a subtree -/

theorem isAligned_outline :
    IsAligned (fun (c : NodeChild t) (c' : NodeChild t') => c.outline = c'.outline) where
  outline_eq h := h
  children h := Node.children_outline h

theorem Node.isRecursiveBasicLiteral_congr {n : Node t} {n' : Node t'}
    (h : n.outline = n'.outline) : n.isRecursiveBasicLiteral = n'.isRecursiveBasicLiteral := by
  induction hi : n.index using Nat.strongRecOn generalizing n n' with
  | ind i ih =>
    have hparts := isAligned_outline.childNodes h
    have hkinds : ∀ q : Kind → Bool, (n.childNodes.all fun part => q part.kind) =
        n'.childNodes.all fun part => q part.kind := fun q =>
      all_congr_of_forall₂ hparts fun m _ m' hm => congrArg q (kind_outline hm)
    have hrec : (n.childNodes.attach.all fun part => part.1.isRecursiveBasicLiteral) =
        n'.childNodes.attach.all fun part => part.1.isRecursiveBasicLiteral := by
      rw [List.all_subtype (g := isRecursiveBasicLiteral) fun _ _ => rfl, List.unattach_attach,
        List.all_subtype (g := isRecursiveBasicLiteral) fun _ _ => rfl, List.unattach_attach]
      exact all_congr_of_forall₂ hparts fun m hm m' hmm =>
        ih m.index (hi ▸ childNodes_lt hm) hmm rfl
    rw [isRecursiveBasicLiteral, isRecursiveBasicLiteral, kind_outline h, hrec,
      hkinds fun k => k == .str, hkinds fun k => k == .str || k == .regexpOptions]

end RubyLint
