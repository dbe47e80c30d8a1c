import Mathlib.Data.List.Pairwise
import RubyLint.Proofs.Syntax.Placement

/-!
# Nested or apart

The search for violations looks at each node with its children, and at children that are neighbours.
In a tree that passes, any two nodes are nested, by their place in the tree and by their spans, or they
are apart.

* `covers_iff_ancestor`   where children know their parents, the nodes above a node are its ancestors;
* `eq_of_covers`          and of the children of a node, only one stands above a given node;
* `covers_or_parted`      two nodes stand one above the other, or below two children of one node;
* `exists_descendants_eq` what stands below a node comes in one piece in the walk;
* `nested_or_apart`       what follows for any two nodes, and what a violation is.
-/

namespace RubyLint

/-- there is a byte in both spans -/
def Span.SharesByte (s s' : Span) : Prop :=
  ∃ i, (s.start ≤ i ∧ i < s.stop) ∧ s'.start ≤ i ∧ i < s'.stop

theorem Span.Apart.not_sharesByte {s s' : Span} (h : s.Apart s') : ¬ s.SharesByte s' := by
  rintro ⟨i, hi, hi'⟩
  rcases h with h | h <;> omega

theorem Span.SharesByte.symm {s s' : Span} (h : s.SharesByte s') : s'.SharesByte s := by
  obtain ⟨i, hi, hi'⟩ := h
  exact ⟨i, hi', hi⟩

theorem Span.SharesByte.mono {s s' t t' : Span} (h : s.SharesByte s') (hs : t.contains s = true)
    (hs' : t'.contains s' = true) : t.SharesByte t' := by
  obtain ⟨i, hi, hi'⟩ := h
  rw [Span.contains_iff] at hs hs'
  exact ⟨i, by omega, by omega⟩

namespace Node

variable {t : SyntaxTree} {n m k p : Node t}

instance : Std.Symm fun m k : Node t => m.span.Apart k.span := ⟨fun _ _ h => h.symm⟩

/-! ## ancestors -/

theorem mem_ancestors_iff :
    p ∈ n.ancestors ↔ ∃ q, n.parent? = some q ∧ (p = q ∨ p ∈ q.ancestors) := by
  rw [ancestors]
  split
  · next q hq => simp [hq]
  · next hnone => simp [hnone]

section
variable (hparent : ∀ n : Node t, ∀ m ∈ n.childNodes, m.parent? = some n)
include hparent

theorem covers_iff_parent : p.Covers n ↔ p = n ∨ ∃ q, n.parent? = some q ∧ p.Covers q := by
  constructor
  · intro h
    induction h with
    | self n => exact .inl rfl
    | @through n m k hm hk ih =>
      rcases ih with rfl | ⟨q, hq, hmq⟩
      · exact .inr ⟨n, hparent n m hm, .self n⟩
      · exact .inr ⟨q, hq, .through hm hmq⟩
  · rintro (rfl | ⟨q, hq, hpq⟩)
    · exact .self p
    · have hn := mem_childNodes_of_parent? hq
      clear hq
      induction hpq with
      | self q => exact .through hn (.self n)
      | through hm _ ih => exact .through hm (ih hn)

/-- the nodes above a node are the node and its ancestors -/
theorem covers_iff_ancestor : p.Covers n ↔ p = n ∨ p ∈ n.ancestors := by
  induction n using ancestors.induct with
  | case1 n q hq ih => simp [covers_iff_parent hparent (n := n), mem_ancestors_iff (n := n), hq, ih]
  | case2 n hnone => simp [covers_iff_parent hparent (n := n), mem_ancestors_iff (n := n), hnone]

/-- of the children of a node, only one stands above a given node -/
theorem eq_of_covers (hm : m ∈ p.childNodes) (hk : k ∈ p.childNodes) (hmn : m.Covers n)
    (hkn : k.Covers n) : m = k := by
  induction n using ancestors.induct with
  | case1 n q hq ih =>
    rw [covers_iff_parent hparent] at hmn hkn
    -- a child of the node does not stand above the node itself
    have hnot : ∀ {j}, j ∈ p.childNodes → q = p → ¬ j.Covers q := by
      rintro j hj rfl hjq
      exact absurd hjq.index_le (Nat.not_le.2 (childNodes_lt hj))
    have hup : ∀ {j}, j ∈ p.childNodes → j = n → q = p := by
      rintro j hj rfl
      exact Option.some.inj (hq.symm.trans (hparent p j hj))
    rcases hmn with hmn | ⟨q', hq', hmq⟩ <;> rcases hkn with hkn | ⟨q'', hq'', hkq⟩
    · exact hmn.trans hkn.symm
    · obtain rfl := Option.some.inj (hq.symm.trans hq'')
      exact absurd hkq (hnot hk (hup hm hmn))
    · obtain rfl := Option.some.inj (hq.symm.trans hq')
      exact absurd hmq (hnot hm (hup hk hkn))
    · obtain rfl := Option.some.inj (hq.symm.trans hq')
      obtain rfl := Option.some.inj (hq'.symm.trans hq'')
      exact ih hmq hkq
  | case2 n hnone =>
    have hself : ∀ {j : Node t}, j.Covers n → j = n := fun hj => by
      rcases (covers_iff_parent hparent).1 hj with rfl | ⟨q, hq, -⟩
      · rfl
      · rw [hnone] at hq
        cases hq
    exact (hself hmn).trans (hself hkn).symm

end

end Node

namespace SyntaxTree

variable {t : SyntaxTree} {n m r : Node t}

theorem contains_of_covers (hinside : ∀ n : Node t, ∀ m ∈ n.childNodes, n.span.contains m.span = true)
    (h : n.Covers m) : n.span.contains m.span = true := by
  induction h with
  | self n => exact Span.contains_refl n.span
  | through hm _ ih => exact Span.contains_trans (hinside _ _ hm) ih

/-- Of two nodes below a third one, either stands above the other, or two children of one node stand
above them. -/
theorem covers_or_parted (hn : r.Covers n) (hm : r.Covers m) :
    n.Covers m ∨ m.Covers n ∨ ∃ p c d : Node t, c ∈ p.childNodes ∧ d ∈ p.childNodes ∧ c ≠ d ∧
      c.Covers n ∧ d.Covers m := by
  induction hn with
  | self r => exact .inl hm
  | @through r c n hc hcn ih =>
    rcases Node.covers_iff.1 hm with rfl | ⟨d, hd, hdm⟩
    · exact .inr (.inl (.through hc hcn))
    · by_cases hcd : c = d
      · exact ih (hcd ▸ hdm)
      · exact .inr (.inr ⟨r, c, d, hc, hd, hcd, hcn, hdm⟩)

/-- The walk comes to a node with text in it once, and then lists what stands below it. -/
theorem WellFormed.exists_descendants_eq (ht : t.WellFormed) (h : r.Covers n)
    (hpos : n.span.start < n.span.stop) : ∃ before after : List (Node t),
      r.descendants = before ++ n.descendants ++ after ∧
        (∀ m ∈ before, ¬ n.Covers m) ∧ ∀ m ∈ after, ¬ n.Covers m := by
  induction h with
  | self n => exact ⟨[], [], by simp, nofun, nofun⟩
  | @through r c n hc hcn ih =>
    obtain ⟨before, after, heq, hbefore, hafter⟩ := ih hpos
    obtain ⟨front, back, hchildren⟩ := List.append_of_mem hc
    -- what stands below the other children does not stand below this one
    have hother : ∀ d ∈ front ++ back, ∀ m ∈ d.descendants, ¬ n.Covers m := by
      intro d hd m hm hnm
      have hmem : d ∈ r.childNodes := by
        rw [hchildren]
        rcases List.mem_append.1 hd with hd | hd <;> simp [hd]
      obtain rfl := Node.eq_of_covers (fun _ _ h => (ht.placed_child h).2) hc hmem
        (hcn.trans hnm) (Node.mem_descendants.1 hm)
      have hpairwise := ht.pairwise_childNodes r
      rw [hchildren, List.pairwise_append, List.pairwise_cons] at hpairwise
      have hapart : c.span.Apart c.span := by
        rcases List.mem_append.1 hd with hd | hd
        · exact hpairwise.2.2 c hd c List.mem_cons_self
        · exact hpairwise.2.1.1 c hd
      have hinner := (ht.encloses_covered hcn).le
      rcases hapart with hle | hle <;> omega
    refine ⟨r :: front.flatMap Node.descendants ++ before, after ++ back.flatMap Node.descendants,
      ?_, ?_, ?_⟩
    · rw [Node.descendants_eq, hchildren, List.flatMap_append, List.flatMap_cons, heq]
      simp
    · intro m hm
      rw [List.cons_append, List.mem_cons, List.mem_append] at hm
      rcases hm with rfl | hm | hm
      · exact fun hnm => Nat.not_lt.2 (Nat.le_trans hnm.index_le hcn.index_le) (Node.childNodes_lt hc)
      · obtain ⟨d, hd, hm⟩ := List.mem_flatMap.1 hm
        exact hother d (List.mem_append_left _ hd) m hm
      · exact hbefore m hm
    · intro m hm
      rcases List.mem_append.1 hm with hm | hm
      · exact hafter m hm
      · obtain ⟨d, hd, hm⟩ := List.mem_flatMap.1 hm
        exact hother d (List.mem_append_right _ hd) m hm

/-- **Two nodes of a tree without violations are nested or apart.**  Of any two nodes below the root,
one is an ancestor of the other and its span contains the other's, or neither is, and there is no byte in
both spans.  A tree has a violation as soon as a node has a child that does not stand inside it or that
takes another node for its parent, or two children with a byte in both. -/
theorem nested_or_apart (hle : ∀ n : Node t, n.span.start ≤ n.span.stop) :
    (t.violation? = none → ∀ n ∈ t.preorder, ∀ m ∈ t.preorder, n ≠ m →
      (n ∈ m.ancestors ∧ n.span.contains m.span = true) ∨
      (m ∈ n.ancestors ∧ m.span.contains n.span = true) ∨
      (n ∉ m.ancestors ∧ m ∉ n.ancestors ∧ ¬ n.span.SharesByte m.span)) ∧
    (∀ n m : Node t, m ∈ n.childNodes → (n.span.contains m.span = false ∨ m.parent? ≠ some n) →
      ∃ v, t.violation? = some v) ∧
    ∀ (n m k : Node t) (i j : Nat), i ≠ j → n.childNode? i = some m → n.childNode? j = some k →
      m.span.SharesByte k.span → ∃ v, t.violation? = some v := by
  have hsome : ¬ (∀ n : Node t,
      (∀ m ∈ n.childNodes, n.span.contains m.span = true ∧ m.parent? = some n) ∧
        n.childNodes.Pairwise fun m k => m.span.Apart k.span) → ∃ v, t.violation? = some v := by
    rw [← violation?_eq_none_iff hle]
    exact Option.ne_none_iff_exists'.1
  refine ⟨fun hnone n hn m hm hne => ?_, fun n m hm hwrong => ?_, fun n m k i j hij hm hk hbyte => ?_⟩
  · rw [violation?_eq_none_iff hle] at hnone
    have hinside := fun n m hm => ((hnone n).1 m hm).1
    have hparent := fun n m hm => ((hnone n).1 m hm).2
    have hbelow : ∀ {n m : Node t}, n ≠ m → n.Covers m →
        n ∈ m.ancestors ∧ n.span.contains m.span = true := fun hne h =>
      ⟨((Node.covers_iff_ancestor hparent).1 h).resolve_left hne, contains_of_covers hinside h⟩
    rcases covers_or_parted (Node.mem_descendants.1 hn) (Node.mem_descendants.1 hm) with
      h | h | ⟨p, c, d, hc, hd, hcd, hcn, hdm⟩
    · exact .inl (hbelow hne h)
    · exact .inr (.inl (hbelow hne.symm h))
    · have hapart : c.span.Apart d.span := (hnone p).2.forall hc hd hcd
      refine .inr (.inr ⟨fun h => hcd ?_, fun h => hcd ?_, fun h => hapart.not_sharesByte ?_⟩)
      · have hnm := (Node.covers_iff_ancestor hparent).2 (.inr h)
        exact Node.eq_of_covers hparent hc hd (hcn.trans hnm) hdm
      · have hmn := (Node.covers_iff_ancestor hparent).2 (.inr h)
        exact Node.eq_of_covers hparent hc hd hcn (hdm.trans hmn)
      · exact h.mono (contains_of_covers hinside hcn) (contains_of_covers hinside hdm)
  · refine hsome fun hnone => ?_
    obtain ⟨hinside, hparent⟩ := (hnone n).1 m hm
    rcases hwrong with h | h
    · rw [hinside] at h
      cases h
    · exact h hparent
  · refine hsome fun hnone => ?_
    rcases Nat.lt_or_gt_of_ne hij with h | h
    · exact (Node.apart_of_pairwise (hnone n).2 h hm hk).not_sharesByte hbyte
    · exact (Node.apart_of_pairwise (hnone n).2 h hk hm).not_sharesByte hbyte.symm

def separateNumbers : SyntaxTree :=
  SyntaxTree.ofNode "[1, 2]" .array ⟨0, 6⟩ Loc.none [
    .node .int ⟨1, 2⟩ Loc.none [.value (.int 1)], .node .int ⟨4, 5⟩ Loc.none [.value (.int 2)]]

def overlappingNumbers : SyntaxTree :=
  SyntaxTree.ofNode "xxxxx" .array ⟨0, 5⟩ Loc.none [
    .node .int ⟨0, 3⟩ Loc.none [.value (.int 1)], .node .int ⟨2, 5⟩ Loc.none [.value (.int 2)]]

theorem overlappingNumbers_violation :
    (separateNumbers.violation? = none ∧
      ∃ n ∈ separateNumbers.preorder, ∃ m ∈ separateNumbers.preorder, n.span = ⟨1, 2⟩ ∧
        m.span = ⟨4, 5⟩ ∧ n ∉ m.ancestors ∧ m ∉ n.ancestors ∧ ¬ n.span.SharesByte m.span) ∧
      ∃ v, overlappingNumbers.violation? = some v := by
  have hle : ∀ n : Node separateNumbers, n.span.start ≤ n.span.stop := by decide +kernel
  have hnone : separateNumbers.violation? = none := by
    rw [violation?_eq_none_iff hle]
    decide +kernel
  let first : Node separateNumbers := ⟨0, by decide +kernel⟩
  let second : Node separateNumbers := ⟨1, by decide +kernel⟩
  have hfirst : first ∈ separateNumbers.preorder := by decide +kernel
  have hsecond : second ∈ separateNumbers.preorder := by decide +kernel
  have houtside : ¬ (first.span.contains second.span = true) ∧
      ¬ (second.span.contains first.span = true) := by decide +kernel
  have hapart := (nested_or_apart hle).1 hnone first hfirst second hsecond (by decide +kernel)
  refine ⟨⟨hnone, first, hfirst, second, hsecond, by decide +kernel, by decide +kernel, ?_⟩, ?_⟩
  · rcases hapart with h | h | h
    · exact absurd h.2 houtside.1
    · exact absurd h.2 houtside.2
    · exact h
  · have hle' : ∀ n : Node overlappingNumbers, n.span.start ≤ n.span.stop := by decide +kernel
    obtain ⟨-, -, hbyte⟩ := nested_or_apart hle'
    refine hbyte ⟨2, by decide +kernel⟩ ⟨0, by decide +kernel⟩ ⟨1, by decide +kernel⟩ 0 1 (by decide)
      (by decide +kernel) (by decide +kernel) ⟨2, ?_⟩
    decide +kernel

end SyntaxTree

end RubyLint
