import RubyLint.Proofs.Syntax.Preorder

/-!
# Walks step by step

A walk hands out one node at a time.  Down the tree it keeps a stack of the nodes that are still to be
visited, with the next one at its end; up the tree it keeps the next node only.

* `handsOut_down_iff`        a walk down hands out what a recursion over each node of its stack lists,
                             the node at the end first;
* `handsOut_up_iff`          a walk up hands out the nodes above one another, up to one without a parent;
* `pairwise_ancestors`       their indices grow, and so the walk ends;
* `exists_ofList?`           a list of nodes in which children come first is a table;
* `bottomUp_walks`           all of this for each node of such a table.
-/

namespace RubyLint

/-! ## what steps hand out -/

section
variable {σ α : Type} {step : σ → Option (α × σ)}

/-- from this state the steps hand out these things one after the other, and then there is no step -/
inductive HandsOut (step : σ → Option (α × σ)) : σ → List α → Prop
  | done {s : σ} (h : step s = none) : HandsOut step s []
  | next {s s' : σ} {a : α} {as : List α} (h : step s = some (a, s')) (hrest : HandsOut step s' as) :
    HandsOut step s (a :: as)

theorem HandsOut.unique {s : σ} {as bs : List α} (h : HandsOut step s as) (h' : HandsOut step s bs) :
    as = bs := by
  induction h generalizing bs with
  | done hnone =>
    cases h' with
    | done => rfl
    | next hsome =>
      rw [hnone] at hsome
      cases hsome
  | next hsome hrest ih =>
    cases h' with
    | done hnone =>
      rw [hsome] at hnone
      cases hnone
    | next hsome' hrest' =>
      rw [hsome] at hsome'
      cases hsome'
      rw [ih hrest']

theorem HandsOut.iff_eq {s : σ} {as bs : List α} (h : HandsOut step s as) :
    HandsOut step s bs ↔ bs = as :=
  ⟨fun h' => h'.unique h, fun heq => heq ▸ h⟩

end

namespace Node

variable {t : SyntaxTree}

/-! ## down -/

/-- The node at the end of the stack, and the stack with its children in its place: they are pushed in
order, and then what has been pushed is turned around. -/
def down? (stack : List (Node t)) : Option (Node t × List (Node t)) :=
  stack.getLast?.map fun n =>
    let rest := stack.dropLast
    let pushed := rest ++ n.childNodes
    (n, pushed.take rest.length ++ (pushed.drop rest.length).reverse)

theorem down?_nil : down? ([] : List (Node t)) = none := rfl

theorem down?_concat (rest : List (Node t)) (n : Node t) :
    down? (rest ++ [n]) = some (n, rest ++ n.childNodes.reverse) := by
  unfold down?
  rw [List.getLast?_concat, List.dropLast_concat]
  dsimp only [Option.map_some]
  rw [List.take_left, List.drop_left]

theorem handsOut_walk (stack : List (Node t)) : HandsOut down? stack.reverse (walk stack) := by
  induction stack using walk.induct with
  | case1 =>
    rw [walk_nil]
    exact .done down?_nil
  | case2 n rest ih =>
    rw [walk_cons, List.reverse_cons]
    rw [List.reverse_append] at ih
    exact .next (down?_concat rest.reverse n) ih

/-- **What a stack comes to.**  The walk ends, and hands out what a recursion over each node of the stack
lists, the node at the end first. -/
theorem handsOut_down_iff {stack ns : List (Node t)} :
    HandsOut down? stack ns ↔ ns = stack.reverse.flatMap subtree := by
  have hwalk := handsOut_walk stack.reverse
  rw [List.reverse_reverse, walk_eq_flatMap, funext descendants_eq_subtree] at hwalk
  exact hwalk.iff_eq

/-! ## up -/

/-- the node itself, and its parent as the next one -/
def up? (next : Option (Node t)) : Option (Node t × Option (Node t)) :=
  next.map fun n => (n, n.parent?)

theorem ancestors_of_none {n : Node t} (h : n.parent? = none) : n.ancestors = [] := by
  rw [ancestors]
  split
  · next p hp =>
    rw [h] at hp
    cases hp
  · rfl

theorem ancestors_of_some {n p : Node t} (h : n.parent? = some p) : n.ancestors = p :: p.ancestors := by
  rw [ancestors]
  split
  · next p' hp =>
    rw [h] at hp
    cases hp
    rfl
  · next hp =>
    rw [h] at hp
    cases hp

theorem ind_parent {P : Node t → Prop} (h : ∀ n, (∀ p, n.parent? = some p → P p) → P n)
    (n : Node t) : P n := by
  induction hk : t.nodes.size - n.index using Nat.strongRecOn generalizing n with
  | ind k ih =>
    refine h n fun p hp => ih (t.nodes.size - p.index) ?_ p rfl
    have hlt := lt_of_parent? hp
    have hbound := p.index_lt
    omega

/-- **The walk up ends**, and hands out the nodes above one another. -/
theorem handsOut_up_iff {n : Node t} {ns : List (Node t)} :
    HandsOut up? n.parent? ns ↔ ns = n.ancestors := by
  suffices hancestors : HandsOut up? n.parent? n.ancestors from hancestors.iff_eq
  induction n using ind_parent with
  | h n ih =>
    cases hp : n.parent? with
    | none =>
      rw [ancestors_of_none hp]
      exact .done rfl
    | some p =>
      rw [ancestors_of_some hp]
      exact .next rfl (ih p hp)

theorem pairwise_ancestors (n : Node t) : (n :: n.ancestors).Pairwise fun p q => p.index < q.index := by
  induction n using ind_parent with
  | h n ih =>
    cases hp : n.parent? with
    | none =>
      rw [ancestors_of_none hp]
      exact List.pairwise_singleton _ _
    | some p =>
      have hlt := lt_of_parent? hp
      have hrest := ih p hp
      rw [ancestors_of_some hp]
      refine List.pairwise_cons.2 ⟨List.forall_mem_cons.2 ⟨hlt, fun q hq => ?_⟩, hrest⟩
      exact Nat.lt_trans hlt ((List.pairwise_cons.1 hrest).1 q hq)

end Node

/-! ## tables -/

/-- every node comes after its node children -/
def BottomUp (ds : List NodeData) : Prop :=
  ∀ (i : Nat) (d : NodeData), ds[i]? = some d → ∀ j ∈ d.links, j < i

theorem exists_foldlM_push? {ds : List NodeData} {a : Arena} (h : BottomUp (a.nodes.toList ++ ds)) :
    ∃ b, ds.foldlM Arena.push? a = some b ∧ b.nodes.toList = a.nodes.toList ++ ds := by
  induction ds generalizing a with
  | nil => exact ⟨a, rfl, (List.append_nil _).symm⟩
  | cons d ds ih =>
    have hlinks : ∀ j ∈ d.links, j < a.size := by
      refine h a.size d ?_
      rw [Arena.size, ← Array.length_toList, List.getElem?_append_right (Nat.le_refl _), Nat.sub_self,
        List.getElem?_cons_zero]
    have hpush : a.push? d = some (a.push d hlinks) := dif_pos hlinks
    have hlist : (a.push d hlinks).nodes.toList = a.nodes.toList ++ [d] := Array.toList_push
    obtain ⟨b, hb, hnodes⟩ := ih (a := a.push d hlinks) (by rwa [hlist, List.append_assoc])
    rw [hlist, List.append_assoc] at hnodes
    exact ⟨b, by rwa [List.foldlM_cons, hpush], hnodes⟩

theorem exists_ofList? {ds : List NodeData} (h : BottomUp ds) :
    ∃ a, Arena.ofList? ds = some a ∧ a.nodes = ds.toArray := by
  obtain ⟨a, ha, hnodes⟩ := @exists_foldlM_push? ds Arena.empty h
  exact ⟨a, ha, Array.toList_inj.1 hnodes⟩

/-- **Walks over a table.**  In a table that is built from the children up, perhaps with shared nodes, a
walk down from any node ends and hands out the nodes in the order of the recursion, as the traversals of the
library list them; a walk up ends, since the indices grow. -/
theorem bottomUp_walks {ds : List NodeData} (h : BottomUp ds) :
    ∃ a, Arena.ofList? ds = some a ∧ a.nodes = ds.toArray ∧
      ∀ (root : Nat) (hroot : root < a.size) (source : String),
        (a.finish root hroot source).preorder = (a.finish root hroot source).rootNode.subtree ∧
        ∀ n : Node (a.finish root hroot source), n.descendants = n.subtree ∧
          (∀ ns, HandsOut Node.down? [n] ns ↔ ns = n.subtree) ∧
          (∀ ns, HandsOut Node.up? n.parent? ns ↔ ns = n.ancestors) ∧
          (n :: n.ancestors).Pairwise fun p q => p.index < q.index := by
  obtain ⟨a, ha, hnodes⟩ := exists_ofList? h
  refine ⟨a, ha, hnodes, fun root hroot source => ⟨?_, fun n => ⟨?_, ?_, ?_, ?_⟩⟩⟩
  · exact Node.descendants_eq_subtree _
  · exact n.descendants_eq_subtree
  · intro ns
    rw [Node.handsOut_down_iff, List.reverse_singleton, List.flatMap_singleton]
  · exact fun ns => Node.handsOut_up_iff
  · exact n.pairwise_ancestors

def sharedNodes : List NodeData :=
  let number : NodeData := ⟨.int, ⟨2, 3⟩, [.value (.int 1)], .none⟩
  let pair : NodeData := ⟨.array, ⟨1, 7⟩, [.node 0, .node 0], .none⟩
  [number, pair, ⟨.array, ⟨0, 11⟩, [.node 1, .node 0], .none⟩]

theorem bottomUp_sharedNodes : BottomUp sharedNodes := by
  intro i d hd
  match i, hd with
  | 0, hd => cases hd; decide
  | 1, hd => cases hd; decide
  | 2, hd => cases hd; decide

def sharedTable : Arena := (Arena.ofList? sharedNodes).get (by decide +kernel)

def sharedTree : SyntaxTree := sharedTable.finish 2 (by decide +kernel) "[[1, 1], 1]"

/-- The walk meets the number three times; up from it there is only the node that was added last. -/
theorem sharedNodes_walks :
    BottomUp sharedNodes ∧
      HandsOut Node.down? [sharedTree.rootNode] sharedTree.rootNode.subtree ∧
      sharedTree.rootNode.subtree.map Node.index = [2, 1, 0, 0, 0] ∧
      ∃ n : Node sharedTree, n.index = 0 ∧ HandsOut Node.up? n.parent? [sharedTree.rootNode] := by
  obtain ⟨a, ha, -, hwalks⟩ := bottomUp_walks bottomUp_sharedNodes
  obtain rfl : a = sharedTable := (Option.get_of_eq_some _ ha).symm
  obtain ⟨-, hnode⟩ := hwalks 2 (by decide +kernel) "[[1, 1], 1]"
  obtain ⟨-, hdown, -, -⟩ := hnode sharedTree.rootNode
  obtain ⟨-, -, hup, -⟩ := hnode ⟨0, by decide +kernel⟩
  exact ⟨bottomUp_sharedNodes, (hdown _).2 rfl, by decide +kernel, _, rfl,
    (hup _).2 ((List.map_inj_right fun _ _ => Node.ext).1 (by decide +kernel))⟩

end RubyLint
