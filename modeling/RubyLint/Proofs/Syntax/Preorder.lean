import RubyLint.Syntax.Node

/-!
# The pre-order of a tree

`Node.descendants` walks with a stack.  Here the walk is cut into one part for each node on the
stack, which gives

* `descendants_eq`   a node, then what its children give, one child after the other;
* `mem_descendants`  a node is listed exactly if it is the node itself or stands below it;
* `descendants_eq_subtree`  the walk lists what a plain recursion lists.
-/

namespace RubyLint.Node

variable {t : SyntaxTree}

/-- `n.Covers m`: the node `m` is `n` or stands below it. -/
inductive Covers : Node t → Node t → Prop
  | self (n : Node t) : Covers n n
  | through {n m k : Node t} (hm : m ∈ n.childNodes) (hk : Covers m k) : Covers n k

theorem covers_iff {n k : Node t} : n.Covers k ↔ k = n ∨ ∃ m ∈ n.childNodes, m.Covers k := by
  constructor
  · intro h
    cases h with
    | self => exact Or.inl rfl
    | through hm hk => exact Or.inr ⟨_, hm, hk⟩
  · rintro (rfl | ⟨m, hm, hk⟩)
    · exact Covers.self _
    · exact Covers.through hm hk

theorem Covers.trans {n m k : Node t} (h : n.Covers m) (h' : m.Covers k) : n.Covers k := by
  induction h with
  | self n => exact h'
  | through hm _ ih => exact .through hm (ih h')

theorem Covers.index_le {n m : Node t} (h : n.Covers m) : m.index ≤ n.index := by
  induction h with
  | self n => exact Nat.le_refl _
  | through hm _ ih => exact Nat.le_trans ih (Nat.le_of_lt (childNodes_lt hm))

theorem walk_nil : walk ([] : List (Node t)) = [] := by rw [walk]

theorem walk_cons (n : Node t) (rest : List (Node t)) :
    walk (n :: rest) = n :: walk (n.childNodes ++ rest) := by
  rw [walk]

theorem walk_append (ms ns : List (Node t)) : walk (ms ++ ns) = walk ms ++ walk ns := by
  induction ms using walk.induct with
  | case1 => rw [walk_nil, List.nil_append, List.nil_append]
  | case2 m ms ih =>
    rw [List.cons_append, walk_cons, walk_cons, ← List.append_assoc, ih, List.cons_append]

theorem walk_eq_flatMap (ns : List (Node t)) : walk ns = ns.flatMap descendants := by
  induction ns with
  | nil => exact walk_nil
  | cons n ns ih =>
    have hcut : walk ([n] ++ ns) = walk [n] ++ walk ns := walk_append [n] ns
    rw [List.flatMap_cons, ← ih]
    exact hcut

/-- The node comes first, then everything below its first child, its second, and so on. -/
theorem descendants_eq (n : Node t) : n.descendants = n :: n.childNodes.flatMap descendants := by
  show walk [n] = _
  rw [walk_cons, List.append_nil, walk_eq_flatMap]

theorem mem_descendants {n k : Node t} : k ∈ n.descendants ↔ n.Covers k := by
  -- by the index, which gets smaller on the way down
  induction hi : n.index using Nat.strongRecOn generalizing n with
  | ind i ih =>
    have hbelow : ∀ m ∈ n.childNodes, (k ∈ m.descendants ↔ m.Covers k) := fun m hm =>
      ih m.index (hi ▸ childNodes_lt hm) rfl
    rw [descendants_eq, List.mem_cons, List.mem_flatMap, covers_iff]
    constructor
    · rintro (h | ⟨m, hm, hk⟩)
      · exact Or.inl h
      · exact Or.inr ⟨m, hm, (hbelow m hm).1 hk⟩
    · rintro (h | ⟨m, hm, hk⟩)
      · exact Or.inl h
      · exact Or.inr ⟨m, hm, (hbelow m hm).2 hk⟩

/-- The node, then the subtrees of its children, one child after the other. -/
def subtree (n : Node t) : List (Node t) := n :: n.childNodes.attach.flatMap fun c => c.1.subtree
termination_by n.index
decreasing_by exact childNodes_lt c.2

theorem subtree_eq (n : Node t) : n.subtree = n :: n.childNodes.flatMap subtree := by
  rw [subtree, List.flatMap_subtype (g := subtree) (fun _ _ => rfl), List.unattach_attach]

theorem descendants_eq_subtree (n : Node t) : n.descendants = n.subtree := by
  induction hi : n.index using Nat.strongRecOn generalizing n with
  | ind i ih =>
    have hbelow : ∀ m ∈ n.childNodes, m.descendants = m.subtree := fun m hm =>
      ih m.index (hi ▸ childNodes_lt hm) m rfl
    rw [descendants_eq, subtree_eq, List.flatMap_def, List.flatMap_def, List.map_congr_left hbelow]

end RubyLint.Node
