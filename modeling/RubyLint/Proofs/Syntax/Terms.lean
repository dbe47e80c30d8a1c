import Mathlib.Data.List.Basic
import RubyLint.Proofs.Syntax.Placement
import RubyLint.Ruby.Layout.Construct

/-!
# The tree of a term

A term is put into an arena children first.  So each node is a child of one other only, and stands in the
tree as it stands in the term.

* `Term.Placed`          the nodes of a term lie inside each other and apart from their siblings;
* `Arena.Adds`           what an arena has more, once terms have been added;
* `Arena.addAll_adds`    adding terms adds their nodes, each of them once;
* `WellPlaced`           the nodes of a tree lie where they should, and each has one place;
* `wellPlaced_of_term`   the tree of a placed term is well placed.
-/

namespace RubyLint

/-- Every node of the term cuts the text, its children lie inside it, and they lie apart. -/
inductive Term.Placed (cs : List Char) : Term → Prop
  | value (v : Value) : Placed cs (.value v)
  | node {kind : Kind} {span : Span} {loc : Loc} {children : List Term} (hcuts : span.Cuts cs)
      (hinside : ∀ s ∈ children.filterMap Term.span?, span.contains s = true)
      (hapart : (children.filterMap Term.span?).Pairwise Span.Apart)
      (h : ∀ t ∈ children, Placed cs t) : Placed cs (.node kind span loc children)

theorem Term.Placed.leaf {cs : List Char} {kind : Kind} {span : Span} {loc : Loc} (hcuts : span.Cuts cs) :
    (Term.node kind span loc []).Placed cs :=
  .node hcuts (List.forall_mem_nil _) .nil (List.forall_mem_nil _)

namespace Arena

/-- The span of a stored child, if it is a node. -/
def spanOf? (a : Arena) : Child → Option Span
  | .node i => a.nodes[i]?.map NodeData.span
  | .value _ => none

/-- A node cuts the text, its children lie inside it, and they lie apart. -/
structure Places (a : Arena) (cs : List Char) (d : NodeData) : Prop where
  cuts : d.span.Cuts cs
  inside : ∀ s ∈ d.children.filterMap a.spanOf?, d.span.contains s = true
  apart : (d.children.filterMap a.spanOf?).Pairwise Span.Apart

/-- The nodes among some stored children. -/
def linked (links : List Child) : List Nat :=
  links.filterMap fun
    | .node index => some index
    | .value _ => none

/-- The arena with more nodes behind. -/
def Extends (a b : Arena) (new : List NodeData) : Prop := b.nodes.toList = a.nodes.toList ++ new

/-- The arena has the nodes of the terms behind its own.  Each of them but those of the terms themselves
is a child of exactly one of them. -/
structure Adds (cs : List Char) (a b : Arena) (ts : List Term) (links : List Child)
    (new : List NodeData) : Prop where
  behind : a.Extends b new
  once : (new.flatMap NodeData.links ++ linked links).Perm (List.range' a.size new.length)
  spans : links.map b.spanOf? = ts.map Term.span?
  places : (∀ t ∈ ts, t.Placed cs) → ∀ d ∈ new, b.Places cs d

section
variable {a b c : Arena} {cs : List Char} {new new' : List NodeData} {links : List Child}

theorem Extends.size (h : a.Extends b new) : b.size = a.size + new.length := by
  have hlength := congrArg List.length h
  rwa [List.length_append] at hlength

theorem Extends.trans (h : a.Extends b new) (h' : b.Extends c new') : a.Extends c (new ++ new') := by
  show c.nodes.toList = _
  rw [h', h, List.append_assoc]

theorem Extends.spanOf? (h : a.Extends b new) {c : Child} (hc : ∀ i, c = .node i → i < a.size) :
    b.spanOf? c = a.spanOf? c := by
  cases c with
  | value v => rfl
  | node i =>
    have hi : i < a.nodes.toList.length := hc i rfl
    show (b.nodes[i]?).map _ = (a.nodes[i]?).map _
    rw [← Array.getElem?_toList, ← Array.getElem?_toList, h, List.getElem?_append_left hi]

theorem Places.extends {d : NodeData} (hd : b.Places cs d) (h : b.Extends c new)
    (hlinks : ∀ i ∈ d.links, i < b.size) : c.Places cs d := by
  have heq : d.children.filterMap c.spanOf? = d.children.filterMap b.spanOf? :=
    List.filterMap_congr fun k hk => h.spanOf? fun i hi =>
      hlinks i (NodeData.mem_links.2 (hi ▸ hk))
  exact ⟨hd.cuts, heq ▸ hd.inside, heq ▸ hd.apart⟩

theorem Adds.push {kind : Kind} {span : Span} {loc : Loc} {children : List Term}
    (h : a.Adds cs b children links new) (hlinks) :
    a.Adds cs (b.push ⟨kind, span, links, loc⟩ hlinks) [.node kind span loc children]
      [.node b.size] (new ++ [⟨kind, span, links, loc⟩]) := by
  have hpush : b.Extends (b.push ⟨kind, span, links, loc⟩ hlinks) [⟨kind, span, links, loc⟩] :=
    Array.toList_push
  have hspans : links.map (b.push ⟨kind, span, links, loc⟩ hlinks).spanOf? =
      children.map Term.span? := by
    rw [← h.spans]
    exact List.map_congr_left fun k hk => hpush.spanOf? fun i hi =>
      hlinks i (NodeData.mem_links.2 (hi ▸ hk))
  refine ⟨h.behind.trans hpush, ?_, ?_, fun hplaced => ?_⟩
  · rw [List.flatMap_append, List.length_append, List.append_assoc]
    show (new.flatMap NodeData.links ++ (linked links ++ [] ++ [b.size])).Perm
      (List.range' a.size (new.length + 1))
    rw [List.append_nil, ← List.append_assoc, List.range'_concat, Nat.one_mul, h.behind.size]
    exact h.once.append_right _
  · show [(b.nodes.push _)[b.nodes.size]?.map NodeData.span] = [some span]
    rw [Array.getElem?_push_size]
    rfl
  · have hroot := hplaced _ List.mem_cons_self
    cases hroot with
    | node hcuts hinside hapart hchildren =>
      have hchild : links.filterMap (b.push ⟨kind, span, links, loc⟩ hlinks).spanOf? =
          children.filterMap Term.span? := by
        have hid := congrArg (List.filterMap id) hspans
        rwa [List.filterMap_map, List.filterMap_map] at hid
      refine List.forall_mem_append.2 ⟨fun d hd => ?_, List.forall_mem_singleton.2
        ⟨hcuts, hchild ▸ hinside, hchild ▸ hapart⟩⟩
      refine (h.places hchildren d hd).extends hpush fun i hi => ?_
      have hmem : i ∈ new.flatMap NodeData.links ++ linked links :=
        List.mem_append_left _ (List.mem_flatMap.2 ⟨d, hd, hi⟩)
      have hlt := List.mem_range'_1.1 (h.once.subset hmem)
      rw [h.behind.size]
      exact hlt.2

theorem Adds.cons {t : Term} {ts : List Term} {k : Child} (h : a.Adds cs b [t] [k] new)
    (hk : ∀ i, k = .node i → i < b.size) (h' : b.Adds cs c ts links new') :
    a.Adds cs c (t :: ts) (k :: links) (new ++ new') where
  behind := h.behind.trans h'.behind
  once := by
    have hrange : List.range' a.size (new ++ new').length =
        List.range' a.size new.length ++ List.range' b.size new'.length := by
      rw [List.length_append, h.behind.size, List.range'_append_1]
    have hlinked : linked (k :: links) = linked [k] ++ linked links := List.filterMap_append (l := [k])
    rw [hrange, hlinked, List.flatMap_append, List.append_assoc]
    refine .trans ?_ (h.once.append h'.once)
    rw [List.append_assoc]
    refine .append_left _ ?_
    rw [← List.append_assoc, ← List.append_assoc]
    exact .append_right _ List.perm_append_comm
  spans := by
    have hfirst : c.spanOf? k = t.span? := by
      rw [h'.behind.spanOf? hk]
      exact List.head_eq_of_cons_eq h.spans
    rw [List.map_cons, List.map_cons, hfirst, h'.spans]
  places hplaced := by
    have hfirst := h.places (List.forall_mem_singleton.2 (hplaced t List.mem_cons_self))
    refine List.forall_mem_append.2 ⟨fun d hd => (hfirst d hd).extends h'.behind fun i hi => ?_,
      h'.places fun t' ht' => hplaced t' (List.mem_cons_of_mem t ht')⟩
    have hmem : i ∈ new.flatMap NodeData.links ++ linked [k] :=
      List.mem_append_left _ (List.mem_flatMap.2 ⟨d, hd, hi⟩)
    rw [h.behind.size]
    exact (List.mem_range'_1.1 (h.once.subset hmem)).2

end

mutual

theorem add_adds (cs : List Char) (a : Arena) (t : Term) :
    ∃ new, a.Adds cs (a.add t).1.1 [t] [(a.add t).1.2] new := by
  cases t with
  | value v =>
    rw [Arena.add]
    exact ⟨[], (List.append_nil _).symm, .nil, rfl, fun _ d hd => absurd hd List.not_mem_nil⟩
  | node kind span loc children =>
    obtain ⟨new, hnew⟩ := addAll_adds cs a children
    rw [Arena.add]
    generalize a.addAll children = r at hnew ⊢
    obtain ⟨⟨b, links⟩, hsize, hlinks⟩ := r
    exact ⟨_, hnew.push fun j hj => hlinks j (NodeData.mem_links.1 hj)⟩

theorem addAll_adds (cs : List Char) (a : Arena) (ts : List Term) :
    ∃ new, a.Adds cs (a.addAll ts).1.1 ts (a.addAll ts).1.2 new := by
  cases ts with
  | nil =>
    rw [Arena.addAll]
    exact ⟨[], (List.append_nil _).symm, .nil, rfl, fun _ d hd => absurd hd List.not_mem_nil⟩
  | cons t ts =>
    obtain ⟨new, hnew⟩ := add_adds cs a t
    rw [Arena.addAll]
    generalize a.add t = r at hnew ⊢
    obtain ⟨⟨b, k⟩, hsize, hk⟩ := r
    dsimp only at hnew ⊢
    obtain ⟨new', hnew'⟩ := addAll_adds cs b ts
    generalize b.addAll ts = r at hnew' ⊢
    obtain ⟨⟨b', ks⟩, hsize', hks⟩ := r
    exact ⟨_, hnew.cons hk hnew'⟩

end

end Arena

/-! ## trees without shared nodes -/

namespace SyntaxTree

variable {t : SyntaxTree}

/-- Every node of the table but the root is a child once, and the root is not. -/
def IsUnshared (t : SyntaxTree) : Prop :=
  (t.nodes.toList.flatMap NodeData.links ++ [t.root]).Perm (List.range t.nodes.size)

theorem exists_linkFirst {nodes : Array NodeData} {n i : Nat} {parents : Array (Option Nat)}
    (hi : i < parents.size) (h : ∃ j d, j < n ∧ nodes[j]? = some d ∧ i ∈ d.links) :
    ∃ p, (linkFirst nodes n parents)[i]? = some (some p) := by
  induction n with
  | zero =>
    obtain ⟨j, -, hj, -⟩ := h
    exact absurd hj (Nat.not_lt_zero j)
  | succ n ih =>
    obtain ⟨j, d, hj, hd, hlink⟩ := h
    have hearlier : j ≠ n → ∃ p, (linkFirst nodes n parents)[i]? = some (some p) := fun hne =>
      ih ⟨j, d, Nat.lt_of_le_of_ne (Nat.le_of_lt_succ hj) hne, hd, hlink⟩
    unfold linkFirst
    split
    · next e he =>
      rw [getElem?_linkAll]
      split
      · exact ⟨n, rfl⟩
      · next hnot =>
        refine hearlier fun heq => hnot ⟨?_, ?_⟩
        · subst heq
          rw [hd] at he
          exact Option.some.inj he ▸ hlink
        · rwa [size_linkFirst]
    · next he =>
      refine hearlier fun heq => ?_
      subst heq
      rw [hd] at he
      cases he

theorem Node.data_mem (n : Node t) : n.data ∈ t.nodes.toList :=
  Array.getElem_mem_toList n.index_lt

section
variable {n p : Node t}

theorem childNode?_eq_some_iff {i : Nat} :
    p.childNode? i = some n ↔ p.data.children[i]? = some (.node n.index) := by
  have hall : ∀ (cs : List Child) (hcs : ∀ c ∈ cs, c ∈ p.data.children) (i : Nat),
      ((cs.pmap p.childOf hcs)[i]?.bind NodeChild.asNode? = some n ↔
        cs[i]? = some (.node n.index)) := by
    intro cs hcs i
    induction cs generalizing i with
    | nil => exact iff_of_false (fun h => nomatch h) fun h => nomatch h
    | cons c cs ih =>
      cases i with
      | zero => cases c <;> simp [Node.childOf, NodeChild.asNode?, Node.ext_iff]
      | succ i => exact ih (fun c hc => hcs c (List.mem_cons_of_mem _ hc)) i
  exact hall p.data.children (fun _ h => h) i

theorem exists_childNode?_of_mem (h : n ∈ p.childNodes) : ∃ i, p.childNode? i = some n := by
  obtain ⟨i, hi⟩ := List.mem_iff_getElem?.1 (Node.mem_childNodes.1 h)
  exact ⟨i, by rw [Node.childNode?, Node.child?, hi]; rfl⟩

end

namespace IsUnshared

variable {n m p : Node t}

theorem nodup (h : t.IsUnshared) : (t.nodes.toList.flatMap NodeData.links ++ [t.root]).Nodup :=
  h.nodup_iff.2 List.nodup_range

theorem parent_unique (h : t.IsUnshared) {p q : Node t} (hp : n ∈ p.childNodes)
    (hq : n ∈ q.childNodes) : p = q := by
  have hnodup := (List.nodup_append.1 h.nodup).1
  have hpair := (List.pairwise_flatMap.1 hnodup).2
  have hdiffer : ∀ {p q : Node t}, n ∈ p.childNodes → n ∈ q.childNodes → ¬ p.index < q.index := by
    intro p q hp hq hlt
    have hne := List.pairwise_iff_getElem.1 hpair p.index q.index p.index_lt q.index_lt hlt
    exact hne n.index (Node.mem_links_iff.2 hp) n.index (Node.mem_links_iff.2 hq) rfl
  exact Node.ext (Nat.le_antisymm (Nat.not_lt.1 (hdiffer hq hp)) (Nat.not_lt.1 (hdiffer hp hq)))

theorem exists_parent (h : t.IsUnshared) (hn : n ≠ t.rootNode) : ∃ p : Node t, n ∈ p.childNodes := by
  have hmem := h.symm.subset (List.mem_range.2 n.index_lt)
  rcases List.mem_append.1 hmem with hmem | hmem
  · obtain ⟨d, hd, hlink⟩ := List.mem_flatMap.1 hmem
    obtain ⟨i, hi, rfl⟩ := List.getElem_of_mem hd
    exact ⟨⟨i, hi⟩, Node.mem_links_iff.1 hlink⟩
  · exact absurd (Node.ext (List.mem_singleton.1 hmem)) hn

/-- **A node below the root has one place among the children of one node.** -/
theorem existsUnique_place (h : t.IsUnshared) (hn : n ≠ t.rootNode) :
    ∃! place : Node t × Nat, place.1.childNode? place.2 = some n := by
  obtain ⟨p, hp⟩ := h.exists_parent hn
  obtain ⟨i, hi⟩ := exists_childNode?_of_mem hp
  refine ⟨(p, i), hi, ?_⟩
  rintro ⟨q, j⟩ hj
  obtain rfl := h.parent_unique hp (Node.mem_childNodes_of_childNode? hj)
  have hlinks := (List.pairwise_flatMap.1 (List.nodup_append.1 h.nodup).1).1 p.data (Node.data_mem p)
  have hpair := List.pairwise_iff_getElem.1 (List.pairwise_filterMap.1 hlinks)
  have hdiffer : ∀ {i j : Nat}, p.childNode? i = some n → p.childNode? j = some n → ¬ i < j := by
    intro i j hi hj hlt
    obtain ⟨hi', hci⟩ := List.getElem?_eq_some_iff.1 (childNode?_eq_some_iff.1 hi)
    obtain ⟨hj', hcj⟩ := List.getElem?_eq_some_iff.1 (childNode?_eq_some_iff.1 hj)
    exact hpair i j hi' hj' hlt n.index (by rw [hci]) n.index (by rw [hcj]) rfl
  have hij : i = j := Nat.le_antisymm (Nat.not_lt.1 (hdiffer hj hi)) (Nat.not_lt.1 (hdiffer hi hj))
  rw [hij]

/-- A child knows its parent. -/
theorem parent?_of_mem (h : t.IsUnshared) (hm : m ∈ n.childNodes) : m.parent? = some n := by
  obtain ⟨p, hp⟩ : ∃ p, m.parent? = some p := by
    obtain ⟨p, hp⟩ : ∃ p, t.parents[m.index]? = some (some p) := by
      rw [t.parents_eq]
      refine exists_linkFirst (by simpa using m.index_lt) ⟨n.index, n.data, n.index_lt, ?_, ?_⟩
      · exact Array.getElem?_eq_getElem n.index_lt
      · exact Node.mem_links_iff.2 hm
    unfold Node.parent?
    split
    · exact ⟨_, rfl⟩
    · next hnone => exact absurd hp (hnone p)
  rw [hp, h.parent_unique (Node.mem_childNodes_of_parent? hp) hm]

end IsUnshared

/-! ## the tree of a term -/

theorem spans_childNodes (n : Node t) :
    n.childNodes.map Node.span = n.data.children.filterMap t.toArena.spanOf? := by
  have hall : ∀ (cs : List Child) (hcs : ∀ c ∈ cs, c ∈ n.data.children),
      ((cs.pmap n.childOf hcs).filterMap NodeChild.asNode?).map Node.span =
        cs.filterMap t.toArena.spanOf? := by
    intro cs hcs
    induction cs with
    | nil => rfl
    | cons c cs ih =>
      have hrest := ih fun c hc => hcs c (List.mem_cons_of_mem _ hc)
      cases c with
      | value v => exact hrest
      | node i =>
        have hi : i < t.nodes.size := Nat.lt_trans (t.links_lt n.index n.index_lt i
          (NodeData.mem_links.2 (hcs _ List.mem_cons_self))) n.index_lt
        have hspan : t.toArena.spanOf? (.node i) = some t.nodes[i].span := by
          rw [Arena.spanOf?, Array.getElem?_eq_getElem hi]
          rfl
        rw [List.filterMap_cons_some hspan, ← hrest]
        rfl
  exact hall n.data.children fun _ h => h

/-- A tree without shared nodes has no violation if every node is placed. -/
theorem violation?_eq_none {cs : List Char} (h : t.IsUnshared)
    (hplaces : ∀ d ∈ t.nodes.toList, t.toArena.Places cs d) : t.violation? = none := by
  have hnode : ∀ n : Node t, t.toArena.Places cs n.data := fun n => hplaces _ (Node.data_mem n)
  rw [SyntaxTree.violation?_eq_none_iff fun n => (hnode n).cuts.le]
  refine fun n => ⟨fun m hm => ⟨(hnode n).inside m.span ?_, h.parent?_of_mem hm⟩, ?_⟩
  · rw [← spans_childNodes]
    exact List.mem_map_of_mem hm
  · have hspans := (hnode n).apart
    rw [← spans_childNodes] at hspans
    exact List.pairwise_map.1 hspans

/-- The tree of a node has the nodes of its parts and the node itself, each of them once. -/
theorem ofNode_placed {source : String} {kind : Kind} {span : Span} {loc : Loc} {children : List Term}
    (h : (Term.node kind span loc children).Placed source.toList) :
    (ofNode source kind span loc children).source = source ∧
      (ofNode source kind span loc children).IsUnshared ∧
      ∀ d ∈ (ofNode source kind span loc children).nodes.toList,
        (ofNode source kind span loc children).toArena.Places source.toList d := by
  obtain ⟨new, hnew⟩ := Arena.addAll_adds source.toList .empty children
  unfold ofNode
  generalize Arena.empty.addAll children = r at hnew ⊢
  obtain ⟨⟨b, links⟩, hsize, hlinks⟩ := r
  let root : NodeData := ⟨kind, span, links, loc⟩
  have hroot : ∀ j ∈ root.links, j < b.size := fun j hj => hlinks j (NodeData.mem_links.1 hj)
  have hpush : Arena.empty.Adds source.toList (b.push root hroot) [.node kind span loc children]
      [.node b.size] (new ++ [root]) := hnew.push hroot
  have hnodes : (b.push root hroot).nodes.toList = new ++ [root] := hpush.behind
  refine ⟨rfl, ?_, ?_⟩
  · show ((b.push root hroot).nodes.toList.flatMap NodeData.links ++ [b.size]).Perm
      (List.range (b.push root hroot).nodes.size)
    rw [List.range_eq_range', ← Array.length_toList, hnodes]
    exact hpush.once
  · intro d hd
    exact hpush.places (List.forall_mem_singleton.2 h) d (hnodes ▸ hd)

end SyntaxTree

theorem byteLength_toList (s : String) : Text.byteLength s.toList = s.utf8ByteSize := by
  have hall : ∀ cs : List Char, (String.ofList cs).utf8ByteSize = Text.byteLength cs := by
    intro cs
    induction cs with
    | nil => rfl
    | cons c cs ih =>
      have hcons : String.ofList (c :: cs) = String.singleton c ++ String.ofList cs := by
        rw [← List.singleton_append, String.ofList_append]
        rfl
      rw [hcons, String.utf8ByteSize_append, String.utf8ByteSize_singleton, ih]
      rfl
  rw [← hall, String.ofList_toList]

/-- What a tree has to be for its ranges and its parent links to be right. -/
structure SyntaxTree.WellPlaced (t : SyntaxTree) : Prop where
  /-- its nodes lie inside their parents, which they know, and apart from their siblings -/
  checked : t.violation? = none
  /-- its nodes lie inside the source, and cut it -/
  cuts : ∀ n : Node t, n.span.Cuts t.source.toList
  /-- every node but the root is one child of one node -/
  once : ∀ n : Node t, n ≠ t.rootNode → ∃! place : Node t × Nat, place.1.childNode? place.2 = some n

/-- **The tree of a placed term is well placed.** -/
theorem wellPlaced_of_term {source : String} {term : Term} (h : term.Placed source.toList) :
    (Ruby.treeOfTerm source term).source = source ∧ (Ruby.treeOfTerm source term).WellPlaced := by
  obtain ⟨hsource, hunshared, hplaces⟩ : (Ruby.treeOfTerm source term).source = source ∧
      (Ruby.treeOfTerm source term).IsUnshared ∧
      ∀ d ∈ (Ruby.treeOfTerm source term).nodes.toList,
        (Ruby.treeOfTerm source term).toArena.Places source.toList d := by
    cases term with
    | node kind span loc children => exact SyntaxTree.ofNode_placed h
    | value v => exact SyntaxTree.ofNode_placed (.leaf (byteLength_toList source ▸ Span.cuts_text _))
  refine ⟨hsource, SyntaxTree.violation?_eq_none hunshared hplaces, fun n => ?_,
    fun n hn => hunshared.existsUnique_place hn⟩
  rw [hsource]
  exact (hplaces _ (SyntaxTree.Node.data_mem n)).cuts

end RubyLint
