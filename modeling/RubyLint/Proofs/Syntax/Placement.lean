import RubyLint.Proofs.Edit.Order
import RubyLint.Proofs.Syntax.Preorder
import RubyLint.Proofs.Text.Slice
import RubyLint.Rule.Basic
import RubyLint.Syntax.Invariants

/-!
# Where the parts of a node stand

A tree is `WellFormed` if the reader of its text has put everything where it belongs: spans cut the
text between characters, nodes lie inside their parents and apart from their siblings, and the parts
of a call and of a block stand one behind the other.

* `Span.Cuts`       the ends of a span are in order, and both of them cut the text;
* `Node.Encloses`   a span that cuts the text stands inside a node;
* `encloses_covered`, `exists_text`   what stands below a node stands inside it, and every node has a
                    text;
* `stop_le_or_of_childNode?`   of two children, one ends before the other starts;
* `encloses_part`   the parts of calls and blocks stand inside them;
* `receiver_le_dot`, `dot_le_selector`, `call_le_parameters`, ...   one behind the other.
-/

namespace RubyLint

open Text (isBoundary)

/-! ## spans -/

namespace Span

/-- the ends of the span are in order, and both of them cut the text -/
structure Cuts (s : Span) (cs : List Char) : Prop where
  le : s.start ≤ s.stop
  start : isBoundary cs s.start = true
  stop : isBoundary cs s.stop = true

instance (s : Span) (cs : List Char) : Decidable (s.Cuts cs) :=
  decidable_of_iff (s.start ≤ s.stop ∧ isBoundary cs s.start = true ∧ isBoundary cs s.stop = true)
    ⟨fun h => ⟨h.1, h.2.1, h.2.2⟩, fun h => ⟨h.le, h.start, h.stop⟩⟩

def InOrder (ss : List Span) : Prop := ss.Pairwise fun s s' => s.stop ≤ s'.start

instance (ss : List Span) : Decidable (InOrder ss) :=
  inferInstanceAs (Decidable (ss.Pairwise _))

/-- one of the spans ends before the other starts -/
def Apart (s s' : Span) : Prop := s.stop ≤ s'.start ∨ s'.stop ≤ s.start

variable {s s' : Span} {cs : List Char}

theorem Apart.symm (h : s.Apart s') : s'.Apart s := Or.symm h

theorem InOrder.front {ss ss' : List Span} (h : InOrder (ss ++ ss')) : InOrder ss :=
  (List.pairwise_append.1 h).1

theorem InOrder.stop_le_start {ss ss' : List Span} (h : InOrder (ss ++ ss')) (hs : s ∈ ss)
    (hs' : s' ∈ ss') : s.stop ≤ s'.start :=
  (List.pairwise_append.1 h).2.2 s hs s' hs'

theorem cuts_text (cs : List Char) : (⟨0, Text.byteLength cs⟩ : Span).Cuts cs :=
  ⟨Nat.zero_le _, Text.isBoundary_zero _, Text.isBoundary_byteLength _⟩

theorem Cuts.inside_text (h : s.Cuts cs) : (⟨0, Text.byteLength cs⟩ : Span).contains s = true :=
  contains_iff.2 ⟨Nat.zero_le _, Text.le_byteLength_of_isBoundary h.stop⟩

theorem Cuts.upTo (h : s.Cuts cs) (h' : s'.Cuts cs) : (s.upTo s').Cuts cs := by
  refine ⟨Nat.le_max_right _ _, h.start, ?_⟩
  show isBoundary cs (max s'.stop s.start) = true
  rcases Nat.le_total s'.stop s.start with hle | hle
  · rw [Nat.max_eq_right hle]
    exact h.start
  · rw [Nat.max_eq_left hle]
    exact h'.stop

theorem Cuts.join (h : s.Cuts cs) (h' : s'.Cuts cs) : (s.join s').Cuts cs := by
  have hle := h.le
  refine ⟨?_, ?_, ?_⟩
  · show min s.start s'.start ≤ max s.stop s'.stop
    omega
  · show isBoundary cs (min s.start s'.start) = true
    rcases Nat.le_total s.start s'.start with hmin | hmin
    · rw [Nat.min_eq_left hmin]
      exact h.start
    · rw [Nat.min_eq_right hmin]
      exact h'.start
  · show isBoundary cs (max s.stop s'.stop) = true
    rcases Nat.le_total s.stop s'.stop with hmax | hmax
    · rw [Nat.max_eq_right hmax]
      exact h'.stop
    · rw [Nat.max_eq_left hmax]
      exact h.stop

/-- from the start of one span to the end of another that does not end before it -/
theorem Cuts.between (h : s.Cuts cs) (h' : s'.Cuts cs) (hle : s.start ≤ s'.stop) :
    (⟨s.start, s'.stop⟩ : Span).Cuts cs :=
  ⟨hle, h.start, h'.stop⟩

end Span

/-! ## parts -/

def Loc.parts (l : Loc) : List Span :=
  l.selector.toList ++ l.dot.toList ++ l.opening.toList ++ l.closing.toList ++ l.operator.toList

namespace Node

variable {t : SyntaxTree}

def unaryOperators : List String := ["!", "~", "+@", "-@"]

/-- an access by index or a unary operator, whose parts stand in no order of their own -/
def isUnorderedName (name : String) : Bool := name == "[]" || unaryOperators.contains name

def isUnordered (n : Node t) : Bool := n.methodName?.any isUnorderedName

def callParts (n : Node t) : List Span :=
  (n.receiver?.map span).toList ++ n.loc.dot.toList ++ n.loc.selector.toList ++
    n.loc.opening.toList ++ n.arguments.map span ++ n.loc.closing.toList

/-- the parts of a block in the order in which they are written: its call, its parameters and its
body, with the tokens that open and close it -/
def blockParts (n : Node t) : List Span :=
  ((n.childNode? 0).map span).toList ++ n.loc.opening.toList ++ ((n.childNode? 1).map span).toList ++
    ((n.childNode? 2).map span).toList ++ n.loc.closing.toList

def Orders (n : Node t) (ss : List Span) : Prop :=
  (∀ s ∈ ss, n.span.contains s = true) ∧ Span.InOrder ss

/-- the span cuts the text and stands inside the node -/
structure Encloses (n : Node t) (s : Span) : Prop where
  contains : n.span.contains s = true
  cuts : s.Cuts t.source.toList

end Node

/-- what the reader of a text sees to -/
structure SyntaxTree.WellFormed (t : SyntaxTree) : Prop where
  /-- nodes lie inside their parents, know them, and share no text with their siblings -/
  placed : t.violation? = none
  cuts : ∀ n : Node t, n.span.Cuts t.source.toList
  cuts_part : ∀ n : Node t, ∀ s ∈ n.loc.parts, s.Cuts t.source.toList ∧ s.start < s.stop
  orders_call : ∀ n : Node t, n.isCall = true → n.isUnordered = false → n.Orders n.callParts
  orders_block : ∀ n : Node t, n.kind = .block → n.Orders n.blockParts
  call_pos : ∀ n : Node t, n.isCall = true → n.span.start < n.span.stop
  operand_pos : ∀ n : Node t, n.kind = .conjunction →
    ∀ m ∈ n.childNodes, m.span.start < m.span.stop

/-! ## trees without violations -/

section
variable {t : SyntaxTree} {n m : Node t}

theorem SyntaxTree.mem_allNodes (n : Node t) : n ∈ t.allNodes :=
  List.mem_map.2 ⟨⟨n.index, n.index_lt⟩, List.mem_finRange _, rfl⟩

/-- nodes in the order of their spans of which no two neighbours overlap stand apart -/
theorem Node.overlapIn?_eq_none_iff {ns : List (Node t)}
    (hle : ∀ n : Node t, n.span.start ≤ n.span.stop)
    (hsorted : ns.Pairwise fun m k => m.span.notAfter k.span = true) :
    Node.overlapIn? ns = none ↔ ns.Pairwise fun m k => m.span.Apart k.span := by
  induction ns with
  | nil => exact iff_of_true rfl List.Pairwise.nil
  | cons m ns ih =>
    cases ns with
    | nil => exact iff_of_true rfl (List.pairwise_singleton _ _)
    | cons k ns =>
      obtain ⟨hfirst, hrest⟩ := List.pairwise_cons.1 hsorted
      have hk := Span.notAfter_iff.1 (hfirst k List.mem_cons_self)
      have hm := hle m
      have hkle := hle k
      rw [Node.overlapIn?, List.pairwise_cons, ← ih hrest]
      constructor
      · intro h
        split at h
        · cases h
        refine ⟨fun j hj => ?_, h⟩
        -- what comes behind the neighbour does not start before it
        rcases List.mem_cons.1 hj with rfl | hj
        · exact .inl (by omega)
        · have hj' := Span.notAfter_iff.1 ((List.pairwise_cons.1 hrest).1 j hj)
          exact .inl (by omega)
      · rintro ⟨hapart, h⟩
        have hbeside : m.span.stop ≤ k.span.start ∨ k.span.stop ≤ m.span.start :=
          hapart k List.mem_cons_self
        rw [if_neg (by omega)]
        exact h

theorem Node.sorted_childNodesByOffset (n : Node t) :
    n.childNodesByOffset.Pairwise fun m k => m.span.notAfter k.span = true := by
  have htrans : ∀ m k j : Node t, m.span.notAfter k.span = true → k.span.notAfter j.span = true →
      m.span.notAfter j.span = true := fun m k j hm hk => Span.notAfter_trans hm hk
  have htotal : ∀ m k : Node t, (m.span.notAfter k.span || k.span.notAfter m.span) = true := by
    intro m k
    rw [Bool.or_eq_true]
    by_cases h : m.span.notAfter k.span = true
    · exact Or.inl h
    · exact Or.inr (Span.notAfter_total h)
  exact List.pairwise_mergeSort htrans htotal n.childNodes

theorem Node.placeViolation?_eq_none_iff :
    n.placeViolation? m = none ↔ n.span.contains m.span = true ∧ m.parent? = some n := by
  unfold placeViolation?
  cases hcontains : n.span.contains m.span with
  | false => exact iff_of_false (fun h => nomatch h) fun h => nomatch h.1
  | true => by_cases hparent : m.parent? = some n <;> simp [hparent]

/-- of two children at different places, one ends before the other starts -/
theorem Node.apart_of_pairwise {k : Node t}
    (h : n.childNodes.Pairwise fun m k => m.span.Apart k.span) {i j : Nat} (hij : i < j)
    (hm : n.childNode? i = some m) (hk : n.childNode? j = some k) : m.span.Apart k.span := by
  obtain ⟨c, hc, hcm⟩ := Option.bind_eq_some_iff.1 hm
  obtain ⟨d, hd, hdk⟩ := Option.bind_eq_some_iff.1 hk
  obtain ⟨hi, rfl⟩ := List.getElem?_eq_some_iff.1 hc
  obtain ⟨hj, rfl⟩ := List.getElem?_eq_some_iff.1 hd
  exact List.pairwise_iff_getElem.1 (List.pairwise_filterMap.1 h) i j hi hj hij m hcm k hdk

/-- **What the search for violations finds out**: whether every node lies inside its parents and knows
them, and stands apart from its siblings, neighbours or not. -/
theorem SyntaxTree.violation?_eq_none_iff (hle : ∀ n : Node t, n.span.start ≤ n.span.stop) :
    t.violation? = none ↔ ∀ n : Node t,
      (∀ m ∈ n.childNodes, n.span.contains m.span = true ∧ m.parent? = some n) ∧
        n.childNodes.Pairwise fun m k => m.span.Apart k.span := by
  have hnode : ∀ n : Node t, n.violation? = none ↔
      (∀ m ∈ n.childNodes, n.span.contains m.span = true ∧ m.parent? = some n) ∧
        n.childNodes.Pairwise fun m k => m.span.Apart k.span := by
    intro n
    have hsorted : n.childNodesByOffset.Perm n.childNodes := List.mergeSort_perm _ _
    have hchildren : n.childNodes.findSome? n.placeViolation? = none ↔
        ∀ m ∈ n.childNodes, n.span.contains m.span = true ∧ m.parent? = some n := by
      rw [List.findSome?_eq_none_iff]
      exact forall₂_congr fun m _ => Node.placeViolation?_eq_none_iff
    rw [← hchildren, ← hsorted.pairwise_iff Span.Apart.symm,
      ← Node.overlapIn?_eq_none_iff hle n.sorted_childNodesByOffset, Node.violation?]
    cases n.childNodes.findSome? n.placeViolation? <;> simp
  rw [SyntaxTree.violation?, List.findSome?_eq_none_iff]
  exact ⟨fun h n => (hnode n).1 (h n (mem_allNodes n)), fun h n _ => (hnode n).2 (h n)⟩

end

namespace Node

variable {t : SyntaxTree} {n m : Node t} {s s' : Span}

/-! ## enclosed spans -/

theorem Encloses.le (h : n.Encloses s) :
    n.span.start ≤ s.start ∧ s.start ≤ s.stop ∧ s.stop ≤ n.span.stop := by
  obtain ⟨hstart, hstop⟩ := Span.contains_iff.1 h.contains
  exact ⟨hstart, h.cuts.le, hstop⟩

theorem Encloses.trans (hm : n.Encloses m.span) (h : m.Encloses s) : n.Encloses s :=
  ⟨Span.contains_trans hm.contains h.contains, h.cuts⟩

/-- from the start of one span to the end of another that does not end before it -/
theorem Encloses.between (h : n.Encloses s) (h' : n.Encloses s') (hle : s.start ≤ s'.stop) :
    n.Encloses ⟨s.start, s'.stop⟩ :=
  ⟨Span.contains_iff.2 ⟨h.le.1, h'.le.2.2⟩, h.cuts.between h'.cuts hle⟩

theorem Encloses.behind (h : n.Encloses s) (h' : n.Encloses s') (hle : s.stop ≤ s'.stop) :
    n.Encloses ⟨s.stop, s'.stop⟩ := by
  refine ⟨Span.contains_iff.2 ⟨?_, h'.le.2.2⟩, hle, h.cuts.stop, h'.cuts.stop⟩
  exact Nat.le_trans h.le.1 h.le.2.1

theorem Encloses.before (h : n.Encloses s) (h' : n.Encloses s') (hle : s.start ≤ s'.start) :
    n.Encloses ⟨s.start, s'.start⟩ := by
  refine ⟨Span.contains_iff.2 ⟨h.le.1, ?_⟩, hle, h.cuts.start, h'.cuts.start⟩
  exact Nat.le_trans h'.le.2.1 h'.le.2.2

theorem Encloses.upTo (h : n.Encloses s) (h' : n.Encloses s') : n.Encloses (s.upTo s') := by
  refine ⟨Span.contains_iff.2 ⟨h.le.1, ?_⟩, h.cuts.upTo h'.cuts⟩
  show max s'.stop s.start ≤ n.span.stop
  have hstart := h.le
  have hstop := h'.le
  omega

theorem Encloses.join (h : n.Encloses s) (h' : n.Encloses s') : n.Encloses (s.join s') := by
  have hle := h.le
  have hle' := h'.le
  refine ⟨Span.contains_iff.2 ⟨?_, ?_⟩, h.cuts.join h'.cuts⟩
  · show n.span.start ≤ min s.start s'.start
    omega
  · show max s.stop s'.stop ≤ n.span.stop
    omega

end Node

namespace SyntaxTree.WellFormed

variable {t : SyntaxTree} {n m k : Node t} {s s' : Span}

/-! ## children -/

theorem le (h : t.WellFormed) (n : Node t) : n.span.start ≤ n.span.stop := (h.cuts n).le

theorem placed_child (h : t.WellFormed) (hm : m ∈ n.childNodes) :
    n.span.contains m.span = true ∧ m.parent? = some n :=
  ((SyntaxTree.violation?_eq_none_iff h.le).1 h.placed n).1 m hm

theorem encloses_span (h : t.WellFormed) (n : Node t) : n.Encloses n.span :=
  ⟨Span.contains_refl _, h.cuts n⟩

theorem encloses_child (h : t.WellFormed) (hm : m ∈ n.childNodes) : n.Encloses m.span :=
  ⟨(h.placed_child hm).1, h.cuts m⟩

/-- what stands below a node stands inside it -/
theorem encloses_covered (h : t.WellFormed) (hm : n.Covers m) : n.Encloses m.span := by
  induction hm with
  | self n => exact h.encloses_span n
  | through hm _ ih => exact (h.encloses_child hm).trans ih

/-- Every node has a text. -/
theorem exists_source (h : t.WellFormed) (n : Node t) : ∃ text, n.source? = some text := by
  have hcuts := h.cuts n
  have hslice := Text.isSome_slice_iff.2 ⟨hcuts.le, hcuts.start, hcuts.stop⟩
  obtain ⟨cs, hcs⟩ := Option.isSome_iff_exists.1 hslice
  exact ⟨String.ofList cs, by rw [Node.source?, hcs]; rfl⟩

theorem exists_text (h : t.WellFormed) (n : Node t) : ∃ text, n.text = .ok text := by
  obtain ⟨text, htext⟩ := h.exists_source n
  exact ⟨text, by rw [Node.text, htext]⟩

/-! ## siblings -/

theorem pairwise_childNodes (h : t.WellFormed) (n : Node t) :
    n.childNodes.Pairwise fun m k => m.span.Apart k.span :=
  ((SyntaxTree.violation?_eq_none_iff h.le).1 h.placed n).2

theorem apart_of_childNode? (h : t.WellFormed) {i j : Nat} (hij : i < j)
    (hm : n.childNode? i = some m) (hk : n.childNode? j = some k) : m.span.Apart k.span :=
  Node.apart_of_pairwise (h.pairwise_childNodes n) hij hm hk

end SyntaxTree.WellFormed

/-! ## the parts of calls and blocks -/

theorem Loc.mem_parts {l : Loc} {s : Span} : s ∈ l.parts ↔
    l.selector = some s ∨ l.dot = some s ∨ l.opening = some s ∨ l.closing = some s ∨
      l.operator = some s := by
  simp only [parts, List.mem_append, Option.mem_toList, or_assoc]

namespace Node.Orders

variable {t : SyntaxTree} {n m : Node t} {s s' : Span}

theorem mem_toList {s : Span} {o : Option Span} (h : o = some s) : s ∈ o.toList :=
  Option.mem_toList.2 h

section
variable (h : n.Orders n.callParts)
include h

theorem receiver_le_dot (hm : n.receiver? = some m) (hs : n.loc.dot = some s) :
    m.span.stop ≤ s.start := by
  have hparts := h.2.front.front.front.front
  exact hparts.stop_le_start (mem_toList (by rw [hm]; rfl)) (mem_toList hs)

theorem receiver_le_selector (hm : n.receiver? = some m) (hs : n.loc.selector = some s) :
    m.span.stop ≤ s.start := by
  have hparts := h.2.front.front.front
  exact hparts.stop_le_start (List.mem_append_left _ (mem_toList (by rw [hm]; rfl)))
    (mem_toList hs)

theorem dot_le_selector (hs : n.loc.dot = some s) (hs' : n.loc.selector = some s') :
    s.stop ≤ s'.start := by
  have hparts := h.2.front.front.front
  exact hparts.stop_le_start (List.mem_append_right _ (mem_toList hs)) (mem_toList hs')

theorem selector_le_opening (hs : n.loc.selector = some s) (hs' : n.loc.opening = some s') :
    s.stop ≤ s'.start := by
  have hparts := h.2.front.front
  exact hparts.stop_le_start (List.mem_append_right _ (mem_toList hs)) (mem_toList hs')

theorem selector_le_argument (hs : n.loc.selector = some s) (hm : m ∈ n.arguments) :
    s.stop ≤ m.span.start := by
  have hparts := h.2.front
  exact hparts.stop_le_start
    (List.mem_append_left _ (List.mem_append_right _ (mem_toList hs)))
    (List.mem_map_of_mem hm)

theorem pairwise_arguments :
    n.arguments.Pairwise fun m k => m.span.stop ≤ k.span.start := by
  have hparts := (List.pairwise_append.1 h.2.front).2.1
  exact List.pairwise_map.1 hparts

end

section
variable (h : n.Orders n.blockParts)
include h

/-- the call of a block ends before its parameters -/
theorem call_le_parameters (hm : n.childNode? 0 = some m) {k : Node t}
    (hk : n.childNode? 1 = some k) : m.span.stop ≤ k.span.start := by
  have hparts := h.2.front.front
  refine hparts.stop_le_start (List.mem_append_left _ (mem_toList ?_)) (mem_toList ?_)
  · rw [hm]
    rfl
  · rw [hk]
    rfl

theorem parameters_le_body (hm : n.childNode? 1 = some m) {k : Node t}
    (hk : n.childNode? 2 = some k) : m.span.stop ≤ k.span.start := by
  have hparts := h.2.front
  refine hparts.stop_le_start (List.mem_append_right _ (mem_toList ?_)) (mem_toList ?_)
  · rw [hm]
    rfl
  · rw [hk]
    rfl

end

end Node.Orders

namespace SyntaxTree.WellFormed

variable {t : SyntaxTree} {n m : Node t} {s s' : Span}

theorem orders_of_methodName? (h : t.WellFormed) (hcall : n.isCall = true) {name : String}
    (hname : n.methodName? = some name) (hordered : Node.isUnorderedName name = false) :
    n.Orders n.callParts := by
  refine h.orders_call n hcall ?_
  rw [Node.isUnordered, hname]
  exact hordered

theorem encloses_part (h : t.WellFormed) {ss : List Span} (hn : n.Orders ss) (hs : s ∈ ss)
    (hpart : s ∈ n.loc.parts) : n.Encloses s :=
  ⟨hn.1 s hs, (h.cuts_part n s hpart).1⟩

theorem encloses_selector (h : t.WellFormed) (hn : n.Orders n.callParts)
    (hs : n.loc.selector = some s) : n.Encloses s :=
  h.encloses_part hn (by simp [Node.callParts, hs]) (Loc.mem_parts.2 (Or.inl hs))

theorem encloses_dot (h : t.WellFormed) (hn : n.Orders n.callParts)
    (hs : n.loc.dot = some s) : n.Encloses s :=
  h.encloses_part hn (by simp [Node.callParts, hs]) (Loc.mem_parts.2 (Or.inr (Or.inl hs)))

theorem encloses_opening (h : t.WellFormed) (hn : n.Orders n.callParts)
    (hs : n.loc.opening = some s) : n.Encloses s :=
  h.encloses_part hn (by simp [Node.callParts, hs]) (Loc.mem_parts.2 (Or.inr (Or.inr (Or.inl hs))))

theorem mem_parts_closing (hs : n.loc.closing = some s) : s ∈ n.loc.parts :=
  Loc.mem_parts.2 (Or.inr (Or.inr (Or.inr (Or.inl hs))))

theorem encloses_closing (h : t.WellFormed) (hn : n.Orders n.callParts)
    (hs : n.loc.closing = some s) : n.Encloses s :=
  h.encloses_part hn (by simp [Node.callParts, hs]) (mem_parts_closing hs)

theorem encloses_blockClosing (h : t.WellFormed) (hn : n.Orders n.blockParts)
    (hs : n.loc.closing = some s) : n.Encloses s :=
  h.encloses_part hn (by simp [Node.blockParts, hs]) (mem_parts_closing hs)

theorem selector_pos (h : t.WellFormed) (hs : n.loc.selector = some s) : s.start < s.stop :=
  (h.cuts_part n s (Loc.mem_parts.2 (Or.inl hs))).2

theorem dot_pos (h : t.WellFormed) (hs : n.loc.dot = some s) : s.start < s.stop :=
  (h.cuts_part n s (Loc.mem_parts.2 (Or.inr (Or.inl hs)))).2

end SyntaxTree.WellFormed

/-! ## deciding -/

section
variable {t : SyntaxTree}

/-- a way to say that a tree is well-formed that no sorting is needed for -/
theorem SyntaxTree.wellFormed_iff : t.WellFormed ↔
    (∀ n : Node t, n.childNodes.findSome? n.placeViolation? = none) ∧
      (∀ n : Node t, n.childNodes.Pairwise fun m k => m.span.Apart k.span) ∧
      (∀ n : Node t, n.span.Cuts t.source.toList) ∧
      (∀ n : Node t, ∀ s ∈ n.loc.parts, s.Cuts t.source.toList ∧ s.start < s.stop) ∧
      (∀ n : Node t, n.isCall = true → n.isUnordered = false → n.Orders n.callParts) ∧
      (∀ n : Node t, n.kind = .block → n.Orders n.blockParts) ∧
      (∀ n : Node t, n.isCall = true → n.span.start < n.span.stop) ∧
      ∀ n : Node t, n.kind = .conjunction → ∀ m ∈ n.childNodes, m.span.start < m.span.stop := by
  have hchildren : ∀ n : Node t, n.childNodes.findSome? n.placeViolation? = none ↔
      ∀ m ∈ n.childNodes, n.span.contains m.span = true ∧ m.parent? = some n := fun n => by
    rw [List.findSome?_eq_none_iff]
    exact forall₂_congr fun m _ => Node.placeViolation?_eq_none_iff
  constructor
  · intro h
    exact ⟨fun n => (hchildren n).2 fun m hm => h.placed_child hm, h.pairwise_childNodes, h.cuts,
      h.cuts_part, h.orders_call, h.orders_block, h.call_pos, h.operand_pos⟩
  · rintro ⟨hplaced, hapart, hcuts, hpart, hcall, hblock, hpos, hoperand⟩
    refine ⟨?_, hcuts, hpart, hcall, hblock, hpos, hoperand⟩
    rw [SyntaxTree.violation?_eq_none_iff fun n => (hcuts n).le]
    exact fun n => ⟨(hchildren n).1 (hplaced n), hapart n⟩

instance (s s' : Span) : Decidable (s.Apart s') := inferInstanceAs (Decidable (_ ∨ _))

instance (n : Node t) (ss : List Span) : Decidable (n.Orders ss) :=
  inferInstanceAs (Decidable (_ ∧ _))

instance (p : Node t → Prop) [DecidablePred p] : Decidable (∀ n, p n) :=
  decidable_of_iff (∀ n ∈ t.allNodes, p n)
    ⟨fun h n => h n (SyntaxTree.mem_allNodes n), fun h n _ => h n⟩

instance (t : SyntaxTree) : Decidable t.WellFormed := decidable_of_iff _ SyntaxTree.wellFormed_iff.symm

end

end RubyLint
