import RubyLint.Span
import RubyLint.Syntax.Kind
import RubyLint.Syntax.Value

/-!
# Syntax trees

The nodes of a tree stand in a table (`Arena`) in which every node comes after its node children.
A `SyntaxTree` is such a table with the text it describes and a root.  A node may be a child of
several others; `parentLinks` gives each node the last of them.

Main facts:
* `Arena.push` keeps the order, so that recursion on the index of a node ends;
* `parentLinks_bounds`: the parent of a node comes after it.
-/

namespace RubyLint

/-- A stored child: the index of a node, or a terminal value. -/
inductive Child where
  | node (index : Nat)
  | value (v : Value)
deriving DecidableEq, Inhabited

/-- The named parts of a node's text. -/
structure Loc where
  /-- the method name of a call, or the brackets of an index call -/
  selector : Option Span
  /-- the dot of a call, in any of its spellings -/
  dot : Option Span
  /-- the token that opens the node -/
  opening : Option Span
  /-- the token that closes the node -/
  closing : Option Span
  /-- the operator of a binary expression or an assignment -/
  operator : Option Span
deriving DecidableEq, Inhabited

def Loc.none : Loc := ⟨.none, .none, .none, .none, .none⟩

structure NodeData where
  kind : Kind
  span : Span
  children : List Child
  loc : Loc
deriving Inhabited

def NodeData.links (d : NodeData) : List Nat :=
  d.children.filterMap fun
    | .node index => some index
    | .value _ => none

theorem NodeData.mem_links {d : NodeData} {i : Nat} : i ∈ d.links ↔ Child.node i ∈ d.children := by
  simp only [links, List.mem_filterMap]
  constructor
  · rintro ⟨c, hc, h⟩
    cases c with
    | node j => simp at h; exact h ▸ hc
    | value v => simp at h
  · exact fun h => ⟨_, h, rfl⟩

/-- A table of nodes in which children come first. -/
structure Arena where
  nodes : Array NodeData
  links_lt : ∀ i (h : i < nodes.size), ∀ j ∈ nodes[i].links, j < i

namespace Arena

def empty : Arena := ⟨#[], fun i h => absurd h (by simp)⟩

def size (a : Arena) : Nat := a.nodes.size

/-- Adds a node whose node children are already there. -/
def push (a : Arena) (d : NodeData) (h : ∀ j ∈ d.links, j < a.size) : Arena where
  nodes := a.nodes.push d
  links_lt := by
    intro i hi j hj
    rw [Array.size_push] at hi
    by_cases hlt : i < a.nodes.size
    · rw [Array.getElem_push_lt hlt] at hj
      exact a.links_lt i hlt j hj
    · obtain rfl : i = a.nodes.size := by omega
      rw [Array.getElem_push_eq] at hj
      exact h j hj

theorem size_push (a : Arena) (d : NodeData) (h) : (a.push d h).size = a.size + 1 := by
  simp [push, size]

/-- Adds a node, unless one of its node children is missing. -/
def push? (a : Arena) (d : NodeData) : Option Arena :=
  if h : ∀ j ∈ d.links, j < a.size then some (a.push d h) else none

/-- The table of the given nodes, unless a node comes before one of its children. -/
def ofList? (ds : List NodeData) : Option Arena := ds.foldlM push? empty

end Arena

/-! ## parents -/

/-- Records `parent` as the parent of each of `links`. -/
def linkAll (parent : Nat) (links : List Nat) (parents : Array (Option Nat)) :
    Array (Option Nat) :=
  links.foldl (fun ps child => ps.setIfInBounds child (some parent)) parents

/-- Records the parents of the children of the first `n` nodes, in the order of the table. -/
def linkFirst (nodes : Array NodeData) : Nat → Array (Option Nat) → Array (Option Nat)
  | 0, parents => parents
  | n + 1, parents =>
    match nodes[n]? with
    | some d => linkAll n d.links (linkFirst nodes n parents)
    | none => linkFirst nodes n parents

/-- The parent of each node: the last node that has it as a child. -/
def parentLinks (nodes : Array NodeData) : Array (Option Nat) :=
  linkFirst nodes nodes.size (Array.replicate nodes.size none)

theorem size_linkAll (parent : Nat) (links : List Nat) (parents : Array (Option Nat)) :
    (linkAll parent links parents).size = parents.size := by
  induction links generalizing parents with
  | nil => rfl
  | cons j links ih => simp only [linkAll, List.foldl_cons] at *; rw [ih]; simp

theorem getElem?_linkAll (parent : Nat) (links : List Nat) (parents : Array (Option Nat))
    (i : Nat) : (linkAll parent links parents)[i]? =
      if i ∈ links ∧ i < parents.size then some (some parent) else parents[i]? := by
  induction links generalizing parents with
  | nil => simp [linkAll]
  | cons j links ih =>
    have step : linkAll parent (j :: links) parents =
        linkAll parent links (parents.setIfInBounds j (some parent)) := rfl
    rw [step, ih]
    simp only [Array.size_setIfInBounds, List.mem_cons]
    by_cases hi : i ∈ links <;> by_cases hlt : i < parents.size <;> by_cases hij : i = j <;>
      simp_all [eq_comm]

theorem size_linkFirst (nodes : Array NodeData) (n : Nat) (parents : Array (Option Nat)) :
    (linkFirst nodes n parents).size = parents.size := by
  induction n with
  | zero => rfl
  | succ n ih => unfold linkFirst; split <;> simp [size_linkAll, ih]

/-- Only a node of the table that has `i` as a child is recorded as its parent. -/
theorem mem_links_of_linkFirst {nodes : Array NodeData} {n : Nat} {parents : Array (Option Nat)}
    {i p : Nat} (h0 : ∀ q, parents[i]? ≠ some (some q))
    (h : (linkFirst nodes n parents)[i]? = some (some p)) :
    ∃ d, nodes[p]? = some d ∧ i ∈ d.links ∧ p < n := by
  induction n with
  | zero => exact absurd h (h0 p)
  | succ n ih =>
    unfold linkFirst at h
    split at h
    · next d hd =>
      rw [getElem?_linkAll] at h
      split at h
      · next hm =>
        obtain rfl : n = p := by simpa using h
        exact ⟨d, hd, hm.1, by omega⟩
      · obtain ⟨d', h1, h2, h3⟩ := ih h
        exact ⟨d', h1, h2, by omega⟩
    · obtain ⟨d', h1, h2, h3⟩ := ih h
      exact ⟨d', h1, h2, by omega⟩

/-- A parent is a node of the table, has the node as a child, and comes after it. -/
theorem parentLinks_bounds (a : Arena) {i p : Nat}
    (h : (parentLinks a.nodes)[i]? = some (some p)) :
    ∃ hp : p < a.nodes.size, i ∈ a.nodes[p].links ∧ i < p := by
  obtain ⟨d, hd, hi, hp⟩ := mem_links_of_linkFirst (by
    intro q; rw [Array.getElem?_replicate]; split <;> simp) h
  refine ⟨hp, ?_, ?_⟩
  · rw [Array.getElem?_eq_getElem hp] at hd; simp at hd; rw [hd]; exact hi
  · rw [Array.getElem?_eq_getElem hp] at hd; simp at hd
    exact a.links_lt p hp i (hd ▸ hi)

/-! ## trees -/

/-- A text with the table of its nodes and a root. -/
structure SyntaxTree extends Arena where
  source : String
  root : Nat
  root_lt : root < nodes.size
  parents : Array (Option Nat)
  parents_eq : parents = parentLinks nodes

def Arena.finish (a : Arena) (root : Nat) (h : root < a.size) (source : String) : SyntaxTree :=
  { a with source, root, root_lt := h, parents := parentLinks a.nodes, parents_eq := rfl }

/-! ## terms -/

/-- A tree by itself, in which no node is shared. -/
inductive Term where
  | value (v : Value)
  | node (kind : Kind) (span : Span) (loc : Loc) (children : List Term)

def Term.span? : Term → Option Span
  | .node _ span _ _ => some span
  | .value _ => none

mutual

/-- Adds the nodes of a term, children first and left to right. -/
def Arena.add (a : Arena) : Term → { r : Arena × Child //
    a.size ≤ r.1.size ∧ ∀ i, r.2 = .node i → i < r.1.size }
  | .value v => ⟨(a, .value v), Nat.le_refl _, by simp⟩
  | .node kind span loc children =>
    let ⟨(b, links), hsize, hlinks⟩ := a.addAll children
    let d : NodeData := { kind, span, children := links, loc }
    have hd : ∀ j ∈ d.links, j < b.size := fun j hj => hlinks j (NodeData.mem_links.1 hj)
    ⟨(b.push d hd, .node b.size), by rw [Arena.size_push]; exact Nat.le_succ_of_le hsize, by
      intro i hi; cases hi; rw [Arena.size_push]; omega⟩

def Arena.addAll (a : Arena) : List Term → { r : Arena × List Child //
    a.size ≤ r.1.size ∧ ∀ i, Child.node i ∈ r.2 → i < r.1.size }
  | [] => ⟨(a, []), Nat.le_refl _, by simp⟩
  | t :: ts =>
    let ⟨(b, c), hb, hc⟩ := a.add t
    let ⟨(b', cs), hb', hcs⟩ := b.addAll ts
    ⟨(b', c :: cs), Nat.le_trans hb hb', by
      intro i hi
      rcases List.mem_cons.1 hi with h | h
      · exact Nat.lt_of_lt_of_le (hc i h.symm) hb'
      · exact hcs i h⟩

end

/-- The tree of a node with the given parts. -/
def SyntaxTree.ofNode (source : String) (kind : Kind) (span : Span) (loc : Loc)
    (children : List Term) : SyntaxTree :=
  let ⟨(b, links), _, hlinks⟩ := Arena.empty.addAll children
  let d : NodeData := { kind, span, children := links, loc }
  have hd : ∀ j ∈ d.links, j < b.size := fun j hj => hlinks j (NodeData.mem_links.1 hj)
  (b.push d hd).finish b.size (by rw [Arena.size_push]; omega) source

/-! ## texts without a tree -/

/-- Why a text has no tree: lines and columns count from one. -/
inductive ParseError where
  | malformed
  | located (line column : Nat) (message : String)
deriving DecidableEq

namespace ParseError

def message : ParseError → String
  | .malformed => "syntax error"
  | .located line column text => s!"syntax error at line {line}, column {column}: {text}"

end ParseError

end RubyLint
