import RubyLint.Syntax.Tree
import RubyLint.Text.Bytes

/-!
# Nodes of a tree

A `Node t` is a place in the table of the tree `t`.  Its children are nodes and terminal values,
in the layout that node patterns are written for:

    foo.bar(1)      (send (lvar :foo) :bar (int 1))
    puts            (send nil :puts)
    [1].map { |x| } (block (send (array (int 1)) :map) (args (arg :x)) nil)

Node children have a smaller index (`Node.index_lt_of_mem`) and the parent has a larger one
(`Node.lt_of_parent?`), which is why walks down and up end.
-/

namespace RubyLint

/-- A node of the tree `t`, by its place in the table. -/
@[ext] structure Node (t : SyntaxTree) where
  index : Nat
  index_lt : index < t.nodes.size
deriving DecidableEq

inductive NodeChild (t : SyntaxTree) where
  | node (n : Node t)
  | value (v : Value)
deriving DecidableEq

namespace NodeChild

variable {t : SyntaxTree}

def asNode? : NodeChild t → Option (Node t)
  | .node n => some n
  | .value _ => none

def asValue? : NodeChild t → Option Value
  | .node _ => none
  | .value v => some v

/-- The mark of an absent child. -/
def isNil : NodeChild t → Bool
  | .value .nil => true
  | _ => false

def asSym? (c : NodeChild t) : Option String := c.asValue?.bind Value.asSym?
def asStr? (c : NodeChild t) : Option String := c.asValue?.bind Value.asStr?

end NodeChild

def SyntaxTree.rootNode (t : SyntaxTree) : Node t := ⟨t.root, t.root_lt⟩

/-- The nodes in the order of the table. -/
def SyntaxTree.allNodes (t : SyntaxTree) : List (Node t) :=
  (List.finRange t.nodes.size).map fun i => ⟨i.1, i.2⟩

namespace Node

variable {t : SyntaxTree}

def data (n : Node t) : NodeData := getElem t.nodes n.index n.index_lt

def kind (n : Node t) : Kind := n.data.kind
def span (n : Node t) : Span := n.data.span
def loc (n : Node t) : Loc := n.data.loc

/-- A stored child of the node as a child of the tree. -/
def childOf (n : Node t) (c : Child) (h : c ∈ n.data.children) : NodeChild t :=
  match c, h with
  | .node i, h => .node ⟨i, Nat.lt_trans
      (t.links_lt n.index n.index_lt i (NodeData.mem_links.2 h)) n.index_lt⟩
  | .value v, _ => .value v

def children (n : Node t) : List (NodeChild t) :=
  n.data.children.pmap n.childOf fun _ h => h

/-- The children that are nodes, in order. -/
def childNodes (n : Node t) : List (Node t) := n.children.filterMap NodeChild.asNode?

theorem index_lt_of_mem {n m : Node t} (h : NodeChild.node m ∈ n.children) : m.index < n.index := by
  obtain ⟨c, hc, heq⟩ := List.mem_pmap.1 h
  cases c with
  | node i =>
    simp only [childOf, NodeChild.node.injEq] at heq
    subst heq
    exact t.links_lt n.index n.index_lt i (NodeData.mem_links.2 hc)
  | value v => simp [childOf] at heq

theorem mem_childNodes {n m : Node t} : m ∈ n.childNodes ↔ NodeChild.node m ∈ n.children := by
  simp only [childNodes, List.mem_filterMap]
  constructor
  · rintro ⟨c, hc, h⟩
    cases c with
    | node k => simp [NodeChild.asNode?] at h; exact h ▸ hc
    | value v => simp [NodeChild.asNode?] at h
  · exact fun h => ⟨_, h, rfl⟩

theorem childNodes_lt {n m : Node t} (h : m ∈ n.childNodes) : m.index < n.index :=
  index_lt_of_mem (mem_childNodes.1 h)

theorem mem_links_iff {n m : Node t} : m.index ∈ n.data.links ↔ m ∈ n.childNodes := by
  rw [mem_childNodes, NodeData.mem_links]
  constructor
  · exact fun h => List.mem_pmap.2 ⟨_, h, rfl⟩
  · intro h
    obtain ⟨c, hc, heq⟩ := List.mem_pmap.1 h
    cases c with
    | node i => simp only [childOf, NodeChild.node.injEq] at heq; subst heq; exact hc
    | value v => simp [childOf] at heq

/-- The number of children, terminal values included. -/
def childCount (n : Node t) : Nat := n.children.length

def child? (n : Node t) (i : Nat) : Option (NodeChild t) := n.children[i]?

/-- The child at a position, if it is a node. -/
def childNode? (n : Node t) (i : Nat) : Option (Node t) := (n.child? i).bind NodeChild.asNode?

theorem mem_childNodes_of_childNode? {n m : Node t} {i : Nat} (h : n.childNode? i = some m) :
    m ∈ n.childNodes := by
  obtain ⟨c, hc, hm⟩ := Option.bind_eq_some_iff.1 h
  cases c with
  | node k =>
    obtain rfl : k = m := by simpa [NodeChild.asNode?] using hm
    exact mem_childNodes.2 (List.mem_of_getElem? hc)
  | value v => simp [NodeChild.asNode?] at hm

theorem childNode?_lt {n m : Node t} {i : Nat} (h : n.childNode? i = some m) :
    m.index < n.index :=
  childNodes_lt (mem_childNodes_of_childNode? h)

/-- The text that the node covers; none if its span does not cut the text between characters. -/
def source? (n : Node t) : Option String :=
  (Text.slice t.source.toList n.span.start n.span.stop).map String.ofList

/-! ## upwards -/

/-- The last node that has this one as a child. -/
def parent? (n : Node t) : Option (Node t) :=
  match h : t.parents[n.index]? with
  | some (some p) =>
    some ⟨p, (parentLinks_bounds t.toArena (by rw [← t.parents_eq]; exact h)).1⟩
  | _ => none

theorem mem_childNodes_of_parent? {n p : Node t} (h : n.parent? = some p) :
    n ∈ p.childNodes := by
  unfold parent? at h
  split at h
  · next q hq =>
    obtain ⟨hp, hm, _⟩ := parentLinks_bounds t.toArena (by rw [← t.parents_eq]; exact hq)
    simp only [Option.some.injEq] at h
    subst h
    exact mem_links_iff.1 hm
  · simp at h

theorem lt_of_parent? {n p : Node t} (h : n.parent? = some p) : n.index < p.index :=
  childNodes_lt (mem_childNodes_of_parent? h)

def ancestors (n : Node t) : List (Node t) :=
  match _h : n.parent? with
  | some p => p :: p.ancestors
  | none => []
termination_by t.nodes.size - n.index
decreasing_by
  have := lt_of_parent? _h
  have := p.index_lt
  omega

/-! ## downwards -/

def total : List Nat → Nat
  | [] => 0
  | k :: ks => k + total ks

theorem total_append (ks ls : List Nat) : total (ks ++ ls) = total ks + total ls := by
  induction ks with
  | nil => simp [total]
  | cons k ks ih => simp [total, ih, Nat.add_assoc]

/-- The number of nodes at and below this one, shared nodes counted once for each way to them. -/
def weight (n : Node t) : Nat := 1 + total (n.childNodes.attach.map fun c => c.1.weight)
termination_by n.index
decreasing_by exact childNodes_lt c.2

theorem weight_eq (n : Node t) : n.weight = 1 + total (n.childNodes.map weight) := by
  rw [weight, List.attach_map_val (l := n.childNodes) (f := weight)]

/-- The nodes on the stack and below them, in pre-order. -/
def walk (stack : List (Node t)) : List (Node t) :=
  match stack with
  | [] => []
  | n :: rest => n :: walk (n.childNodes ++ rest)
termination_by total (stack.map weight)
decreasing_by
  rw [List.map_append, total_append, List.map_cons, total, weight_eq n]
  omega

/-- This node and the nodes below it, in pre-order. -/
def descendants (n : Node t) : List (Node t) := walk [n]

/-! ## calls -/

def isCall (n : Node t) : Bool := n.kind.isCall
def isSafeNavigation (n : Node t) : Bool := n.kind == .safeSend

/-- The receiver of a call; none for a call on the current object. -/
def receiver? (n : Node t) : Option (Node t) := if n.isCall then n.childNode? 0 else none

/-- The method a call names, also that of the call of a block. -/
def methodName? (n : Node t) : Option String :=
  match n.kind with
  | .send | .safeSend => (n.child? 1).bind NodeChild.asSym?
  | .block =>
    match _h : n.childNode? 0 with
    | some call => call.methodName?
    | none => none
  | _ => none
termination_by n.index
decreasing_by exact childNode?_lt _h

def isMethod (n : Node t) (name : String) : Bool := n.methodName? == some name

def arguments (n : Node t) : List (Node t) :=
  if n.isCall then (n.children.drop 2).filterMap NodeChild.asNode? else []

def firstArgument? (n : Node t) : Option (Node t) := if n.isCall then n.childNode? 2 else none

def hasArguments (n : Node t) : Bool := n.isCall && decide (2 < n.childCount)

/-- The block that this call is the call of. -/
def blockNode? (n : Node t) : Option (Node t) :=
  match n.parent? with
  | some p => if p.kind = .block ∧ p.childNode? 0 = some n then some p else none
  | none => none

/-- The call of a block. -/
def sendNode? (n : Node t) : Option (Node t) := if n.kind = .block then n.childNode? 0 else none

/-! ## literals -/

/-- The terminal value in front, which is the content of a literal or the name of a variable. -/
def value? (n : Node t) : Option Value := (n.child? 0).bind NodeChild.asValue?

def strValue? (n : Node t) : Option String :=
  if n.kind = .str then n.value?.bind Value.asStr? else none

def symValue? (n : Node t) : Option String :=
  if n.kind = .sym then n.value?.bind Value.asSym? else none

def intValue? (n : Node t) : Option Int :=
  match n.kind, n.value? with
  | .int, some (.int i) => some i
  | _, _ => none

def isBasicLiteral (n : Node t) : Bool := n.kind.isBasicLiteral
def isLiteral (n : Node t) : Bool := n.kind.isLiteral
def isVariable (n : Node t) : Bool := n.kind.isVariable

/-- A literal whose every element is a literal again: no variable, splat, call or interpolation
stands anywhere inside. -/
def isRecursiveBasicLiteral (n : Node t) : Bool :=
  match n.kind with
  | .str | .sym | .int | .float | .nilLiteral | .trueLiteral | .falseLiteral => true
  | .regexp => n.childNodes.all fun part => part.kind == .str || part.kind == .regexpOptions
  | .inclusiveRange | .exclusiveRange | .array | .hash | .pair | .sequence =>
    n.childNodes.attach.all fun part => part.1.isRecursiveBasicLiteral
  | .interpolatedStr | .interpolatedSym => n.childNodes.all fun part => part.kind == .str
  | _ => false
termination_by n.index
decreasing_by exact childNodes_lt part.2

/-- The methods that change their receiver although their names do not say so. -/
def destructiveMethods : List String :=
  ["<<", "[]=", "clear", "concat", "delete", "delete_if", "fill", "insert", "keep_if", "merge!",
    "pop", "prepend", "push", "replace", "shift", "store", "unshift", "update"]

/-- The method changes its receiver. -/
def isDestructive (name : String) : Bool :=
  name.toList.getLast? == some '!' || destructiveMethods.contains name

/-- The node is the receiver, directly or along a chain of calls, of a call that changes it. -/
def isMutatedByChain (n : Node t) : Bool :=
  match _h : n.parent? with
  | some p =>
    if p.isCall && p.receiver? == some n then
      p.methodName?.any isDestructive || p.isMutatedByChain
    else false
  | none => false
termination_by t.nodes.size - n.index
decreasing_by
  have := lt_of_parent? _h
  have := p.index_lt
  omega

/-! ## text form -/

/-- The node in parentheses: its kind, then its children. -/
def sexp (n : Node t) : String :=
  let parts := n.children.attach.map fun
    | ⟨.node m, _h⟩ => " " ++ m.sexp
    | ⟨.value v, _⟩ => " " ++ v.text
  "(" ++ n.kind.name ++ String.join parts ++ ")"
termination_by n.index
decreasing_by exact index_lt_of_mem _h

end Node

/-- Every node reachable from the root, in pre-order. -/
def SyntaxTree.preorder (t : SyntaxTree) : List (Node t) := t.rootNode.descendants

end RubyLint
