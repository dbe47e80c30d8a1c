import Mathlib.Data.List.Pairwise
import RubyLint.Proofs.Syntax.Placement
import RubyLint.Ruby.Source

/-!
# Sound concrete trees

What is assumed of the concrete tree of a text.  Its nodes have their places (`Concrete.IsLaidOut`): the
children of a node lie inside it, one behind the other, and cut the text, and a block starts with what opens
it.  And they are nodes of the grammar (`Concrete.IsGrammatical`): the rules of the grammar say which parts a
node has and in which order, and which signs stand at its ends.  Nothing else is used of a parser.

* `Concrete.Throughout`              it holds of a node and all nodes below it;
* `ConcreteParser.KeepsLayout`       the nodes that a parser makes have their places;
* `ConcreteParser.FollowsGrammar`    they are nodes of the grammar;
* `Concrete.Sound`                   both hold of a node and all nodes below it.
-/

namespace RubyLint.Ruby

/-- The text of a span. -/
def Covers (source : List Char) (span : Span) (text : List Char) : Prop :=
  Text.slice source span.start span.stop = some text

instance (source : List Char) (span : Span) (text : List Char) : Decidable (Covers source span text) :=
  inferInstanceAs (Decidable (_ = _))

section
variable {source text front back : List Char} {span : Span}

theorem Covers.stop_eq (h : Covers source span text) :
    span.start + Text.byteLength text = span.stop := by
  obtain ⟨_, _, -, -, hstop⟩ := Text.slice_eq_some_iff.1 h
  exact hstop

theorem Covers.isBoundary (front back : List Char) (h : Covers source span (front ++ back)) :
    Text.isBoundary source (span.start + Text.byteLength front) = true := by
  obtain ⟨before, behind, hsource, hstart, -⟩ := Text.slice_eq_some_iff.1 h
  refine Text.isBoundary_iff.2 ⟨before ++ front, back ++ behind, ?_, ?_⟩
  · simp only [hsource, List.append_assoc]
  · rw [Text.byteLength_append, hstart]

theorem exists_covers (h : span.Cuts source) : ∃ text, Covers source span text :=
  Option.isSome_iff_exists.1 (Text.isSome_slice_iff.2 ⟨h.le, h.start, h.stop⟩)

theorem Covers.append {start middle stop : Nat} (h : Covers source ⟨start, middle⟩ front)
    (h' : Covers source ⟨middle, stop⟩ back) : Covers source ⟨start, stop⟩ (front ++ back) := by
  obtain ⟨before, behind, hsource, hstart, hmiddle⟩ := Text.slice_eq_some_iff.1 h
  obtain ⟨before', behind', hsource', hstart', hstop⟩ := Text.slice_eq_some_iff.1 h'
  have hcut : (before ++ front) ++ behind = before' ++ (back ++ behind') := by
    rw [← hsource', hsource, List.append_assoc]
  have hlength : Text.byteLength (before ++ front) = Text.byteLength before' := by
    rw [Text.byteLength_append, hstart, hstart']
    exact hmiddle
  obtain ⟨gap, hgap, hbehind⟩ := Text.exists_append_of_byteLength_le hcut (Nat.le_of_eq hlength)
  obtain rfl : gap = [] := by
    have hboth := Text.byteLength_append (before ++ front) gap
    rw [← hgap] at hboth
    exact Text.eq_nil_of_byteLength (by omega)
  refine Text.slice_eq_some_iff.2 ⟨before, behind', ?_, hstart, ?_⟩
  · rw [hsource, hbehind, List.nil_append, List.append_assoc]
  · rw [Text.byteLength_append]
    show start + _ = stop
    have hmiddle : start + Text.byteLength front = middle := hmiddle
    have hstop : middle + Text.byteLength back = stop := hstop
    omega

theorem Covers.extend {span' : Span} (h : Covers source span front) (hcuts : span'.Cuts source)
    (hstart : span.start = span'.start) (hstop : span.stop ≤ span'.stop) :
    ∃ rest, Covers source span' (front ++ rest) := by
  have hboundary := Covers.isBoundary front [] (by rwa [List.append_nil])
  rw [h.stop_eq] at hboundary
  have hgap : (⟨span.stop, span'.stop⟩ : Span).Cuts source := ⟨hstop, hboundary, hcuts.stop⟩
  obtain ⟨rest, hrest⟩ := exists_covers hgap
  have happend : Covers source ⟨span.start, span'.stop⟩ (front ++ rest) := .append h hrest
  rw [hstart] at happend
  exact ⟨rest, happend⟩

end

/-- The parts of a call, in the order in which the grammar has them. -/
def callRoles : List Role := [.receiver, .operator, .method, .arguments, .block]

def Role.rank (role : Role) : Nat := callRoles.idxOf role

namespace Concrete

/-- It holds of the node and of every node below it. -/
inductive Throughout (P : Concrete → Prop) : Concrete → Prop
  | intro {c : Concrete} (h : P c) (hchildren : ∀ d ∈ c.children, Throughout P d) : Throughout P c

section
variable {P Q : Concrete → Prop} {c d : Concrete}

theorem Throughout.here (h : c.Throughout P) : P c := by
  cases h
  assumption

theorem Throughout.child (h : c.Throughout P) (hd : d ∈ c.children) : d.Throughout P := by
  cases h with
  | intro _ hchildren => exact hchildren d hd

theorem Throughout.and (h : c.Throughout P) (h' : c.Throughout Q) :
    c.Throughout fun d => P d ∧ Q d := by
  induction h with
  | intro hP _ ih => exact .intro ⟨hP, h'.here⟩ fun d hd => ih d hd (h'.child hd)

theorem Throughout.imp (h : c.Throughout P) (hPQ : ∀ d, P d → Q d) : c.Throughout Q := by
  induction h with
  | intro hP _ ih => exact .intro (hPQ _ hP) ih

end

/-! ## places -/

/-- A block starts with a brace or with `do`, and what is in it stands behind that. -/
def IsOpened (source : List Char) (c : Concrete) : Prop :=
  ∃ opener ∈ [['{'], ['d', 'o']], (∃ rest, Covers source c.span (opener ++ rest)) ∧
    ∀ d ∈ c.named, c.span.start + Text.byteLength opener ≤ d.span.start

/-- The node cuts the text, and its children lie inside it, in the order of the text and without overlap. -/
structure IsLaidOut (source : List Char) (c : Concrete) : Prop where
  cuts : c.span.Cuts source
  inside : ∀ d ∈ c.children, c.span.contains d.span = true
  ordered : Span.InOrder (c.children.map span)
  opened : c.role = .block → c.IsOpened source

/-! ## the rules of the grammar -/

/-- A call has its parts in their order, and in front of a block it has one that names what is called, or
arguments. -/
structure IsCall (c : Concrete) : Prop where
  ordered : ((c.children.map role).filter (· ∈ callRoles)).Sublist callRoles
  called : (c.part? .block).isSome → ∃ d ∈ c.children, d.role ∈ [.operator, .method, .arguments]

instance (c : Concrete) : Decidable c.IsCall :=
  decidable_of_iff (_ ∧ _) ⟨fun h => ⟨h.1, h.2⟩, fun h => ⟨h.ordered, h.called⟩⟩

/-- The parameters of a block are such, and its body is none of them. -/
structure IsBlock (c : Concrete) : Prop where
  parameters : ∀ d ∈ c.part? .parameters, d.construct = .blockParameters
  body : ∀ d ∈ c.part? .body, d.construct ∈ [.blockBody, .bodyStatement]

instance (c : Concrete) : Decidable c.IsBlock :=
  decidable_of_iff (_ ∧ _) ⟨fun h => ⟨h.1, h.2⟩, fun h => ⟨h.parameters, h.body⟩⟩

/-- What opens a regular expression, and the character that closes it. -/
def opensRegex (opener : List Char) (closer : Char) : Prop :=
  opener = ['/'] ∧ closer = '/' ∨ ∃ d, opener = ['%', 'r', d] ∧ closer = closingDelimiter d

/-- A regular expression stands between what opens it and the character that closes it; behind that only
flags come. -/
def IsRegex (source : List Char) (c : Concrete) : Prop :=
  ∃ opener body closer flags, opensRegex opener closer ∧
    Covers source c.span (opener ++ body ++ closer :: flags) ∧ closer.utf8Size = 1 ∧
    closer ∉ flags ∧
    ∀ d ∈ c.named, d.span.stop ≤ c.span.start + Text.byteLength (opener ++ body)

/-- A statement in a method, which has no part in its head. -/
def IsStatement (c : Concrete) : Prop :=
  c.isPassedOver = false ∧ c.role ∉ [.object, .name, .parameters]

instance (c : Concrete) : Decidable c.IsStatement := inferInstanceAs (Decidable (_ ∧ _))

/-- The node has the parts that the rules of the grammar give it, between the signs that they give it. -/
structure IsGrammatical (source : List Char) (c : Concrete) : Prop where
  call : c.construct = .call → c.IsCall
  block : c.role = .block → c.IsBlock
  regex : c.construct = .regex → c.IsRegex source
  scope : c.construct = .scopeResolution → c.part? .scope = none →
    ∃ rest, Covers source c.span (':' :: ':' :: rest)
  method : c.construct ∈ [.methodDefinition, .singletonMethod] → c.part? .body = none →
    c.children.Pairwise fun d e => d.IsStatement → e.role ∉ [.object, .name, .parameters]

/-! ## sound nodes -/

/-- The node has its place, and is one of the grammar. -/
structure Stands (source : List Char) (c : Concrete) : Prop extends
  c.IsLaidOut source, c.IsGrammatical source

/-- Every node of the tree stands where it should. -/
def Sound (source : List Char) : Concrete → Prop := Throughout (Stands source)

section
variable {source : List Char} {c d e : Concrete}

theorem Sound.intro (h : c.Stands source) (hchildren : ∀ d ∈ c.children, d.Sound source) :
    c.Sound source := Throughout.intro h hchildren

theorem Sound.stands (h : c.Sound source) : c.Stands source := h.here

theorem Sound.child (h : c.Sound source) (hd : d ∈ c.children) : d.Sound source := Throughout.child h hd

/-- A sound node may take another role, but not that of a block. -/
theorem Sound.withRole {role : Role} (h : c.Sound source) (hrole : role ≠ .block) :
    (c.withRole role).Sound source := by
  cases c with
  | node r k span children =>
    have hs := h.stands
    exact .intro ⟨⟨hs.cuts, hs.inside, hs.ordered, fun h => absurd h hrole⟩,
      ⟨fun hk => ⟨(hs.call hk).ordered, (hs.call hk).called⟩, fun h => absurd h hrole, hs.regex, hs.scope,
        hs.method⟩⟩ fun d hd => h.child hd

/-- Where no child of one sort has one of another sort behind it, those of the other sort end first. -/
theorem IsLaidOut.stop_le_start {P Q : Concrete → Prop} (h : c.IsLaidOut source)
    (hPQ : c.children.Pairwise fun d e => Q d → ¬ P e) (hne : ∀ d, P d → ¬ Q d)
    (hd : d ∈ c.children) (he : e ∈ c.children) (hP : P d) (hQ : Q e) : d.span.stop ≤ e.span.start := by
  have hboth : c.children.Pairwise fun d e =>
      (P d → Q e → d.span.stop ≤ e.span.start) ∧ (P e → Q d → e.span.stop ≤ d.span.start) :=
    (hPQ.and (List.pairwise_map.1 h.ordered)).imp fun h =>
      ⟨fun _ _ => h.2, fun hP hQ => absurd hP (h.1 hQ)⟩
  have : Std.Symm fun d e : Concrete => (P d → Q e → d.span.stop ≤ e.span.start) ∧
      (P e → Q d → e.span.stop ≤ d.span.start) := ⟨fun _ _ h => h.symm⟩
  exact (hboth.forall_of_forall (fun d _ => ⟨fun hP hQ => absurd hQ (hne d hP),
    fun hP hQ => absurd hQ (hne d hP)⟩) hd he).1 hP hQ

theorem IsCall.stop_le_start (hc : c.IsCall) (h : c.IsLaidOut source) (hd : d ∈ c.children)
    (he : e ∈ c.children) (hrank : d.role.rank < e.role.rank) (hrole : e.role ∈ callRoles) :
    d.span.stop ≤ e.span.start := by
  have hroles : callRoles.Pairwise fun r r' => r.rank < r'.rank := by decide
  have hranks := List.pairwise_map.1 (List.pairwise_filter.1 (hroles.sublist hc.ordered))
  have hmem : d.role ∈ callRoles :=
    List.idxOf_lt_length_iff.1 (Nat.lt_trans hrank (List.idxOf_lt_length_iff.2 hrole))
  refine h.stop_le_start (P := (role · = d.role)) (Q := (role · = e.role)) (hranks.imp ?_) ?_ hd he rfl rfl
  · intro x y hlt hx hy
    have hlt := hlt (by simpa [hx] using hrole) (by simpa [hy] using hmem)
    rw [hx, hy] at hlt
    omega
  · intro x hx hx'
    rw [← hx, hx'] at hrank
    exact Nat.lt_irrefl _ hrank

end

end Concrete

/-! ## parsers -/

/-- The nodes that the parser makes of a text without faults have their places. -/
def ConcreteParser.KeepsLayout (parse : ConcreteParser) : Prop :=
  ∀ text parsed, parse text = .ok parsed → parsed.flaws = [] →
    parsed.root.Throughout (Concrete.IsLaidOut text.toList)

/-- The nodes that the parser makes of a text without faults are nodes of the grammar: what else stands in
them, and where, is left open. -/
def ConcreteParser.FollowsGrammar (parse : ConcreteParser) : Prop :=
  ∀ text parsed, parse text = .ok parsed → parsed.flaws = [] →
    parsed.root.Throughout (Concrete.IsGrammatical text.toList)

end RubyLint.Ruby
