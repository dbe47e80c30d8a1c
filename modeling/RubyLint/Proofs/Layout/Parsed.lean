import RubyLint.Proofs.Layout.Placed.Construct
import RubyLint.Proofs.Syntax.Terms

/-!
# The trees of parsed texts

Whatever parser has made the concrete tree of a text: if the nodes of that tree are sound, the tree of the
text is well placed.

* `treeOf_eq_ok_iff`      when a text has a tree;
* `wellPlaced_of_sound`   the tree that is made of sound nodes is well placed;
* `treeOf_wellPlaced`     so is every tree by a parser whose nodes have their places.
-/

namespace RubyLint.Ruby

section
variable {parse : ConcreteParser} {text : String} {t : SyntaxTree}

theorem treeOf_eq_ok_iff : treeOf parse text = .ok t ↔
    ∃ parsed term, parse text = .ok parsed ∧ parsed.flaws = [] ∧
      rootTerm text.toList parsed.root.named = .ok term ∧ treeOfTerm text term = t := by
  unfold treeOf
  cases parse text with
  | error fault => simp
  | ok parsed =>
    cases hflaws : parsed.flaws with
    | cons flaw flaws => simp [hflaws]
    | nil => cases hterm : rootTerm text.toList parsed.root.named <;> simp [hflaws, hterm]

/-- **The tree that is made of sound nodes is well placed.** -/
theorem wellPlaced_of_sound (hsound : ∀ parsed, parse text = .ok parsed → parsed.flaws = [] →
    parsed.root.Sound text.toList) (h : treeOf parse text = .ok t) : t.source = text ∧ t.WellPlaced := by
  obtain ⟨parsed, term, hparsed, hflaws, hterm, rfl⟩ := treeOf_eq_ok_iff.1 h
  have hroot := hsound parsed hparsed hflaws
  have hnamed : parsed.root.named.Sublist parsed.root.children := List.filter_sublist
  have hordered : Span.InOrder (parsed.root.named.map Concrete.span) :=
    hroot.stands.ordered.sublist (hnamed.map _)
  have hforest : ∀ c ∈ parsed.root.named, c.Sound text.toList := fun c hc => hroot.child (hnamed.subset hc)
  exact wellPlaced_of_term (Layout.rootTerm_placed hforest hordered hterm)

end

/-- **The tree of an accepted text is well placed**, whatever parser makes its concrete tree.  All that is
assumed of where concrete nodes stand is that children lie inside their node, in the order of the text,
without overlap and on character boundaries, and that blocks start with what opens them (`KeepsLayout`).
Otherwise the nodes of an accepted text have only to be nodes of the grammar (`FollowsGrammar`): the layout
takes the parts of a call, a block and a method by their roles, and relies on the order in which the rules
have them, on the sign in front of an outermost constant and on the delimiters of a regular expression. -/
theorem treeOf_wellPlaced {parse : ConcreteParser} (hlayout : parse.KeepsLayout)
    (hgrammar : parse.FollowsGrammar) {text : String} {t : SyntaxTree} (h : treeOf parse text = .ok t) :
    t.source = text ∧ t.WellPlaced :=
  wellPlaced_of_sound (fun parsed hparsed hflaws =>
    ((hlayout text parsed hparsed hflaws).and (hgrammar text parsed hparsed hflaws)).imp
      fun _ h => ⟨h.1, h.2⟩) h

/-! ## nodes of a tree -/

namespace Concrete

mutual

/-- The node and all nodes below it. -/
def nodes : Concrete → List Concrete
  | .node role construct span children => .node role construct span children :: nodesOfEach children

def nodesOfEach : List Concrete → List Concrete
  | [] => []
  | c :: cs => c.nodes ++ nodesOfEach cs

end

theorem mem_nodesOfEach {d : Concrete} {cs : List Concrete} :
    d ∈ nodesOfEach cs ↔ ∃ c ∈ cs, d ∈ c.nodes := by
  induction cs with
  | nil => simp [nodesOfEach]
  | cons c cs ih => simp [nodesOfEach, ih]

theorem throughout_of_nodes {P : Concrete → Prop} {c : Concrete} (h : ∀ d ∈ c.nodes, P d) :
    c.Throughout P := by
  induction c using ind with
  | h c ih =>
    cases c with
    | node role construct span children =>
      obtain ⟨hself, hbelow⟩ := List.forall_mem_cons.1 h
      exact .intro hself fun d hd => ih d hd fun e he => hbelow e (mem_nodesOfEach.2 ⟨d, hd, he⟩)

end Concrete

/-! ## a text and its nodes -/

/-- The parser that knows one text. -/
def knowing (text : String) (root : Concrete) : ConcreteParser := fun text' =>
  if text' = text then .ok ⟨root, []⟩ else .error .noTree

theorem knowing_eq_ok {text text' : String} {root : Concrete} {parsed : Parsed}
    (h : knowing text root text' = .ok parsed) : text' = text ∧ parsed = ⟨root, []⟩ := by
  unfold knowing at h
  split at h
  · next heq =>
    cases h
    exact ⟨heq, rfl⟩
  · cases h

/-- A method without a body, and a call with a regular expression and a block, behind which a comment
stands. -/
def statementsText : String := "def f; end\n::A.b(/c/i) \x7b d \x7d # e"

def sign (start stop : Nat) : Concrete := .node .plain .token ⟨start, stop⟩ []

def statementsRoot : Concrete :=
  .node .plain (.other "program") ⟨0, 32⟩ [
    .node .plain .methodDefinition ⟨0, 10⟩ [
      sign 0 3, .node .name .identifier ⟨4, 5⟩ [], sign 5 6, sign 7 10],
    .node .plain .call ⟨11, 28⟩ [
      .node .receiver .scopeResolution ⟨11, 14⟩ [sign 11 13, .node .name .constant ⟨13, 14⟩ []],
      .node .operator .token ⟨14, 15⟩ [],
      .node .method .identifier ⟨15, 16⟩ [],
      .node .arguments .argumentList ⟨16, 22⟩ [
        sign 16 17,
        .node .plain .regex ⟨17, 21⟩ [
          sign 17 18, .node .plain (.other "string_content") ⟨18, 19⟩ [], sign 19 21],
        sign 21 22],
      .node .block (.other "block") ⟨23, 28⟩ [
        sign 23 24, .node .body .blockBody ⟨25, 26⟩ [.node .plain .identifier ⟨25, 26⟩ []], sign 27 28]],
    .node .plain .comment ⟨29, 32⟩ []]

theorem keepsLayout_statements : (knowing statementsText statementsRoot).KeepsLayout := by
  intro text parsed h _
  obtain ⟨rfl, rfl⟩ := knowing_eq_ok h
  have hcuts : ∀ d ∈ statementsRoot.nodes, d.span.Cuts statementsText.toList := by decide
  have hinside : ∀ d ∈ statementsRoot.nodes, ∀ e ∈ d.children, d.span.contains e.span = true := by decide
  have hordered : ∀ d ∈ statementsRoot.nodes, Span.InOrder (d.children.map Concrete.span) := by decide
  have hblock : ∀ d ∈ statementsRoot.nodes, d.role = .block →
      d.span = ⟨23, 28⟩ ∧ ∀ e ∈ d.named, 24 ≤ e.span.start := by decide
  refine Concrete.throughout_of_nodes fun d hd =>
    ⟨hcuts d hd, hinside d hd, hordered d hd, fun hrole => ?_⟩
  obtain ⟨hspan, hbehind⟩ := hblock d hd hrole
  refine ⟨['{'], List.mem_cons_self, ⟨" d \x7d".toList, ?_⟩, hspan ▸ hbehind⟩
  rw [hspan]
  decide

theorem followsGrammar_statements : (knowing statementsText statementsRoot).FollowsGrammar := by
  intro text parsed h _
  obtain ⟨rfl, rfl⟩ := knowing_eq_ok h
  have hcall : ∀ d ∈ statementsRoot.nodes, d.construct = .call → d.IsCall := by decide
  have hblock : ∀ d ∈ statementsRoot.nodes, d.role = .block → d.IsBlock := by decide
  have hregex : ∀ d ∈ statementsRoot.nodes, d.construct = .regex →
      d.span = ⟨17, 21⟩ ∧ ∀ e ∈ d.named, e.span.stop ≤ 19 := by decide
  have hscope : ∀ d ∈ statementsRoot.nodes, d.construct = .scopeResolution → d.span = ⟨11, 14⟩ := by
    decide
  have hmethod : ∀ d ∈ statementsRoot.nodes, d.construct ∈ [.methodDefinition, .singletonMethod] →
      d.children.Pairwise fun d e => d.IsStatement → e.role ∉ [.object, .name, .parameters] := by decide
  refine Concrete.throughout_of_nodes fun d hd =>
    ⟨hcall d hd, hblock d hd, fun hk => ?_, fun hk _ => ?_, fun hk _ => hmethod d hd hk⟩
  · obtain ⟨hspan, hinner⟩ := hregex d hd hk
    refine ⟨['/'], ['c'], '/', ['i'], .inl ⟨rfl, rfl⟩, ?_, rfl, by decide, hspan ▸ hinner⟩
    rw [hspan]
    decide
  · refine ⟨['A'], ?_⟩
    rw [hscope d hd hk]
    decide

/-- both statements have a tree, and it is well placed -/
theorem treeOf_wellPlaced_statements :
    (knowing statementsText statementsRoot).KeepsLayout ∧
    (knowing statementsText statementsRoot).FollowsGrammar ∧
    ∃ t, treeOf (knowing statementsText statementsRoot) statementsText = .ok t ∧
      t.source = statementsText ∧ t.WellPlaced := by
  refine ⟨keepsLayout_statements, followsGrammar_statements, ?_⟩
  have hsome : (treeOf (knowing statementsText statementsRoot) statementsText).toOption.isSome = true := by
    decide +kernel
  cases htree : treeOf (knowing statementsText statementsRoot) statementsText with
  | error e =>
    rw [htree] at hsome
    cases hsome
  | ok t => exact ⟨t, rfl, treeOf_wellPlaced keepsLayout_statements followsGrammar_statements htree⟩

end RubyLint.Ruby
