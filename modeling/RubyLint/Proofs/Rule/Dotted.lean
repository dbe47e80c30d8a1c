import RubyLint.Proofs.Rule.Pushing
import RubyLint.Proofs.Rule.Unreadable
import RubyLint.Rule.RegexpLiteral

/-!
# Operands in front of a dot

A match with a regular expression that is a text in disguise, and the question whether an intersection
is empty, are written anew as a question to one of their operands: its text, a dot, and the name of
the question.  A dot takes hold of the last part of what stands in front of it, unless that is one
operand.

* `Node.IsCompound`       the constructs of which a dot behind them takes hold only in part;
* `Node.IsRegexpOf`, `Matches`, `Meets`   the places at which the rules find the operand;
* `Dots`                  what each rule writes in front of the operand and behind the dot;
* `operand_bare_before_dot`   the operand is written as it stands, and so it stays one operand exactly
                          if it is none of those constructs.
-/

namespace RubyLint

/-! ## operands that a dot takes apart -/

namespace Node

variable {t : SyntaxTree}

/-- a call that is written with one of the operators in front of its only operand; `not` is one of
them -/
structure IsPrefixed (n : Node t) : Prop where
  isCall : n.isCall = true
  noDot : n.loc.dot = none
  noArguments : n.hasArguments = false
  named : ∃ operator ∈ unaryOperators, n.methodName? = some operator

structure IsTernary (n : Node t) : Prop where
  kind : n.kind = .conditional
  leads : ∃ condition, n.childNode? 0 = some condition ∧ condition.span.start = n.span.start

/-- The kinds of the nodes that are written with a word or a sign between their parts: joined by `and`
or `or`, a range, a match of a regular expression, or an assignment of any form. -/
def jointKinds : List Kind :=
  [.conjunction, .disjunction, .inclusiveRange, .exclusiveRange, .matchAssign, .localAssign,
    .instanceAssign, .globalAssign, .classAssign, .constAssign, .other "masgn", .opAssign, .orAssign,
    .andAssign]

/-- The infix operators. -/
def infixOperators : List String := Rule.looseOperators ++ Rule.tightOperators

/-- A dot behind the text of the node takes hold of a part of it only. -/
inductive IsCompound (n : Node t) : Prop
  | joint (h : n.kind ∈ jointKinds)
  | operator (h : n.IsInfix infixOperators)
  | sign (h : n.IsPrefixed)
  | choice (h : n.IsTernary)
  | command (h : n.IsCommand)
  /-- a call of the overridden method or of the block, with bare arguments -/
  | passed (hkind : n.kind = .superCall ∨ n.kind = .yieldCall) (hpos : 0 < n.childCount)
      (h : n.EndsOpen)

end Node

namespace Rule

open Pattern (Captures Condition Derivation Setting)

section
variable {t : SyntaxTree} {n m operand : Node t} {caps : Captures t}

/-! ## matches with a text in disguise -/

/-- the node is a regular expression without options, whose body is one text -/
structure IsRegexpOf (n : Node t) (body : String) : Prop where
  kind : n.kind = .regexp
  exists_parts : ∃ text options, n.children = [.node text, .node options] ∧ text.kind = .str ∧
    text.children = [.value (.str body)] ∧ options.kind = .regexpOptions ∧ options.children = []

/-- the node asks whether the operand matches a regular expression with this body -/
inductive Matches (n operand : Node t) (body : String) : Prop
  | received {method : String} {regexp : Node t} (hkind : n.kind = .send)
      (hchildren : n.children = [.node operand, .value (.sym method), .node regexp])
      (hmethod : method ∈ ["match", "=~", "match?"]) (hregexp : IsRegexpOf regexp body)
  | passed {method : String} {regexp : Node t} (hkind : n.kind = .send)
      (hchildren : n.children = [.node regexp, .value (.sym method), .node operand])
      (hmethod : method ∈ ["match", "match?"]) (hregexp : IsRegexpOf regexp body)
  | assigned {regexp : Node t} (hkind : n.kind = .matchAssign)
      (hchildren : n.children = [.node regexp, .node operand]) (hregexp : IsRegexpOf regexp body)

theorem Matches.covers {body : String} (h : Matches n operand body) : n.Covers operand := by
  have hmem : NodeChild.node operand ∈ n.children := by
    cases h with
    | received _ hchildren => simp [hchildren]
    | passed _ hchildren => simp [hchildren]
    | assigned _ hchildren => simp [hchildren]
  exact .through (Node.mem_childNodes.2 hmem) (.self operand)

theorem eq_str_of_asStr? {c : NodeChild t} {text : String} (h : c.asStr? = some text) :
    c = .value (.str text) := by
  cases c with
  | node k => cases h
  | value v =>
    cases v with
    | str text' => exact congrArg _ (congrArg _ (Option.some.inj h))
    | _ => cases h

namespace Anchor

/-- the name of the predicate that accepts the bodies with the text at this place -/
def predicateName : Anchor → String
  | .atStart => "literal_at_start?"
  | .atEnd => "literal_at_end?"
  | .anywhere => "literal_only?"

def matchRule : Anchor → Rule
  | .atStart => startWith
  | .atEnd => endWith
  | .anywhere => stringInclude

theorem ask_predicateName (a : Anchor) {c : NodeChild t} :
    Setting.ask ⟨bodyEnvironment, []⟩ a.predicateName [] c = bodyPredicate a c [] := by
  cases a <;> rfl

end Anchor

def regexpCondition (a : Anchor) (slot : Nat) : Condition :=
  .exactly (.kind .regexp) [
    .exactly (.kind .str) [.capture slot (.external a.predicateName [])],
    .exactly (.kind .regexpOptions) []]

def receivedCondition (a : Anchor) : Condition :=
  .exactly (.kind .send) [
    .capture 0 (.negation (.builtin .absent)),
    .union [.literal (.sym "match"), .literal (.sym "=~"), .literal (.sym "match?")],
    regexpCondition a 1]

def passedCondition (a : Anchor) : Condition :=
  .exactly (.kind .send) [
    regexpCondition a 0,
    .union [.literal (.sym "match"), .literal (.sym "match?")],
    .capture 1 .wildcard]

def assignedCondition (a : Anchor) : Condition :=
  .exactly (.kind .matchAssign) [regexpCondition a 0, .capture 1 .wildcard]

def matchConditions (a : Anchor) : List Condition :=
  [receivedCondition a, passedCondition a, assignedCondition a]

theorem exists_compiled_of_matchPatterns (a : Anchor) : ∀ p ∈ matchPatterns a,
    ∃ w : Pattern.Compiled p, w.environment = bodyEnvironment ∧
      w.condition ∈ matchConditions a := by
  cases a
  all_goals
    refine List.forall_mem_cons.2 ⟨?_, List.forall_mem_cons.2 ⟨?_, List.forall_mem_singleton.2 ?_⟩⟩
    · exact ⟨.ofText (receivedCondition _) (by decide +kernel), rfl, .head _⟩
    · exact ⟨.ofText (passedCondition _) (by decide +kernel), rfl, .tail _ (.head _)⟩
    · exact ⟨.ofText (assignedCondition _) (by decide +kernel), rfl, .tail _ (.tail _ (.head _))⟩

theorem isRegexpOf_of_derives {a : Anchor} {slot : Nat} {c : NodeChild t} {d : Derivation t}
    (h : (regexpCondition a slot).Derives ⟨bodyEnvironment, []⟩ c d) :
    ∃ regexp body, c = .node regexp ∧ IsRegexpOf regexp body ∧ a.accepts body.toList = true ∧
      d.bindings = [⟨slot, .single (.value (.str body))⟩] := by
  obtain ⟨regexp, text, options, e, f, rfl, hkind, hchildren, htext, hoptions, hbindings⟩ :=
    h.pair_inv
  obtain ⟨text, ds, rfl, htextKind, hds, htextBindings⟩ := htext.exactlyKind_inv
  obtain ⟨b, rest, g, gs, htextChildren, rfl, hbody, hrest⟩ := hds.cons_inv
  obtain ⟨rfl, rfl⟩ := hrest.nil_inv
  obtain ⟨haccepted, hbodyBindings⟩ := capture_inv hbody rfl
  obtain ⟨options, ds, rfl, hoptionsKind, hds, hoptionsBindings⟩ := hoptions.exactlyKind_inv
  obtain ⟨hoptionsChildren, rfl⟩ := hds.nil_inv
  -- only a text is asked whether it is a body that is accepted
  have hany : b.asStr?.any (fun body => a.accepts body.toList) = true :=
    Except.ok.inj ((Anchor.ask_predicateName a).symm.trans haccepted)
  obtain ⟨body, hb, haccepts⟩ := (Option.any_eq_true _ _).1 hany
  obtain rfl := eq_str_of_asStr? hb
  refine ⟨regexp, body, rfl, ⟨hkind, text, options, hchildren, htextKind, htextChildren,
    hoptionsKind, hoptionsChildren⟩, haccepts, ?_⟩
  rw [hbindings, htextBindings, hoptionsBindings]
  simp only [Derivation.bindingsEach, hbodyBindings, List.append_nil]

def BindsMatch (a : Anchor) (n : Node t) (d : Derivation t) : Prop :=
  ∃ c body slot slot', (slot = 0 ∧ slot' = 1 ∨ slot = 1 ∧ slot' = 0) ∧
    Captures.lastOf d.bindings slot = some (.single c) ∧
    Captures.lastOf d.bindings slot' = some (.single (.value (.str body))) ∧
    a.accepts body.toList = true ∧ ∀ operand, c = .node operand → Matches n operand body

theorem bindsMatch_received {a : Anchor} {d : Derivation t}
    (hd : (receivedCondition a).Derives ⟨bodyEnvironment, []⟩ (.node n) d) : BindsMatch a n d := by
  obtain ⟨k, c, b, x, e, f, g, hn, hkind, hchildren, hc, hb, hx, hbindings⟩ := hd.triple_inv
  obtain rfl := NodeChild.node.inj hn
  obtain ⟨-, he⟩ := capture_inv hc rfl
  obtain ⟨method, hmethod, rfl⟩ : ∃ name ∈ ["match", "=~", "match?"], b = .value (.sym name) :=
    Condition.exists_name_of_holds rfl hb.holds
  obtain ⟨regexp, body, rfl, hregexp, haccepts, hg⟩ := isRegexpOf_of_derives hx
  rw [he, hg, Condition.bindings_eq_nil hb rfl] at hbindings
  refine ⟨c, body, 0, 1, .inl ⟨rfl, rfl⟩, by rw [hbindings]; rfl, by rw [hbindings]; rfl, haccepts,
    ?_⟩
  rintro operand rfl
  exact .received hkind hchildren hmethod hregexp

theorem bindsMatch_passed {a : Anchor} {d : Derivation t}
    (hd : (passedCondition a).Derives ⟨bodyEnvironment, []⟩ (.node n) d) : BindsMatch a n d := by
  obtain ⟨k, x, b, c, e, f, g, hn, hkind, hchildren, hx, hb, hc, hbindings⟩ := hd.triple_inv
  obtain rfl := NodeChild.node.inj hn
  obtain ⟨-, hg⟩ := capture_inv hc rfl
  obtain ⟨method, hmethod, rfl⟩ : ∃ name ∈ ["match", "match?"], b = .value (.sym name) :=
    Condition.exists_name_of_holds rfl hb.holds
  obtain ⟨regexp, body, rfl, hregexp, haccepts, he⟩ := isRegexpOf_of_derives hx
  rw [he, hg, Condition.bindings_eq_nil hb rfl] at hbindings
  refine ⟨c, body, 1, 0, .inr ⟨rfl, rfl⟩, by rw [hbindings]; rfl, by rw [hbindings]; rfl, haccepts,
    ?_⟩
  rintro operand rfl
  exact .passed hkind hchildren hmethod hregexp

theorem bindsMatch_assigned {a : Anchor} {d : Derivation t}
    (hd : (assignedCondition a).Derives ⟨bodyEnvironment, []⟩ (.node n) d) : BindsMatch a n d := by
  obtain ⟨k, x, c, e, f, hn, hkind, hchildren, hx, hc, hbindings⟩ := hd.pair_inv
  obtain rfl := NodeChild.node.inj hn
  obtain ⟨-, hf⟩ := capture_inv hc rfl
  obtain ⟨regexp, body, rfl, hregexp, haccepts, he⟩ := isRegexpOf_of_derives hx
  rw [he, hf] at hbindings
  refine ⟨c, body, 1, 0, .inr ⟨rfl, rfl⟩, by rw [hbindings]; rfl, by rw [hbindings]; rfl, haccepts,
    ?_⟩
  rintro operand rfl
  exact .assigned hkind hchildren hregexp

/-- the operand is what is bound besides the body, in front of it or behind it -/
theorem eq_of_operandAndBody? {slot slot' : Nat} {c : NodeChild t} {text body : String}
    (hslots : slot = 0 ∧ slot' = 1 ∨ slot = 1 ∧ slot' = 0)
    (hget : caps.get? slot = some (.single c))
    (hget' : caps.get? slot' = some (.single (.value (.str text))))
    (h : operandAndBody? caps = some (operand, body)) : c = .node operand ∧ text = body := by
  have hnode : caps.node? slot = c.asNode? := by
    rw [Captures.node?, hget]
    rfl
  have hnone : caps.node? slot' = none := by
    rw [Captures.node?, hget']
    rfl
  have hstr : caps.str? slot' = some text := by
    rw [Captures.str?, hget']
    rfl
  unfold operandAndBody? at h
  cases c with
  | node m => rcases hslots with ⟨rfl, rfl⟩ | ⟨rfl, rfl⟩ <;> simp_all [NodeChild.asNode?]
  | value v => rcases hslots with ⟨rfl, rfl⟩ | ⟨rfl, rfl⟩ <;> simp_all [NodeChild.asNode?]

theorem matches_of_match {a : Anchor} {p : Pattern} (hp : p ∈ matchPatterns a)
    (hm : p.match? n = some caps) {body : String}
    (h : operandAndBody? caps = some (operand, body)) :
    Matches n operand body ∧ a.accepts body.toList = true := by
  obtain ⟨w, henvironment, hcondition⟩ := exists_compiled_of_matchPatterns a p hp
  obtain ⟨d, hd, hcaps⟩ := w.exists_derives hm
  rw [henvironment] at hd
  have hbinds : BindsMatch a n d := by
    rcases List.mem_cons.1 hcondition with hreceived | hcondition
    · exact bindsMatch_received (hreceived ▸ hd)
    rcases List.mem_cons.1 hcondition with hpassed | hcondition
    · exact bindsMatch_passed (hpassed ▸ hd)
    · exact bindsMatch_assigned (List.mem_singleton.1 hcondition ▸ hd)
  obtain ⟨c, text, slot, slot', hslots, hget, hget', haccepts, hmatches⟩ := hbinds
  obtain ⟨rfl, rfl⟩ :=
    eq_of_operandAndBody? hslots ((hcaps slot).trans hget) ((hcaps slot').trans hget') h
  exact ⟨hmatches operand rfl, haccepts⟩

/-! ## intersections -/

/-- the node asks the question whether the intersection of the two operands has elements -/
structure Meets (n left right : Node t) (method : String) : Prop where
  kind : n.kind = .send
  exists_group : ∃ group both, n.children = [.node group, .value (.sym method)] ∧
    group.kind = .sequence ∧ group.children = [.node both] ∧ both.kind = .send ∧
    both.children = [.node left, .value (.sym "&"), .node right]
  method : method ∈ ["present?", "any?", "blank?", "empty?"]
  noBlock : n.blockNode? = none

theorem Meets.covers {left right : Node t} {method : String} (h : Meets n left right method) :
    n.Covers left ∧ n.Covers right := by
  obtain ⟨group, both, hn, -, hgroup, -, hboth⟩ := h.exists_group
  have hg : group ∈ n.childNodes := Node.mem_childNodes.2 (by simp [hn])
  have hb : both ∈ group.childNodes := Node.mem_childNodes.2 (by simp [hgroup])
  have hleft : left ∈ both.childNodes := Node.mem_childNodes.2 (by simp [hboth])
  have hright : right ∈ both.childNodes := Node.mem_childNodes.2 (by simp [hboth])
  exact ⟨.through hg (.through hb (.through hleft (.self left))),
    .through hg (.through hb (.through hright (.self right)))⟩

def intersectionCheckCompiled : Pattern.Compiled intersectionCheck := .ofText
  (.exactly (.kind .send) [
    .exactly (.kind .sequence) [
      .exactly (.kind .send) [.capture 0 .wildcard, .literal (.sym "&"), .capture 1 .wildcard]],
    .capture 2 (.union [.literal (.sym "present?"), .literal (.sym "any?"),
      .literal (.sym "blank?"), .literal (.sym "empty?")])])
  (by decide +kernel)

theorem meets_of_match (hm : intersectionCheck.match? n = some caps) {left right : Node t}
    {method : String} (hblock : n.blockNode? = none) (hleft : caps.node? 0 = some left)
    (hright : caps.node? 1 = some right) (hmethod : caps.sym? 2 = some method) :
    Meets n left right method := by
  obtain ⟨d, hd, hcaps⟩ := intersectionCheckCompiled.exists_derives hm
  obtain ⟨k, g, q, e, f, hn, hkind, hchildren, hg, hq, hbindings⟩ := hd.pair_inv
  obtain rfl := NodeChild.node.inj hn
  obtain ⟨group, ds, rfl, hgroup, hds, he⟩ := hg.exactlyKind_inv
  obtain ⟨b, rest, e', es, hgroupChildren, rfl, hb, hrest⟩ := hds.cons_inv
  obtain ⟨rfl, rfl⟩ := hrest.nil_inv
  obtain ⟨both, x, o, y, e₁, e₂, e₃, rfl, hboth, hbothChildren, hx, ho, hy, he'⟩ := hb.triple_inv
  obtain ⟨-, hx'⟩ := capture_inv hx rfl
  obtain ⟨-, hy'⟩ := capture_inv hy rfl
  obtain ⟨hasks, hq'⟩ := capture_inv hq rfl
  obtain ⟨operator, hoperator, rfl⟩ : ∃ name ∈ ["&"], o = .value (.sym name) :=
    Condition.exists_name_of_holds rfl ho.holds
  obtain rfl := List.mem_singleton.1 hoperator
  have hbound : d.bindings = [⟨0, .single x⟩, ⟨1, .single y⟩, ⟨2, .single q⟩] := by
    rw [hbindings, he, Derivation.bindingsEach, Derivation.bindingsEach, he', hx', hy', hq',
      Condition.bindings_eq_nil ho rfl]
    rfl
  have hget : ∀ slot, caps.get? slot = Captures.lastOf
      [⟨0, .single x⟩, ⟨1, .single y⟩, ⟨2, .single q⟩] slot := fun slot => hbound ▸ hcaps slot
  obtain rfl := eq_node_of_get? (hget 0) hleft
  obtain rfl := eq_node_of_get? (hget 1) hright
  obtain rfl := eq_sym_of_get? (hget 2) hmethod
  exact ⟨hkind, ⟨group, both, hchildren, hgroup, hgroupChildren, hboth, hbothChildren⟩,
    Condition.mem_names_of_holds rfl hasks, hblock⟩

/-! ## the rules -/

/-- What a rule finds at the node: the operand that it puts in front of a dot, what it writes in front
of the operand, and the question that it writes behind the dot. -/
inductive Dots (n operand : Node t) : Rule → String → String → Prop
  | matched (a : Anchor) {body : String} (h : Matches n operand body)
      (haccepts : a.accepts body.toList = true) :
      Dots n operand a.matchRule "" (a.question ++ "(" ++ a.literalFor body ++ ")")
  | met {right : Node t} {method argument : String} (h : Meets n operand right method)
      (hargument : right.source? = some argument) :
      Dots n operand intersectionCheckRule (if asksForElements method then "" else "!")
        ("intersect?(" ++ argument ++ ")")

/-- The finding puts the operand as it is written in front of the dot, and the whole in the place of
the node. -/
def PutsBare (r : Rule) (n : Node t) (f : Finding) : Prop :=
  ∃ operand front question text, Dots n operand r front question ∧ operand.source? = some text ∧
    f.span = n.span ∧ f.correction = some ⟨[⟨n.span, front ++ text ++ "." ++ question⟩]⟩

theorem matchVerdict_answersIfRead (a : Anchor) (message : String) (n : Node t) :
    Verdict.AnswersIfRead n (PutsBare a.matchRule n) (matchVerdict a message n) := by
  rw [matchVerdict]
  split
  case h_2 => exact .nothing
  next caps hfound =>
  split
  case h_2 => exact .nothing
  next operand body hoperand =>
  obtain ⟨p, hp, hm⟩ := List.exists_of_findSome?_eq_some hfound
  obtain ⟨hmatches, haccepts⟩ := matches_of_match hp hm hoperand
  refine .text hmatches.covers fun text htext => .found ?_
  have hwritten : text ++ "." ++ a.question ++ "(" ++ a.literalFor body ++ ")" =
      "" ++ text ++ "." ++ (a.question ++ "(" ++ a.literalFor body ++ ")") := by
    simp only [String.append_assoc, String.empty_append]
  rw [hwritten]
  exact ⟨operand, "", _, text, .matched a hmatches haccepts, htext, rfl, rfl⟩

theorem intersectionVerdict_answersIfRead (n : Node t) :
    Verdict.AnswersIfRead n (PutsBare intersectionCheckRule n) (intersectionVerdict n) := by
  rw [intersectionVerdict]
  split
  case isTrue => exact .nothing
  next hblock =>
  split
  case h_2 => exact .nothing
  next caps hm =>
  split
  case h_2 => exact .nothing
  next left hleft =>
  split
  case h_2 => exact .nothing
  next right hright =>
  split
  case h_2 => exact .nothing
  next method hmethod =>
  have hmeets := meets_of_match hm (by simpa using hblock) hleft hright hmethod
  refine .text hmeets.covers.1 fun receiver hreceiver => ?_
  refine .text hmeets.covers.2 fun argument hargument => .found ?_
  have hwritten : ∀ front, front ++ receiver ++ ".intersect?(" ++ argument ++ ")" =
      front ++ receiver ++ "." ++ ("intersect?(" ++ argument ++ ")") := fun front => by
    have hdot : ".intersect?(" = "." ++ "intersect?(" := rfl
    rw [hdot]
    simp only [String.append_assoc]
  rw [hwritten]
  exact ⟨left, _, _, receiver, .met hmeets hargument, hreceiver, rfl, rfl⟩

/-- **An operand in front of a dot is never put in parentheses.**  At every node of every tree each of
these rules has an answer, unless it meets a span there that does not cut the text.  What it answers
replaces the node by the operand's text as it is written, with a dot and the question behind it; the
operand stands in front of the method that asks or is its argument, stands on either side of a match,
or is the left one of an intersection.  So it stays one operand, in parentheses where it needs them,
exactly if it needs none: if it is no call of an operator, is not joined to something by a word or a
sign, assigns nothing, does not choose, and has no bare arguments. -/
theorem operand_bare_before_dot {r : Rule}
    (hr : r ∈ [startWith, endWith, stringInclude, intersectionCheckRule]) (context : RuleContext)
    (n : Node t) : n.Reads (r.evaluate context n).offenses fun os => ∀ o ∈ os,
      ∃ operand front question text written, Dots n operand r front question ∧
        operand.source? = some text ∧ o.span = n.span ∧
        o.correction = some ⟨[⟨n.span, front ++ written ++ "." ++ question⟩]⟩ ∧ written = text ∧
        ((operand.IsCompound → written = "(" ++ text ++ ")") ↔ ¬ operand.IsCompound) := by
  have hverdict : ∃ id check, r.evaluate context n = Evaluation.ofVerdict
      (fun f => f.toOffense id .warning t.source.toList) check ∧
      Verdict.AnswersIfRead n (PutsBare r n) check := by
    rcases List.mem_cons.1 hr with rfl | hr
    · exact ⟨_, _, rfl, matchVerdict_answersIfRead .atStart _ n⟩
    rcases List.mem_cons.1 hr with rfl | hr
    · exact ⟨_, _, rfl, matchVerdict_answersIfRead .atEnd _ n⟩
    rcases List.mem_cons.1 hr with rfl | hr
    · exact ⟨_, _, rfl, matchVerdict_answersIfRead .anywhere _ n⟩
    · obtain rfl := List.mem_singleton.1 hr
      exact ⟨_, _, rfl, intersectionVerdict_answersIfRead n⟩
  obtain ⟨id, check, hevaluate, hanswers⟩ := hverdict
  refine (offenses_of_answersIfRead hevaluate hanswers).imp fun os hall o ho => ?_
  obtain ⟨f, ⟨operand, front, question, text, hdots, htext, hspan, hcorrection⟩, hspan',
    hcorrection'⟩ := hall o ho
  exact ⟨operand, front, question, text, text, hdots, htext, hspan'.trans hspan,
    hcorrection'.trans hcorrection, rfl, imp_enclosed_iff text⟩

/-! ## a sum in front of a dot -/

def matchedSum : SyntaxTree :=
  SyntaxTree.ofNode "a + b =~ /\\Afoo/" .send ⟨0, 16⟩ ⟨some ⟨6, 8⟩, none, none, none, some ⟨6, 8⟩⟩ [
    .node .send ⟨0, 5⟩ ⟨some ⟨2, 3⟩, none, none, none, some ⟨2, 3⟩⟩ [
      .node .send ⟨0, 1⟩ ⟨some ⟨0, 1⟩, none, none, none, none⟩ [.value .nil, .value (.sym "a")],
      .value (.sym "+"),
      .node .send ⟨4, 5⟩ ⟨some ⟨4, 5⟩, none, none, none, none⟩ [.value .nil, .value (.sym "b")]],
    .value (.sym "=~"),
    .node .regexp ⟨9, 16⟩ ⟨none, none, some ⟨9, 10⟩, some ⟨15, 16⟩, none⟩ [
      .node .str ⟨10, 15⟩ Loc.none [.value (.str "\\Afoo")],
      .node .regexpOptions ⟨16, 16⟩ Loc.none []]]

def sumInMatch : Node matchedSum := ⟨2, by decide +kernel⟩

theorem matchedSum_corrections :
    ((startWith.evaluate Config.standard.context matchedSum.rootNode).offenses.toOption.map
      fun os => os.map fun o => o.correction) =
      some [some ⟨[⟨⟨0, 16⟩, "a + b.start_with?('foo')"⟩]⟩] := by
  decide +kernel

theorem matchedSum_bare : matchedSum.WellFormed ∧
    ∃ os o operand front question text,
      (startWith.evaluate Config.standard.context matchedSum.rootNode).offenses = .ok os ∧ o ∈ os ∧
      Dots matchedSum.rootNode operand startWith front question ∧ operand.source? = some text ∧
      o.correction = some ⟨[⟨⟨0, 16⟩, "a + b.start_with?('foo')"⟩]⟩ ∧
      front ++ text ++ "." ++ question = "a + b.start_with?('foo')" := by
  have ht : matchedSum.WellFormed := by decide +kernel
  have hr : startWith ∈ [startWith, endWith, stringInclude, intersectionCheckRule] :=
    List.mem_cons_self
  obtain ⟨os, hos, hall⟩ := Node.Reads.of_wellFormed ht
    (operand_bare_before_dot hr Config.standard.context matchedSum.rootNode)
  obtain ⟨o, rfl, hcorrection⟩ := exists_offense_of_corrections matchedSum_corrections hos
  obtain ⟨operand, front, question, text, written, hdots, htext, -, hwhole, rfl, -⟩ :=
    hall o List.mem_cons_self
  exact ⟨ht, _, o, operand, front, question, written, hos, List.mem_cons_self, hdots, htext,
    hcorrection, replacement_inj (hwhole.symm.trans hcorrection)⟩

/-- The dot takes hold of the second summand only. -/
theorem matchedSum_takenApart : matchedSum.WellFormed ∧
    Matches matchedSum.rootNode sumInMatch "\\Afoo" ∧ sumInMatch.IsCompound ∧
    sumInMatch.source? = some "a + b" ∧
    ((startWith.evaluate Config.standard.context matchedSum.rootNode).offenses.toOption.map
      fun os => os.map fun o => o.correction) =
      some [some ⟨[⟨⟨0, 16⟩, "a + b.start_with?('foo')"⟩]⟩] := by
  have hregexp : IsRegexpOf (⟨5, by decide +kernel⟩ : Node matchedSum) "\\Afoo" :=
    ⟨by decide +kernel, ⟨3, by decide +kernel⟩, ⟨4, by decide +kernel⟩, by decide +kernel,
      by decide +kernel, by decide +kernel, by decide +kernel, by decide +kernel⟩
  have hchildren : matchedSum.rootNode.children = [.node sumInMatch, .value (.sym "=~"),
      .node ⟨5, by decide +kernel⟩] := by
    decide +kernel
  exact ⟨by decide +kernel, .received (by decide +kernel) hchildren (by decide) hregexp,
    .operator (isInfixOf_iff.1 (by decide +kernel)), by decide +kernel, matchedSum_corrections⟩

end
end Rule
end RubyLint
