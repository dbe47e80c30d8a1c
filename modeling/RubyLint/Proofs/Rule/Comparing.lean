import Mathlib.Data.Option.Basic
import RubyLint.Proofs.Rule.Chains
import RubyLint.Proofs.Rule.Pushing
import RubyLint.Proofs.Rule.Unreadable
import RubyLint.Rule.Number

/-!
# Comparisons in the place of calls

A question for the sign of a number, and the question whether a module is among the ancestors of
another, are written anew as a comparison.  A call is one operand wherever it stands; a comparison is
not, where it is the receiver of a call or stands beside an operator that binds as tightly.

* `asTightAs`            the operators that bind at least as tightly as one that compares;
* `Node.IsDrawnInto`     the places where the call is taken apart, once it is written with an operator;
* `Compares`             what each rule compares, and how;
* `comparison_bare_in_place`   the comparison is written without parentheses, and so it keeps to itself
                         exactly where it is not drawn into anything.
-/

namespace RubyLint

/-- The call is drawn into what is around it, once it is written with an operator that is among the
given ones: as the receiver of a call, a prefixed operator among them, or as an operand of one of the
operators. -/
inductive Node.IsDrawnInto {t : SyntaxTree} (n : Node t) (operators : List String) : Prop
  | receiver {around : Node t} (h : around.receiver? = some n)
  | operand {around : Node t} (hn : n ∈ around.childNodes) (h : around.IsInfix operators)
  /-- a match that assigns its named groups is written with an operator, but it is no call -/
  | matched {around : Node t} (hn : n ∈ around.childNodes) (hkind : around.kind = .matchAssign)
      (h : "=~" ∈ operators)

namespace Rule

open Pattern (Captures Condition Derivation)

/-! ## operators -/

def equalityOperators : List String := ["==", "!=", "===", "=~", "!~", "<=>"]

def orderOperators : List String := ["<", "<=", ">", ">="]

def bitOperators : List String := ["|", "^", "&"]

/-- The infix operators that bind at least as tightly as the given one, which compares: equality is
looser than order. -/
def asTightAs (operator : String) : List String :=
  (if operator ∈ equalityOperators then equalityOperators else []) ++ orderOperators ++
    bitOperators ++ tightOperators

def compared (left operator right : String) : String := left ++ " " ++ operator ++ " " ++ right

section
variable {t : SyntaxTree} {n : Node t} {caps : Captures t}

/-! ## what is compared -/

/-- the node asks for the sign of the receiver; whether it is zero, of a number only -/
structure AsksForSign (n receiver : Node t) (question : String) : Prop where
  kind : n.kind = .send
  children : n.children = [.node receiver, .value (.sym question)]
  question : question ∈ ["negative?", "positive?"] ∨
    question = "zero?" ∧ receiver.kind.isNumeric = true

/-- the node asks whether the module is among the ancestors of what the child stands for -/
structure AsksForAncestor (n : Node t) (c : NodeChild t) (superclass : Node t) : Prop where
  kind : n.kind = .send
  exists_ancestry : ∃ ancestry,
    n.children = [.node ancestry, .value (.sym "include?"), .node superclass] ∧
    ancestry.kind = .send ∧ ancestry.children = [c, .value (.sym "ancestors")]

theorem AsksForSign.covers {receiver : Node t} {question : String}
    (h : AsksForSign n receiver question) : n.Covers receiver :=
  .through (Node.mem_childNodes.2 (by simp [h.children])) (.self receiver)

theorem AsksForAncestor.covers {c : NodeChild t} {superclass : Node t}
    (h : AsksForAncestor n c superclass) :
    n.Covers superclass ∧ ∀ m, c = .node m → n.Covers m := by
  obtain ⟨ancestry, hchildren, -, hancestry⟩ := h.exists_ancestry
  have ha : ancestry ∈ n.childNodes := Node.mem_childNodes.2 (by simp [hchildren])
  have hs : superclass ∈ n.childNodes := Node.mem_childNodes.2 (by simp [hchildren])
  refine ⟨.through hs (.self superclass), ?_⟩
  rintro m rfl
  exact .through ha (.through (Node.mem_childNodes.2 (by simp [hancestry])) (.self m))

/-- the text of a receiver; without one, the receiver is what is spoken of all along -/
inductive ReceiverText : NodeChild t → String → Prop
  | written {m : Node t} {text : String} (h : m.source? = some text) : ReceiverText (.node m) text
  | itself (v : Value) : ReceiverText (.value v) "self"

/-- What a rule compares in the place of the node: the two sides, and the operator between them. -/
inductive Compares (n : Node t) : Rule → String → String → String → Prop
  | sign {receiver : Node t} {question subject : String} (h : AsksForSign n receiver question)
      (hsubject : receiver.source? = some subject) :
      Compares n numericPredicate subject (signOperator question)
        (if receiver.kind = .float then "0.0" else "0")
  | ancestor {c : NodeChild t} {superclass : Node t} {left right : String}
      (h : AsksForAncestor n c superclass) (hleft : ReceiverText c left)
      (hright : superclass.source? = some right) : Compares n ancestorsIncludeRule left "<=" right

def signOfLiteralCompiled : Pattern.Compiled signOfLiteral := .ofText
  (.exactly (.kind .send) [
    .capture 0 (.builtin .numeric),
    .capture 1 (.union [.literal (.sym "negative?"), .literal (.sym "positive?"),
      .literal (.sym "zero?")])])
  (by decide +kernel)

def signOfReceiverCompiled : Pattern.Compiled signOfReceiver := .ofText
  (.exactly (.kind .send) [
    .capture 0 (.negation (.builtin .absent)),
    .capture 1 (.union [.literal (.sym "negative?"), .literal (.sym "positive?")])])
  (by decide +kernel)

theorem asksForSign_of_match {receiver : Node t} {question : String}
    (hm : (signOfLiteral.match? n <|> signOfReceiver.match? n) = some caps)
    (hreceiver : caps.node? 0 = some receiver) (hquestion : caps.sym? 1 = some question) :
    AsksForSign n receiver question := by
  rcases (Option.orElse_eq_some _ _ _).1 hm with hm | ⟨-, hm⟩
  · obtain ⟨d, hd, hcaps⟩ := signOfLiteralCompiled.exists_derives hm
    obtain ⟨a, b, hkind, hchildren, hnumber, hnamed, ha, hb⟩ := exists_captured_pair hd rfl rfl hcaps
    obtain rfl := eq_node_of_get? ha hreceiver
    obtain rfl := eq_sym_of_get? hb hquestion
    have hname : question ∈ ["negative?", "positive?", "zero?"] :=
      Condition.mem_names_of_holds rfl hnamed
    refine ⟨hkind, hchildren, ?_⟩
    rcases List.mem_cons.1 hname with rfl | hname
    · exact .inl List.mem_cons_self
    rcases List.mem_cons.1 hname with rfl | hname
    · exact .inl (List.mem_cons_of_mem _ List.mem_cons_self)
    · exact .inr ⟨List.mem_singleton.1 hname, hnumber⟩
  · obtain ⟨d, hd, hcaps⟩ := signOfReceiverCompiled.exists_derives hm
    obtain ⟨a, b, hkind, hchildren, -, hnamed, ha, hb⟩ := exists_captured_pair hd rfl rfl hcaps
    obtain rfl := eq_node_of_get? ha hreceiver
    obtain rfl := eq_sym_of_get? hb hquestion
    exact ⟨hkind, hchildren, .inl (Condition.mem_names_of_holds rfl hnamed)⟩

theorem asksForAncestor_of_match (hm : ancestorsInclude.match? n = some caps)
    {superclass : Node t}
    (hsuperclass : (caps.named? "superclass").bind (·.node?) = some superclass) :
    ∃ c, caps.named? "subclass" = some (.single c) ∧ AsksForAncestor n c superclass := by
  have hnames : caps.names = [("subclass", 0), ("superclass", 1)] :=
    (Pattern.names_of_matchChild hm).trans (Pattern.names_ofText (by decide +kernel))
  have hnamed : caps.named? "subclass" = caps.get? 0 ∧ caps.named? "superclass" = caps.get? 1 := by
    unfold Captures.named?
    rw [hnames]
    exact ⟨rfl, rfl⟩
  obtain ⟨d, hd, hcaps⟩ := ancestorsIncludeCompiled.exists_derives hm
  obtain ⟨k, a, b, x, e, f, g, hn, hkind, hchildren, ha, hb, hx, hbindings⟩ := hd.triple_inv
  obtain rfl := NodeChild.node.inj hn
  obtain ⟨ancestry, c, o, e₁, e₂, rfl, hancestry, hancestryChildren, hc, ho, he⟩ := ha.pair_inv
  obtain ⟨-, hc'⟩ := capture_inv hc rfl
  obtain ⟨-, hx'⟩ := capture_inv hx rfl
  obtain ⟨name, hname, rfl⟩ : ∃ name ∈ ["include?"], b = .value (.sym name) :=
    Condition.exists_name_of_holds rfl hb.holds
  obtain ⟨name', hname', rfl⟩ : ∃ name ∈ ["ancestors"], o = .value (.sym name) :=
    Condition.exists_name_of_holds rfl ho.holds
  obtain rfl := List.mem_singleton.1 hname
  obtain rfl := List.mem_singleton.1 hname'
  rw [he, hc', hx', Condition.bindings_eq_nil ho rfl, Condition.bindings_eq_nil hb rfl]
    at hbindings
  have hfirst : caps.get? 0 = some (.single c) := by
    rw [hcaps, hbindings]
    rfl
  have hsecond : caps.get? 1 = some (.single x) := by
    rw [hcaps, hbindings]
    rfl
  rw [hnamed.2] at hsuperclass
  obtain rfl := eq_node_of_get? hsecond hsuperclass
  exact ⟨c, hnamed.1.trans hfirst, hkind, ancestry, hchildren, hancestry, hancestryChildren⟩

/-! ## the rules -/

/-- The finding puts the comparison in the place of the node. -/
def ComparesBare (r : Rule) (n : Node t) (f : Finding) : Prop :=
  ∃ left operator right, Compares n r left operator right ∧
    f.correction = some ⟨[⟨n.span, compared left operator right⟩]⟩

theorem signVerdict_answersIfRead (n : Node t) :
    Verdict.AnswersIfRead n (ComparesBare numericPredicate n) (signVerdict n) := by
  rw [signVerdict]
  split
  case h_2 => exact .nothing
  next caps hm =>
  split
  case h_2 => exact .nothing
  next receiver hreceiver =>
  split
  case h_2 => exact .nothing
  next question hquestion =>
  have hasks := asksForSign_of_match hm hreceiver hquestion
  refine .text hasks.covers fun subject hsubject => ?_
  refine .text (.self n) fun text _ => .found ?_
  exact ⟨subject, _, _, .sign hasks hsubject, rfl⟩

theorem ancestorsVerdict_answersIfRead (n : Node t) :
    Verdict.AnswersIfRead n (ComparesBare ancestorsIncludeRule n) (ancestorsVerdict n) := by
  rw [ancestorsVerdict]
  split
  case h_2 => exact .nothing
  next caps hm =>
  split
  case h_2 => exact .nothing
  next superclass hsuperclass =>
  obtain ⟨c, hc, hasks⟩ := asksForAncestor_of_match hm hsuperclass
  rw [hc]
  extract_lets answer
  have hanswer : ∀ subclass, ReceiverText c subclass →
      Verdict.AnswersIfRead n (ComparesBare ancestorsIncludeRule n) (answer subclass) := by
    intro subclass hsubclass
    unfold answer
    split
    case h_2 => exact .nothing
    split
    case h_2 => exact .nothing
    refine .text hasks.covers.1 fun text htext => .found ?_
    have hwritten : subclass ++ " <= " ++ text = compared subclass "<=" text := by
      have hoperator : " <= " = " " ++ "<=" ++ " " := rfl
      rw [hoperator, compared]
      simp only [String.append_assoc]
    exact ⟨subclass, "<=", text, .ancestor hasks hsubclass htext,
      congrArg (fun whole => some (⟨[⟨n.span, whole⟩]⟩ : Correction)) hwritten⟩
  cases c with
  | node m => exact .text (hasks.covers.2 m rfl) fun text htext => hanswer text (.written htext)
  | value v => exact hanswer "self" (.itself v)

/-- **A comparison in the place of a call is never put in parentheses.**  At every node of
every tree each of these rules has an answer, unless it meets a span there that does not cut the text.
What it answers replaces the node by the two sides as
they are written, with the operator between them.  So the comparison keeps to itself, in parentheses
where it needs them, exactly if it needs none: if the call is no receiver, and no operand of an operator
that binds at least as tightly as the one that compares. -/
theorem comparison_bare_in_place {r : Rule} (hr : r ∈ [numericPredicate, ancestorsIncludeRule])
    (context : RuleContext) (n : Node t) :
    n.Reads (r.evaluate context n).offenses fun os => ∀ o ∈ os,
      ∃ left operator right whole, Compares n r left operator right ∧
        o.correction = some ⟨[⟨n.span, whole⟩]⟩ ∧ whole = compared left operator right ∧
        ((n.IsDrawnInto (asTightAs operator) →
            whole = "(" ++ compared left operator right ++ ")") ↔
          ¬ n.IsDrawnInto (asTightAs operator)) := by
  have hverdict : ∃ id check, r.evaluate context n = Evaluation.ofVerdict
      (fun f => f.toOffense id .warning t.source.toList) check ∧
      Verdict.AnswersIfRead n (ComparesBare r n) check := by
    rcases List.mem_cons.1 hr with rfl | hr
    · exact ⟨_, _, rfl, signVerdict_answersIfRead n⟩
    · obtain rfl := List.mem_singleton.1 hr
      exact ⟨_, _, rfl, ancestorsVerdict_answersIfRead n⟩
  obtain ⟨id, check, hevaluate, hanswers⟩ := hverdict
  refine (offenses_of_answersIfRead hevaluate hanswers).imp fun os hall o ho => ?_
  obtain ⟨f, ⟨left, operator, right, hcompares, hcorrection⟩, -, hcorrection'⟩ := hall o ho
  exact ⟨left, operator, right, _, hcompares, hcorrection'.trans hcorrection, rfl,
    imp_enclosed_iff _⟩

/-! ## a question that is negated -/

/-- the sign `!` in front of the question whether a number is positive -/
def negatedQuestion : SyntaxTree :=
  SyntaxTree.ofNode "!x.positive?" .send ⟨0, 12⟩ ⟨some ⟨0, 1⟩, none, none, none, some ⟨0, 1⟩⟩ [
    .node .send ⟨1, 12⟩ ⟨some ⟨3, 12⟩, some ⟨2, 3⟩, none, none, none⟩ [
      .node .send ⟨1, 2⟩ ⟨some ⟨1, 2⟩, none, none, none, none⟩ [.value .nil, .value (.sym "x")],
      .value (.sym "positive?")],
    .value (.sym "!")]

def questionInNegation : Node negatedQuestion := ⟨1, by decide +kernel⟩

theorem questionInNegation_corrections :
    ((numericPredicate.evaluate Config.standard.context questionInNegation).offenses.toOption.map
      fun os => os.map fun o => o.correction) = some [some ⟨[⟨⟨1, 12⟩, "x > 0"⟩]⟩] := by
  decide +kernel

theorem questionInNegation_bare : negatedQuestion.WellFormed ∧
    ∃ os o left operator right,
      (numericPredicate.evaluate Config.standard.context questionInNegation).offenses = .ok os ∧
      o ∈ os ∧ Compares questionInNegation numericPredicate left operator right ∧
      o.correction = some ⟨[⟨⟨1, 12⟩, "x > 0"⟩]⟩ ∧ compared left operator right = "x > 0" := by
  have ht : negatedQuestion.WellFormed := by decide +kernel
  have hr : numericPredicate ∈ [numericPredicate, ancestorsIncludeRule] := List.mem_cons_self
  obtain ⟨os, hos, hall⟩ := Node.Reads.of_wellFormed ht
    (comparison_bare_in_place hr Config.standard.context questionInNegation)
  obtain ⟨o, rfl, hcorrection⟩ := exists_offense_of_corrections questionInNegation_corrections hos
  obtain ⟨left, operator, right, whole, hcompares, hwhole, rfl, -⟩ := hall o List.mem_cons_self
  exact ⟨ht, _, o, left, operator, right, hos, List.mem_cons_self, hcompares, hcorrection,
    replacement_inj (hwhole.symm.trans hcorrection)⟩

/-- The sign takes hold of the left side only. -/
theorem questionInNegation_drawnIn : negatedQuestion.WellFormed ∧
    AsksForSign questionInNegation ⟨0, by decide +kernel⟩ "positive?" ∧
    negatedQuestion.rootNode.receiver? = some questionInNegation ∧
    questionInNegation.IsDrawnInto (asTightAs ">") ∧
    ((numericPredicate.evaluate Config.standard.context questionInNegation).offenses.toOption.map
      fun os => os.map fun o => o.correction) = some [some ⟨[⟨⟨1, 12⟩, "x > 0"⟩]⟩] := by
  have hreceiver : negatedQuestion.rootNode.receiver? = some questionInNegation := by
    decide +kernel
  have hasks : AsksForSign questionInNegation ⟨0, by decide +kernel⟩ "positive?" :=
    ⟨by decide +kernel, by decide +kernel, .inl (by decide)⟩
  exact ⟨by decide +kernel, hasks, hreceiver, .receiver hreceiver, questionInNegation_corrections⟩

end
end Rule
end RubyLint
