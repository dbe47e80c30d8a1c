import RubyLint.Proofs.Literal.Deletion
import RubyLint.Proofs.Literal.Quoting
import RubyLint.Proofs.Rule.Calls

/-!
# Deletions for substitutions

`delete_prefix` and `delete_suffix` stand in for a substitution by nothing.  They do the same for every
subject exactly if the body asks for its text at the end of the subject; with the end of a line, which
is accepted as well, they do so for subjects of one line.

* `Deletes`              the calls that are replaced;
* `substituted`          what is left of a subject, by the method that is called;
* `deletion_agrees`      when the correction leaves the same of every subject.
-/

namespace RubyLint

open Literal (Side regexpItems readEscapes deleted)

namespace Literal.Side

def anchor : Side → Rule.Anchor
  | .front => .atStart
  | .back => .atEnd

/-- the rule that looks for anchors on this side -/
def rule : Side → Rule
  | .front => Rule.deletePrefix
  | .back => Rule.deleteSuffix

/-- the method that the rule puts in -/
def method : Side → String
  | .front => "delete_prefix"
  | .back => "delete_suffix"

end Literal.Side

namespace Rule

/-- a substitution of a regular expression, with this body and without options, by the empty text -/
structure Deletes {t : SyntaxTree} (n receiver : Node t) (method body : String) : Prop where
  kind : n.kind = .send
  named : method ∈ deletionMethods
  exists_children : ∃ regexp text options replacement,
    n.children = [.node receiver, .value (.sym method), .node regexp, .node replacement] ∧
    regexp.kind = .regexp ∧ regexp.children = [.node text, .node options] ∧
    text.kind = .str ∧ text.children = [.value (.str body)] ∧
    options.kind = .regexpOptions ∧ options.children = [] ∧
    replacement.strValue? = some ""

theorem Deletes.children_eq {t : SyntaxTree} {n receiver : Node t} {method body : String}
    (h : Deletes n receiver method body) :
    n.childNode? 0 = some receiver ∧ n.child? 1 = some (.value (.sym method)) ∧
      ((n.childNode? 2).bind fun regexp => regexp.childNode? 0).bind Node.value? = some (.str body) := by
  obtain ⟨regexp, text, options, replacement, hchildren, -, hinside, -, hbody, -⟩ := h.exists_children
  refine ⟨Node.childNode?_zero hchildren, by rw [Node.child?, hchildren]; rfl, ?_⟩
  rw [Node.childNode?_two hchildren]
  show (regexp.childNode? 0).bind Node.value? = _
  rw [Node.childNode?_zero hinside]
  show text.value? = _
  rw [Node.value?, Node.child?, hbody]
  rfl

/-- what the method leaves of a subject, where it takes out what is matched; the methods with a mark
leave it in the subject itself -/
def substituted (method : String) (items : List Literal.Item) (subject : List Char) : List Char :=
  deleted (method == "gsub" || method == "gsub!") items [] subject

open Pattern (Condition Derivation Captures)

section
variable {t : SyntaxTree} {n : Node t}

theorem deletes_of_match {a : Anchor} {name : String} {pattern : Pattern}
    (w : Pattern.Compiled pattern) (hw : w.condition = deletionCondition name)
    (hask : ∀ c : NodeChild t, (⟨w.environment, []⟩ : Pattern.Setting).ask name [] c =
      .ok (c.asStr?.any fun body => a.accepts body.toList))
    {caps : Captures t} (hm : pattern.match? n = some caps) {receiver replacement : Node t}
    {method body : String} (hreceiver : caps.node? 0 = some receiver)
    (hmethod : caps.sym? 1 = some method) (hbody : caps.str? 2 = some body)
    (hreplacement : caps.node? 3 = some replacement) (hempty : replacement.strValue? = some "") :
    Deletes n receiver method body ∧ a.accepts body.toList = true := by
  obtain ⟨d, hd, hcaps⟩ := w.exists_derives hm
  rw [hw] at hd
  obtain ⟨m, ds, hn, hkind, hds, hbindings⟩ := hd.exactlyKind_inv
  obtain rfl := NodeChild.node.inj hn
  obtain ⟨c₀, rest, e₀, es, hchildren, rfl, hfirst, hrest⟩ := hds.cons_inv
  obtain ⟨c₁, rest, e₁, es, rfl, rfl, hsecond, hrest⟩ := hrest.cons_inv
  obtain ⟨c₂, rest, e₂, es, rfl, rfl, hthird, hrest⟩ := hrest.cons_inv
  obtain ⟨c₃, rest, e₃, es, rfl, rfl, hfourth, hrest⟩ := hrest.cons_inv
  obtain ⟨rfl, rfl⟩ := hrest.nil_inv
  obtain ⟨-, he₀⟩ := capture_inv hfirst rfl
  obtain ⟨hnamed, he₁⟩ := capture_inv hsecond rfl
  obtain ⟨-, he₃⟩ := capture_inv hfourth rfl
  obtain ⟨regexp, ds₂, rfl, hregexp, hds₂, he₂⟩ := hthird.exactlyKind_inv
  obtain ⟨c₄, rest, e₄, es, hinside, rfl, htext, hrest⟩ := hds₂.cons_inv
  obtain ⟨c₅, rest, e₅, es, rfl, rfl, hoptions, hrest⟩ := hrest.cons_inv
  obtain ⟨rfl, rfl⟩ := hrest.nil_inv
  obtain ⟨text, ds₄, rfl, htextKind, hds₄, he₄⟩ := htext.exactlyKind_inv
  obtain ⟨options, ds₅, rfl, hoptionsKind, hds₅, he₅⟩ := hoptions.exactlyKind_inv
  obtain ⟨c₆, rest, e₆, es, htextChildren, rfl, hvalue, hrest⟩ := hds₄.cons_inv
  obtain ⟨rfl, rfl⟩ := hrest.nil_inv
  obtain ⟨hoptionsChildren, rfl⟩ := hds₅.nil_inv
  obtain ⟨haccepted, he₆⟩ := capture_inv hvalue rfl
  have hget : ∀ slot, caps.get? slot = Captures.lastOf
      [⟨0, .single c₀⟩, ⟨1, .single c₁⟩, ⟨2, .single c₆⟩, ⟨3, .single c₃⟩] slot := by
    intro slot
    rw [hcaps, hbindings]
    simp only [Derivation.bindingsEach, he₀, he₁, he₂, he₃, he₄, he₅, he₆]
    rfl
  obtain rfl := eq_node_of_get? (hget 0) hreceiver
  obtain rfl := eq_sym_of_get? (hget 1) hmethod
  obtain rfl := eq_str_of_get? (hget 2) hbody
  obtain rfl := eq_node_of_get? (hget 3) hreplacement
  refine ⟨⟨hkind, ?_, regexp, text, options, replacement, hchildren, hregexp, hinside, htextKind,
    htextChildren, hoptionsKind, hoptionsChildren, hempty⟩, ?_⟩
  · have hnames : (Condition.union [.literal (.sym "gsub"), .literal (.sym "gsub!"),
        .literal (.sym "sub"), .literal (.sym "sub!")]).namesOnly deletionMethods = true := rfl
    obtain ⟨other, hother, hsym⟩ := Condition.exists_name_of_holds hnames hnamed
    injection hsym with hsym
    injection hsym with hsym
    exact hsym ▸ hother
  · change (⟨w.environment, []⟩ : Pattern.Setting).ask name [] _ = .ok true at haccepted
    rw [hask] at haccepted
    exact Except.ok.inj haccepted

/-- How far taking a text from an end leaves the same as the method that is called. -/
structure Agrees (side : Side) (method : String) (items : List Literal.Item) (v : List Char) :
    Prop where
  always_iff : (∀ subject, substituted method items subject = side.withoutText v subject) ↔
    items = side.attach [.edge side.textEdge] (v.map .char) ∨ v = []
  inLine : ∀ e, (e = side.textEdge ∨ e = side.lineEdge) → items = side.attach [.edge e] (v.map .char) →
    ∀ subject, '\n' ∉ subject → substituted method items subject = side.withoutText v subject

theorem agrees_of_accepts {side : Side} {body : List Char} (method : String)
    (haccepts : side.accepts body = true) {items : List Literal.Item}
    (hitems : regexpItems body = .ok items) :
    Agrees side method items (readEscapes (side.strip body)) where
  always_iff := Literal.deleted_eq_iff haccepts hitems _
  inLine := by
    rintro e he rfl subject hline
    exact Literal.deleted_eq_of_line he _ _ hline

/-- The finding puts a deletion in the place of the call; its literal denotes the text of the body. -/
def PutsIn (n : Node t) (side : Side) (f : Finding) : Prop :=
  ∃ receiver method body subject literal, Deletes n receiver method body ∧
    side.accepts body.toList = true ∧ receiver.source? = some subject ∧
    f.correction = some ⟨[⟨n.span,
      subject ++ "." ++ (side.method ++ bangOf method) ++ "(" ++ literal ++ ")"⟩]⟩ ∧
    Ruby.stringValue literal.toList = readEscapes (side.strip body.toList)

theorem deletionVerdict_putsIn (ht : t.WellFormed) (side : Side) {pattern : Pattern} {name : String}
    (w : Pattern.Compiled pattern) (hw : w.condition = deletionCondition name)
    (hask : ∀ c : NodeChild t, (⟨w.environment, []⟩ : Pattern.Setting).ask name [] c =
      .ok (c.asStr?.any fun body => side.anchor.accepts body.toList)) (n : Node t) :
    Verdict.Answers (PutsIn n side) (deletionVerdict side.anchor pattern side.method n) := by
  rw [deletionVerdict]
  split
  case h_2 => exact .nothing
  next caps hm =>
  split
  case h_2 => exact .nothing
  next receiver hreceiver =>
  split
  case h_2 => exact .nothing
  next method hmethod =>
  split
  case h_2 => exact .nothing
  next body hbody =>
  split
  case h_2 => exact .nothing
  next replacement hreplacement =>
  split
  case isTrue => exact .nothing
  next hempty =>
  obtain ⟨subject, hsubject⟩ := ht.exists_text receiver
  obtain ⟨hdeletes, haccepts⟩ := deletes_of_match w hw hask hm hreceiver hmethod hbody hreplacement
    (by simpa using hempty)
  rw [hsubject]
  refine .found ⟨receiver, method, body, subject, side.anchor.literalFor body, hdeletes, ?_, ?_, rfl, ?_⟩
  · cases side <;> exact haccepts
  · exact text_eq_ok hsubject
  · rw [Anchor.literalFor, String.toList_ofList, Literal.stringValue_singleOrDouble]
    cases side <;> rfl

theorem rule_putsIn (ht : t.WellFormed) (context : RuleContext) (side : Side) (n : Node t) :
    ∃ os, (side.rule.evaluate context n).offenses = .ok os ∧
      ∀ o ∈ os, ∃ f, PutsIn n side f ∧ o.correction = f.correction := by
  have hverdict : ∃ pattern, Verdict.Answers (PutsIn n side)
      (deletionVerdict side.anchor pattern side.method n) ∧ side.rule.evaluate context n =
      Evaluation.ofVerdict (fun f => f.toOffense side.rule.id .warning t.source.toList)
        (deletionVerdict side.anchor pattern side.method n) := by
    cases side with
    | front => exact ⟨_, deletionVerdict_putsIn ht .front deletionAtStartCompiled rfl (fun _ => rfl) n, rfl⟩
    | back => exact ⟨_, deletionVerdict_putsIn ht .back deletionAtEndCompiled rfl (fun _ => rfl) n, rfl⟩
  obtain ⟨pattern, hanswers, heval⟩ := hverdict
  obtain ⟨os, hos, hall⟩ := exists_offenses_ofVerdict hanswers
  refine ⟨os, heval ▸ hos, fun o ho => ?_⟩
  obtain ⟨f, hf, rfl⟩ := hall o ho
  exact ⟨f, hf, rfl⟩

/-- **When a deletion stands in for a substitution.**  In a well-formed tree the two rules have an answer
at every node.  Each of their corrections replaces a substitution by nothing by a deletion.  If the body
is a regular expression at all, then

* both leave the same of every subject exactly if the body asks for the text of the literal at the end of
  the subject, that is by `\A` or `\z`, or if that text is empty;
* by `^` or `$`, both leave the same of subjects of one line. -/
theorem deletion_agrees (ht : t.WellFormed) (context : RuleContext) (side : Side) (n : Node t) :
    ∃ os, (side.rule.evaluate context n).offenses = .ok os ∧
      ∀ o ∈ os, ∃ receiver method body subject literal, Deletes n receiver method body ∧
        side.accepts body.toList = true ∧ receiver.source? = some subject ∧
        o.correction = some ⟨[⟨n.span,
          subject ++ "." ++ (side.method ++ bangOf method) ++ "(" ++ literal ++ ")"⟩]⟩ ∧
        (regexpItems body.toList = .error .refused ∨ ∃ items, regexpItems body.toList = .ok items ∧
          Agrees side method items (Ruby.stringValue literal.toList)) := by
  obtain ⟨os, hos, hall⟩ := rule_putsIn ht context side n
  refine ⟨os, hos, fun o ho => ?_⟩
  obtain ⟨f, ⟨receiver, method, body, subject, literal, hdeletes, haccepts, hsubject, hcorrection,
    hliteral⟩, heq⟩ := hall o ho
  refine ⟨receiver, method, body, subject, literal, hdeletes, haccepts, hsubject,
    heq.trans hcorrection, ?_⟩
  obtain hrefused | ⟨e, as, asked, -, -, -, -, hitems⟩ := Literal.regexpItems_of_accepts haccepts
  · exact .inl hrefused
  · exact .inr ⟨_, hitems, hliteral ▸ agrees_of_accepts method haccepts hitems⟩

end

/-! ## substitutions with either anchor -/

def substitutedAtText : SyntaxTree :=
  SyntaxTree.ofNode "str.gsub!(/\\Aab/, '')" .send ⟨0, 21⟩
    ⟨some ⟨4, 9⟩, some ⟨3, 4⟩, some ⟨9, 10⟩, some ⟨20, 21⟩, none⟩ [
    .node .send ⟨0, 3⟩ ⟨some ⟨0, 3⟩, none, none, none, none⟩ [.value .nil, .value (.sym "str")],
    .value (.sym "gsub!"),
    .node .regexp ⟨10, 16⟩ ⟨none, none, some ⟨10, 11⟩, some ⟨15, 16⟩, none⟩ [
      .node .str ⟨11, 15⟩ Loc.none [.value (.str "\\Aab")],
      .node .regexpOptions ⟨16, 16⟩ Loc.none []],
    .node .str ⟨18, 20⟩ ⟨none, none, some ⟨18, 19⟩, some ⟨19, 20⟩, none⟩ [.value (.str "")]]

theorem substitutedAtText_agrees : substitutedAtText.WellFormed ∧
    ∃ (n : Node substitutedAtText) (os : List Offense) (o : Offense),
      (deletePrefix.evaluate Config.standard.context n).offenses = .ok os ∧ o ∈ os ∧
      o.correction = some ⟨[⟨⟨0, 21⟩, "str.delete_prefix!('ab')"⟩]⟩ ∧
      ∃ items, regexpItems "\\Aab".toList = .ok items ∧
        ∀ subject, substituted "gsub!" items subject = Side.front.withoutText "ab".toList subject := by
  have ht : substitutedAtText.WellFormed := by decide +kernel
  let n : Node substitutedAtText := ⟨5, by decide +kernel⟩
  have hfound : ((deletePrefix.evaluate Config.standard.context n).offenses.toOption.map
      fun os => os.map fun o => o.correction) =
      some [some ⟨[⟨⟨0, 21⟩, "str.delete_prefix!('ab')"⟩]⟩] := by
    decide +kernel
  obtain ⟨os, hos, hall⟩ := deletion_agrees ht Config.standard.context .front n
  change (deletePrefix.evaluate Config.standard.context n).offenses = .ok os at hos
  rw [hos] at hfound
  have hcorrections : os.map (fun o => o.correction) = _ := Option.some.inj hfound
  obtain ⟨o, rfl, hcorrection⟩ := List.map_eq_singleton_iff.1 hcorrections
  refine ⟨ht, n, _, o, hos, List.mem_cons_self, hcorrection, ?_⟩
  obtain ⟨receiver, method, body, subject, literal, hdeletes, -, hsubject, hwhole, hagrees⟩ :=
    hall o List.mem_cons_self
  -- what is replaced, and by which literal
  obtain ⟨hreceiver, hmethod, hbody⟩ := hdeletes.children_eq
  have hvalues : n.child? 1 = some (.value (.sym "gsub!")) ∧ (n.childNode? 0).bind Node.source? =
      some "str" ∧ ((n.childNode? 2).bind fun regexp => regexp.childNode? 0).bind Node.value? =
      some (.str "\\Aab") := by decide +kernel
  rw [hmethod, hreceiver, hbody] at hvalues
  obtain ⟨hmethod', hsubject', hbody'⟩ := hvalues
  obtain rfl : method = "gsub!" := by simpa using hmethod'
  obtain rfl : body = "\\Aab" := by simpa using hbody'
  obtain rfl : subject = "str" := Option.some.inj (hsubject.symm.trans hsubject')
  have hliteral : literal.toList = "'ab'".toList := by
    rw [hcorrection] at hwhole
    injection hwhole with hwhole
    injection hwhole with hwhole
    injection hwhole with hwhole
    injection hwhole with _ hwhole
    have hchars := congrArg String.toList hwhole
    simp only [String.toList_append] at hchars
    have hcut : "str.delete_prefix!('ab')".toList = "str".toList ++ ".".toList ++
        (Side.front.method.toList ++ (bangOf "gsub!").toList) ++ "(".toList ++ "'ab'".toList ++
        ")".toList := by decide +kernel
    exact (List.append_cancel_left (List.append_cancel_right (hcut.symm.trans hchars))).symm
  have hdenoted : Ruby.stringValue "'ab'".toList = "ab".toList := by decide +kernel
  rw [hliteral, hdenoted] at hagrees
  obtain hrefused | ⟨items, hitems, hall⟩ := hagrees
  · have hok : (regexpItems "\\Aab".toList).toOption.isSome = true := by decide +kernel
    rw [hrefused] at hok
    cases hok
  · refine ⟨items, hitems, hall.always_iff.2 (.inl ?_)⟩
    have hvalue : (regexpItems "\\Aab".toList).toOption =
        some (Side.front.attach [.edge .textStart] ("ab".toList.map .char)) := by
      decide +kernel
    rw [hitems] at hvalue
    exact Option.some.inj hvalue

def substitutedAtLine : SyntaxTree :=
  SyntaxTree.ofNode "str.sub(/^foo/, '')" .send ⟨0, 19⟩
    ⟨some ⟨4, 7⟩, some ⟨3, 4⟩, some ⟨7, 8⟩, some ⟨18, 19⟩, none⟩ [
    .node .send ⟨0, 3⟩ ⟨some ⟨0, 3⟩, none, none, none, none⟩ [.value .nil, .value (.sym "str")],
    .value (.sym "sub"),
    .node .regexp ⟨8, 14⟩ ⟨none, none, some ⟨8, 9⟩, some ⟨13, 14⟩, none⟩ [
      .node .str ⟨9, 13⟩ Loc.none [.value (.str "^foo")],
      .node .regexpOptions ⟨14, 14⟩ Loc.none []],
    .node .str ⟨16, 18⟩ ⟨none, none, some ⟨16, 17⟩, some ⟨17, 18⟩, none⟩ [.value (.str "")]]

/-- The correction counts as safe, and leaves more of a text with a second line. -/
theorem substitutedAtLine_differs : deletePrefix.isSafe = true ∧ substitutedAtLine.WellFormed ∧
    (∃ n : Node substitutedAtLine, n.source? = some "str.sub(/^foo/, '')" ∧
      ((deletePrefix.evaluate Config.standard.context n).offenses.toOption.map
        fun os => os.map fun o => o.correction) =
        some [some ⟨[⟨⟨0, 19⟩, "str.delete_prefix('foo')"⟩]⟩]) ∧
    Ruby.stringValue "'foo'".toList = "foo".toList ∧
    (regexpItems "^foo".toList).toOption.map (fun items => substituted "sub" items "a\nfoo".toList) =
      some "a\n".toList ∧
    Side.front.withoutText "foo".toList "a\nfoo".toList = "a\nfoo".toList := by
  refine ⟨rfl, by decide +kernel, ⟨⟨5, by decide +kernel⟩, by decide +kernel, by decide +kernel⟩,
    by decide +kernel, by decide +kernel, by decide +kernel⟩

end Rule

end RubyLint
