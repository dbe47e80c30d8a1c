import RubyLint.Proofs.Literal.Blanks
import RubyLint.Proofs.Literal.Quoting
import RubyLint.Proofs.Pattern.Match
import RubyLint.Proofs.Rule.Calls
import RubyLint.Proofs.Rule.Unreadable

/-!
# Splits at a blank

A split at the string of one blank is a split at whole runs of blanks, and the rule about splits leaves the
regular expression alone where its body is a blank.  It does not ask whether the body denotes one.

* `SplitsAt`, `node?_splitAtRegexp_iff`   the calls that the rule is about, and how it finds them;
* `SplitsAtText`, `splitVerdict_writes`   where it writes a string, and which;
* `redundantSplitRegexpArgument_writes`   it writes a blank exactly for the other spellings of one;
* `escapedBlank_writes`      such as a blank behind a backslash.
-/

namespace RubyLint.Rule

open Literal
open Pattern (Captures Condition Derivation Setting)

/-! ## splits -/

section
variable {t : SyntaxTree} {n regexp : Node t} {body : List Char}

/-- A split at a regular expression without options that is written as one text. -/
structure SplitsAt (n regexp : Node t) : Prop where
  kind : n.kind = .send
  children : ∃ receiver, receiver ≠ .value .nil ∧
    n.children = [receiver, .value (.sym "split"), .node regexp]
  regexp_kind : regexp.kind = .regexp
  regexp_children : ∃ text options c, regexp.children = [.node text, .node options] ∧
    text.kind = .str ∧ text.children = [c] ∧ options.kind = .regexpOptions ∧ options.children = []

theorem holds_splitAtRegexp_iff {s : Setting} :
    splitAtRegexpCompiled.condition.Holds s (.node n) ↔ ∃ regexp, SplitsAt n regexp := by
  constructor
  · rintro ⟨m, hm, ⟨m', hm', hkind⟩, receiver, _, hchildren, hreceiver, name, _, rfl, hname, c, _, rfl,
      ⟨regexp, rfl, ⟨regexp', hregexp, hregexpKind⟩, c₁, _, hinside, htext, c₂, _, rfl, hoptions, rfl⟩,
      rfl⟩
    obtain ⟨text, rfl, ⟨text', htext, htextKind⟩, c₃, _, htextChildren, -, rfl⟩ := htext
    obtain ⟨options, rfl, ⟨options', hoptions, hoptionsKind⟩, hoptionsChildren⟩ := hoptions
    cases hm
    cases hm'
    cases hregexp
    cases htext
    cases hoptions
    obtain rfl := eq_sym_of_literal hname
    refine ⟨regexp, hkind, ⟨receiver, ?_, hchildren⟩, hregexpKind, text, options, c₃, hinside, htextKind,
      htextChildren, hoptionsKind, hoptionsChildren⟩
    rintro rfl
    exact hreceiver rfl
  · rintro ⟨regexp, hkind, ⟨receiver, hreceiver, hchildren⟩, hregexpKind, text, options, c, hinside,
      htextKind, htextChildren, hoptionsKind, hoptionsChildren⟩
    refine ⟨n, rfl, ⟨n, rfl, hkind⟩, receiver, _, hchildren, fun h => hreceiver (eq_value_nil_of_absent h),
      _, _, rfl, ⟨_, rfl, rfl⟩, _, _, rfl, ⟨regexp, rfl, ⟨regexp, rfl, hregexpKind⟩, _, _, hinside,
      ⟨text, rfl, ⟨text, rfl, htextKind⟩, _, _, htextChildren, trivial, rfl⟩, _, _, rfl,
      ⟨options, rfl, ⟨options, rfl, hoptionsKind⟩, hoptionsChildren⟩, rfl⟩, rfl⟩

theorem SplitsAt.unique {regexp' : Node t} (h : SplitsAt n regexp) (h' : SplitsAt n regexp') :
    regexp = regexp' := by
  obtain ⟨receiver, -, hchildren⟩ := h.children
  obtain ⟨receiver', -, hchildren'⟩ := h'.children
  rw [hchildren] at hchildren'
  injection hchildren' with _ hchildren'
  injection hchildren' with _ hchildren'
  injection hchildren' with hregexp _
  exact NodeChild.node.inj hregexp

theorem neverFails_empty : Pattern.Environment.empty.NeverFails := fun _ _ h => nomatch h

theorem exists_node?_of_match {caps : Captures t} (hm : splitAtRegexp.match? n = some caps) :
    ∃ regexp, SplitsAt n regexp ∧ caps.node? 0 = some regexp := by
  obtain ⟨d, hd, hcaps⟩ := splitAtRegexpCompiled.exists_derives hm
  obtain ⟨regexp, h⟩ := holds_splitAtRegexp_iff.1 hd.holds
  obtain ⟨k, a, b, c, e, f, g, hn, -, hchildren, ha, hb, hc, hbindings⟩ := hd.triple_inv
  obtain rfl := NodeChild.node.inj hn
  have he := Condition.bindings_eq_nil ha rfl
  have hf := Condition.bindings_eq_nil hb rfl
  obtain ⟨-, hg⟩ := capture_inv hc rfl
  have hget : caps.get? 0 = some (.single c) := by
    rw [hcaps, hbindings, he, hf, hg]
    rfl
  obtain ⟨receiver, -, hchildren'⟩ := h.children
  rw [hchildren'] at hchildren
  injection hchildren with _ hchildren
  injection hchildren with _ hchildren
  injection hchildren with hc _
  refine ⟨regexp, h, ?_⟩
  rw [Captures.node?, hget, ← hc]
  rfl

/-- the pattern matches exactly these calls, and captures the regular expression -/
theorem node?_splitAtRegexp_iff :
    (splitAtRegexp.match? n).bind (·.node? 0) = some regexp ↔ SplitsAt n regexp := by
  constructor
  · intro h
    obtain ⟨caps, hm, hregexp⟩ := Option.bind_eq_some_iff.1 h
    obtain ⟨regexp', h, hregexp'⟩ := exists_node?_of_match hm
    exact Option.some.inj (hregexp'.symm.trans hregexp) ▸ h
  · intro h
    have hholds := holds_splitAtRegexp_iff (s := ⟨.empty, []⟩).2 ⟨regexp, h⟩
    rw [← Condition.eq_of_agrees splitAtRegexpCompiled.agrees] at hholds
    have hsome := (Pattern.isSome_matchChild_iff splitAtRegexpCompiled.compile_eq neverFails_empty
      (by rw [Condition.eq_of_agrees splitAtRegexpCompiled.agrees]; rfl) (.node n)).2 hholds
    obtain ⟨caps, hm⟩ := Option.isSome_iff_exists.1 hsome
    obtain ⟨regexp', h', hregexp'⟩ := exists_node?_of_match hm
    exact Option.bind_eq_some_iff.2 ⟨caps, hm, h'.unique h ▸ hregexp'⟩

/-! ## what the rule writes -/

theorem slashedBody?_eq_some_iff {cs : List Char} :
    slashedBody? cs = some body ↔ cs = '/' :: body ++ ['/'] := by
  constructor
  · intro h
    unfold slashedBody? at h
    split at h
    · next rest =>
      obtain ⟨hlast, hbody⟩ := Option.ite_none_right_eq_some.1 h
      rw [← Option.some.inj hbody, List.cons_append, List.dropLast_append_getLast? _ hlast]
    · cases h
  · rintro rfl
    show (if (body ++ ['/']).getLast? = some '/' then some (body ++ ['/']).dropLast else none) = _
    rw [List.getLast?_concat, if_pos rfl, List.dropLast_concat]

/-- The regular expression stands for one text, and is written between slashes.  A blank is left alone. -/
structure SplitsAtText (n regexp : Node t) (body : List Char) : Prop extends SplitsAt n regexp where
  source : regexp.source? = some (String.ofList ('/' :: body ++ ['/']))
  isLiteral : isLiteralRegexp ('/' :: body ++ ['/']) = true
  ne_blank : body ≠ [' ']

def writtenFor (regexp : Node t) (body : List Char) : Finding :=
  .replacing regexp.span "Use string as argument instead of regexp." regexp.span
    (String.ofList (doubleQuoted (readEscapes body)))

theorem exists_splitsAtText_iff {text : String} (hsplits : SplitsAt n regexp)
    (htext : regexp.source? = some text) (f : Finding) :
    (∃ regexp body, SplitsAtText n regexp body ∧ f = writtenFor regexp body) ↔
      ∃ body, slashedBody? text.toList = some body ∧ isLiteralRegexp text.toList = true ∧
        body ≠ [' '] ∧ f = writtenFor regexp body := by
  constructor
  · rintro ⟨regexp', body, h, rfl⟩
    obtain rfl := hsplits.unique h.toSplitsAt
    have heq : text.toList = '/' :: body ++ ['/'] := by
      rw [Option.some.inj (htext.symm.trans h.source), String.toList_ofList]
    exact ⟨body, slashedBody?_eq_some_iff.2 heq, heq ▸ h.isLiteral, h.ne_blank, rfl⟩
  · rintro ⟨body, hbody, hliteral, hne, rfl⟩
    have heq := slashedBody?_eq_some_iff.1 hbody
    refine ⟨regexp, body, ⟨hsplits, ?_, heq ▸ hliteral, hne⟩, rfl⟩
    rw [htext, ← heq, String.ofList_toList]

/-- A string is written for exactly these calls. -/
theorem splitVerdict_writes (n : Node t) : n.Reads (splitVerdict n) fun found =>
    ∀ f, found = some f ↔ ∃ regexp body, SplitsAtText n regexp body ∧ f = writtenFor regexp body := by
  rw [splitVerdict]
  split
  case h_2 hnone =>
    refine .ok fun f => iff_of_false (Option.some_ne_none f).symm ?_
    rintro ⟨regexp, body, h, -⟩
    exact hnone _ (node?_splitAtRegexp_iff.2 h.toSplitsAt)
  next regexp hregexp =>
  have hsplits := node?_splitAtRegexp_iff.1 hregexp
  obtain ⟨receiver, -, hchildren⟩ := hsplits.children
  have hcovers : n.Covers regexp :=
    .through (Node.mem_childNodes_of_childNode? (Node.childNode?_two hchildren)) (.self regexp)
  refine Node.Reads.bind (.text hcovers) fun text htext => ?_
  simp only [exists_splitsAtText_iff hsplits htext]
  split
  · next hliteral =>
    refine .ok fun f => iff_of_false (Option.some_ne_none f).symm ?_
    rintro ⟨_, -, h, -⟩
    rw [h] at hliteral
    cases hliteral
  next hliteral =>
  rw [Bool.not_eq_true', Bool.not_eq_false] at hliteral
  split
  case h_2 hnone =>
    refine .ok fun f => iff_of_false (Option.some_ne_none f).symm ?_
    rintro ⟨body, hbody, -⟩
    exact hnone _ hbody
  next body hbody =>
  split
  · next hblank =>
    refine .ok fun f => iff_of_false (Option.some_ne_none f).symm ?_
    rintro ⟨body', hbody', -, hne, -⟩
    exact hne (Option.some.inj (hbody'.symm.trans hbody) ▸ hblank)
  · next hblank =>
    refine .ok fun f => ⟨fun h => ⟨body, hbody, hliteral, hblank, (Option.some.inj h).symm⟩, ?_⟩
    rintro ⟨body', hbody', -, -, rfl⟩
    rw [Option.some.inj (hbody'.symm.trans hbody)]
    rfl

/-- **What a split is made to split at.**  At every node of every tree the rule has an answer, unless a span
there does not cut the text.  It writes a string in the place of the regular expression, for the text that
its body denotes; a body of one blank is left alone.  The string is that of one blank exactly if the body is
another spelling of a blank, and for each such spelling it is written. -/
theorem redundantSplitRegexpArgument_writes (context : RuleContext) (n : Node t) :
    n.Reads (redundantSplitRegexpArgument.evaluate context n).offenses fun os =>
      (∀ o ∈ os, ∃ regexp body literal, SplitsAtText n regexp body ∧ o.span = regexp.span ∧
        o.correction = some ⟨[⟨regexp.span, literal⟩]⟩ ∧
        Ruby.stringValue literal.toList = readEscapes body ∧
        (Ruby.stringValue literal.toList = [' '] ↔ SpellsBlank body)) ∧
      ∀ regexp body, SplitsAt n regexp → regexp.source? = some (String.ofList ('/' :: body ++ ['/'])) →
        SpellsBlank body → body ≠ [' '] → ∃ o ∈ os, ∃ literal,
          o.correction = some ⟨[⟨regexp.span, literal⟩]⟩ ∧
          Ruby.stringValue literal.toList = [' '] := by
  have hvalue : ∀ body, Ruby.stringValue (String.ofList (doubleQuoted (readEscapes body))).toList =
      readEscapes body := fun body => by
    rw [String.toList_ofList, stringValue_doubleQuoted]
  refine (offenses_of_reads rfl (splitVerdict_writes n)).imp fun os ⟨found, hfound, hos⟩ => ⟨?_, ?_⟩
  · intro o ho
    obtain ⟨f, hf, rfl⟩ := List.mem_map.1 (hos ▸ ho)
    obtain ⟨regexp, body, hsplits, rfl⟩ := (hfound f).1 (Option.mem_toList.1 hf)
    refine ⟨regexp, body, _, hsplits, rfl, rfl, hvalue body, ?_⟩
    rw [hvalue, readEscapes_eq_blank_iff (.of_isLiteralRegexp hsplits.isLiteral)]
  · intro regexp body hsplits hsource hblank hne
    have hwritten := (hfound _).2 ⟨regexp, body, ⟨hsplits, hsource, hblank.isLiteralRegexp, hne⟩, rfl⟩
    refine ⟨_, hos ▸ List.mem_map_of_mem (Option.mem_toList.2 hwritten), _, rfl, ?_⟩
    rw [hvalue, hblank.readEscapes_eq]

/-! ## a blank behind a backslash -/

def escapedBlank : SyntaxTree :=
  SyntaxTree.ofNode "a.split(/\\ /)" .send ⟨0, 13⟩
    ⟨some ⟨2, 7⟩, some ⟨1, 2⟩, some ⟨7, 8⟩, some ⟨12, 13⟩, none⟩ [
    .node .send ⟨0, 1⟩ ⟨some ⟨0, 1⟩, none, none, none, none⟩ [.value .nil, .value (.sym "a")],
    .value (.sym "split"),
    .node .regexp ⟨8, 12⟩ ⟨none, none, some ⟨8, 9⟩, some ⟨11, 12⟩, none⟩ [
      .node .str ⟨9, 11⟩ Loc.none [.value (.str "\\ ")],
      .node .regexpOptions ⟨12, 12⟩ Loc.none []]]

/-- The split at each blank becomes a split at whole runs of blanks. -/
theorem escapedBlank_writes : escapedBlank.WellFormed ∧
    ((redundantSplitRegexpArgument.evaluate Config.standard.context
      escapedBlank.rootNode).offenses.toOption.map fun os => os.map fun o => o.correction) =
      some [some ⟨[⟨⟨8, 12⟩, "\" \""⟩]⟩] ∧
    Ruby.stringValue "\" \"".toList = [' '] := by
  refine ⟨by decide +kernel, by decide +kernel, ?_⟩
  exact stringValue_doubleQuoted [' ']

end

end RubyLint.Rule
