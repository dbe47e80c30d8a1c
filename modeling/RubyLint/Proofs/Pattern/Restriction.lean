import RubyLint.Proofs.Pattern.Compiled
import RubyLint.Proofs.Pattern.Failure

/-!
# Matching with less

An environment restricts another if its predicates answer less often, and where they answer, the
same.  What is decided with less, predicates or placeholders, is decided in the same way with more.

* `Environment.Restricts`     an environment that answers less often;
* `Attempt.Restricts`         an attempt that answers less often;
* `restricts_attempt`         with less, a condition is decided the same, if it is;
* `compile_of_restricts`      the text of a pattern compiles to the same condition;
* `matchChild_of_restricts`   a match with less is a match with more, and has the same captures.
-/

namespace RubyLint.Pattern

/-- The predicates of the first environment answer only what those of the second do; the sets are
the same. -/
structure Environment.Restricts (env' env : Environment) : Prop where
  set?_eq : ∀ name, env'.set? name = env.set? name
  exists_predicate : ∀ name (ask' : Predicate), env'.predicate? name = some @ask' →
    ∃ ask : Predicate, env.predicate? name = some @ask ∧
      ∀ (t : SyntaxTree) (c : NodeChild t) (values : List Value) (b : Bool),
        ask' c values = .ok b → ask c values = .ok b

/-- The first setting has less than the second: its predicates answer less often, and placeholders
at the end stand for nothing. -/
structure Setting.Restricts (s' s : Setting) : Prop where
  environment : s'.environment.Restricts s.environment
  params : s'.params <+: s.params

/-! ## what is asked -/

namespace Setting.Restricts

variable {s' s : Setting}

theorem param (h : s'.Restricts s) {number : Nat} {p : Param} (hp : s'.param number = .ok p) :
    s.param number = .ok p := by
  obtain ⟨more, hmore⟩ := h.params
  unfold Setting.param at hp ⊢
  rw [← hmore]
  cases hget : s'.params[number - 1]? with
  | none =>
    rw [hget] at hp
    cases hp
  | some q =>
    obtain ⟨hlt, -⟩ := List.getElem?_eq_some_iff.1 hget
    rw [hget] at hp
    rw [List.getElem?_append_left hlt, hget]
    exact hp

theorem argument (h : s'.Restricts s) {a : Argument} {v : Value} (ha : s'.argument a = .ok v) :
    s.argument a = .ok v := by
  cases a with
  | value w => exact ha
  | param number =>
    obtain ⟨p, hp, hv⟩ := Compile.ok_of_bind ha
    show (s.param number >>= _) = .ok v
    rw [h.param hp]
    exact hv

theorem arguments (h : s'.Restricts s) {as : List Argument} {vs : List Value}
    (ha : as.mapM s'.argument = .ok vs) : as.mapM s.argument = .ok vs := by
  induction as generalizing vs with
  | nil => exact ha
  | cons a as ih =>
    rw [List.mapM_cons] at ha ⊢
    obtain ⟨v, hv, hrest⟩ := Compile.ok_of_bind ha
    obtain ⟨ws, hws, hvs⟩ := Compile.ok_of_bind hrest
    rw [h.argument hv, ih hws]
    exact hvs

theorem ask (h : s'.Restricts s) {t : SyntaxTree} {name : String} {as : List Argument}
    {c : NodeChild t} {b : Bool} (hb : s'.ask name as c = .ok b) : s.ask name as c = .ok b := by
  obtain ⟨values, ask', hvalues, hask', hanswer⟩ := Setting.ask_eq_ok_iff.1 hb
  obtain ⟨ask, hask, hsame⟩ := h.environment.exists_predicate name @ask' hask'
  exact Setting.ask_eq_ok_iff.2
    ⟨values, @ask, h.arguments hvalues, hask, hsame t c values b hanswer⟩

end Setting.Restricts

/-! ## attempts -/

namespace Attempt

variable {t : SyntaxTree}

/-- Where the first attempt answers, the second one does, and the same. -/
def Restricts (a' a : Attempt t) : Prop := ∀ log r, a' log = .ok r → a log = .ok r

variable {a a' b b' : Attempt t}

theorem Restricts.refl (a : Attempt t) : a.Restricts a := fun _ _ h => h

theorem restricts_ofAnswer {answer answer' : Except PredicateError Bool}
    (h : ∀ b, answer' = .ok b → answer = .ok b) :
    (ofAnswer answer' : Attempt t).Restricts (ofAnswer answer) := by
  intro log r hr
  cases answer' with
  | error e => cases hr
  | ok b =>
    rw [h b rfl]
    exact hr

theorem Restricts.both (ha : a'.Restricts a) (hb : b'.Restricts b) :
    (both a' b').Restricts (both a b) := by
  intro log r hr
  unfold Attempt.both at hr ⊢
  cases ha' : a' log with
  | error e =>
    rw [ha'] at hr
    cases hr
  | ok x =>
    rw [ha'] at hr
    rw [ha log x ha']
    obtain ⟨holds, log'⟩ := x
    cases holds with
    | true => exact hb log' r hr
    | false => exact hr

theorem Restricts.negate (ha : a'.Restricts a) : a'.negate.Restricts a.negate := by
  intro log r hr
  unfold Attempt.negate at hr ⊢
  cases ha' : a' log with
  | error e =>
    rw [ha'] at hr
    cases hr
  | ok x =>
    rw [ha'] at hr
    rw [ha log x ha']
    exact hr

theorem Restricts.orElseFrom (ha : a'.Restricts a) (hb : b'.Restricts b) (mark : Nat) :
    (orElseFrom mark a' b').Restricts (orElseFrom mark a b) := by
  intro log r hr
  unfold Attempt.orElseFrom at hr ⊢
  cases ha' : a' log with
  | error e =>
    rw [ha'] at hr
    cases hr
  | ok x =>
    rw [ha'] at hr
    rw [ha log x ha']
    obtain ⟨holds, log'⟩ := x
    cases holds with
    | true => exact hr
    | false => exact hb _ r hr

section
variable {α : Type} {f f' : α → Attempt t} {l : List α}

theorem restricts_firstOf (h : ∀ x ∈ l, (f' x).Restricts (f x)) (mark : Nat) :
    (firstOf f' mark l).Restricts (firstOf f mark l) := by
  induction l with
  | nil => exact .refl _
  | cons x l ih =>
    exact (h x List.mem_cons_self).orElseFrom (ih fun y hy => h y (List.mem_cons_of_mem _ hy)) mark

theorem restricts_forAll (h : ∀ x ∈ l, (f' x).Restricts (f x)) :
    (forAll f' l).Restricts (forAll f l) := by
  induction l with
  | nil => exact .refl _
  | cons x l ih =>
    exact (h x List.mem_cons_self).both (ih fun y hy => h y (List.mem_cons_of_mem _ hy))

end

end Attempt

namespace Condition

open Attempt

variable {s' s : Setting} {t : SyntaxTree}

theorem restricts_plain (h : s'.Restricts s) {p : Condition} (hp : p.IsPlain) (c : NodeChild t) :
    (attempt s' p c).Restricts (attempt s p c) := by
  cases p with
  | external name arguments =>
    rw [attempt, attempt]
    exact restricts_ofAnswer fun b hb => h.ask hb
  | param number =>
    rw [attempt, attempt]
    refine restricts_ofAnswer fun b hb => ?_
    cases hq : s'.param number with
    | error e =>
      rw [hq] at hb
      cases hb
    | ok q =>
      rw [hq] at hb
      rw [h.param hq]
      exact hb
  | wildcard | kind | kindIn | literal | builtin | oneOf =>
    rw [attempt, attempt]
    exact .refl _
  | _ => exact hp.elim

theorem restricts_around {front back : List Condition} {middle : Condition}
    (hf : ∀ p ∈ front, ∀ c : NodeChild t, (attempt s' p c).Restricts (attempt s p c))
    (hm : ∀ c : NodeChild t, (attempt s' middle c).Restricts (attempt s middle c))
    (hb : ∀ p ∈ back, ∀ c : NodeChild t, (attempt s' p c).Restricts (attempt s p c))
    (arity : Arity) (slot : Option Nat) (cs : List (NodeChild t)) :
    (Attempt.around front.length back.length arity slot (fun cs => attemptEach s' front cs)
      (fun d => attempt s' middle d) (fun cs => attemptEach s' back cs) cs).Restricts
    (Attempt.around front.length back.length arity slot (fun cs => attemptEach s front cs)
      (fun d => attempt s middle d) (fun cs => attemptEach s back cs) cs) := by
  by_cases hcut : ∃ xs ys zs, Cut front.length back.length arity cs xs ys zs
  · obtain ⟨xs, ys, zs, hcut⟩ := hcut
    have hall : ∀ x ∈ asked front middle back xs ys zs,
        (attempt s' x.1 x.2).Restricts (attempt s x.1 x.2) :=
      forall_asked (motive := fun p c => (attempt s' p c).Restricts (attempt s p c)) hf hm hb
    rw [around_of_cut hcut, around_of_cut hcut]
    exact (restricts_forAll hall).both (.refl _)
  · rw [around_of_no_cut hcut, around_of_no_cut hcut]
    exact .refl _

/-- With less, a condition is decided in the same way, if it is decided. -/
theorem restricts_attempt (h : s'.Restricts s) (p : Condition) (c : NodeChild t) :
    (attempt s' p c).Restricts (attempt s p c) := by
  induction p using Condition.ind generalizing c with
  | plain p hp => exact restricts_plain h hp c
  | capture slot inner ih =>
    rw [attempt, attempt]
    exact (ih c).both (.refl _)
  | exactly head elements ihh ihe =>
    cases c with
    | value v =>
      rw [attempt, attempt]
      exact .refl _
    | node n =>
      rw [attempt, attempt]
      refine (ihh (.node n)).both ?_
      by_cases hlen : n.childCount = elements.length
      · rw [if_pos hlen, if_pos hlen, attemptEach_eq_forAll_zip hlen,
          attemptEach_eq_forAll_zip hlen]
        exact restricts_forAll fun x hx => ihe x.1 (List.of_mem_zip hx).1 x.2
      · rw [if_neg hlen, if_neg hlen]
        exact .refl _
  | around head front middle arity slot back ihh ihf ihm ihb =>
    cases c with
    | value v =>
      rw [attempt, attempt]
      exact .refl _
    | node n =>
      rw [attempt, attempt]
      exact (ihh (.node n)).both (restricts_around ihf ihm ihb arity slot n.children)
  | union branches ih =>
    rw [attempt, attempt]
    simp only [attemptAny_eq]
    exact fun log => restricts_firstOf (fun p hp => ih p hp c) log.length log
  | intersection terms ih =>
    rw [attempt, attempt, attemptAll_eq_forAll, attemptAll_eq_forAll]
    exact restricts_forAll fun p hp => ih p hp c
  | negation inner ih =>
    rw [attempt, attempt]
    exact (ih c).negate
  | parent inner ih =>
    rw [attempt, attempt]
    split
    · exact ih _
    · exact .refl _
  | descendant inner ih =>
    cases c with
    | value v =>
      rw [attempt, attempt]
      exact ih (.value v)
    | node n =>
      rw [attempt, attempt]
      exact fun log => restricts_firstOf (fun m _ => ih (.node m)) log.length log

end Condition

/-! ## compiling -/

section
variable {env' env : Environment}

theorem Token.condition?_congr (h : ∀ name, env'.set? name = env.set? name) (token : Token)
    (isHead : Bool) : token.condition? env' isHead = token.condition? env isHead := by
  cases token with
  | set name hasPercent => rw [Token.condition?, Token.condition?, h name]
  | _ => rfl

mutual

/-- The condition of a phrase depends on the sets only. -/
theorem Phrase.toCondition_congr (h : ∀ name, env'.set? name = env.set? name) (d : Phrase)
    (isHead : Bool) (lo : Nat) : d.toCondition env' isHead lo = d.toCondition env isHead lo := by
  cases d with
  | leaf token => rw [Phrase.toCondition, Phrase.toCondition, Token.condition?_congr h]
  | call name arguments => rw [Phrase.toCondition, Phrase.toCondition]
  | sequence head parts =>
    rw [Phrase.toCondition, Phrase.toCondition, Phrase.toCondition_congr h head,
      Part.toElements_congr h parts]
  | union branches =>
    rw [Phrase.toCondition, Phrase.toCondition, Phrase.toConditionsFrom_congr h branches]
  | intersection terms =>
    rw [Phrase.toCondition, Phrase.toCondition, Phrase.toConditions_congr h terms]
  | marked mark inner =>
    rw [Phrase.toCondition, Phrase.toCondition, Phrase.toCondition_congr h inner]

theorem Phrase.toConditionsFrom_congr (h : ∀ name, env'.set? name = env.set? name)
    (ds : List Phrase) (isHead : Bool) (lo : Nat) :
    Phrase.toConditionsFrom env' ds isHead lo = Phrase.toConditionsFrom env ds isHead lo := by
  cases ds with
  | nil => rw [Phrase.toConditionsFrom, Phrase.toConditionsFrom]
  | cons d ds =>
    rw [Phrase.toConditionsFrom, Phrase.toConditionsFrom, Phrase.toCondition_congr h d,
      Phrase.toConditionsFrom_congr h ds]

theorem Phrase.toConditions_congr (h : ∀ name, env'.set? name = env.set? name)
    (ds : List Phrase) (isHead : Bool) (lo : Nat) :
    Phrase.toConditions env' ds isHead lo = Phrase.toConditions env ds isHead lo := by
  cases ds with
  | nil => rw [Phrase.toConditions, Phrase.toConditions]
  | cons d ds =>
    rw [Phrase.toConditions, Phrase.toConditions, Phrase.toCondition_congr h d,
      Phrase.toConditions_congr h ds]

theorem Part.toElements_congr (h : ∀ name, env'.set? name = env.set? name) (parts : List Part)
    (lo : Nat) : Part.toElements env' parts lo = Part.toElements env parts lo := by
  cases parts with
  | nil => rw [Part.toElements, Part.toElements]
  | cons part parts =>
    rw [Part.toElements, Part.toElements, Part.toElements_congr h parts]
    cases part with
    | dots captured => rw [Part.toElement, Part.toElement]
    | item captured inner arity =>
      rw [Part.toElement, Part.toElement, Phrase.toCondition_congr h inner]

end

theorem Phrase.Admissible.of_restricts (h : env'.Restricts env) {d : Phrase}
    (hd : d.Admissible env') : d.Admissible env := by
  intro q hq
  have hfits := hd q hq
  cases q with
  | leaf token =>
    rw [Fits, ← Token.condition?_congr h.set?_eq]
    exact hfits
  | call name arguments =>
    obtain ⟨ask', hask'⟩ :=
      Option.isSome_iff_exists.1 (show (env'.predicate? name).isSome from hfits)
    obtain ⟨ask, hask, -⟩ := h.exists_predicate name @ask' hask'
    exact Option.isSome_iff_exists.2 ⟨@ask, hask⟩
  | sequence | union | intersection | marked => exact hfits

theorem exists_scan_of_compile {source : String} {p : Pattern} (h : compile source env = .ok p) :
    ∃ tokens, Token.scan source.toList = .ok tokens := by
  obtain ⟨r, hr, -⟩ := Compile.ok_of_bind h
  obtain ⟨tokens, hs, -⟩ := Compile.ok_of_bind hr
  exact ⟨tokens, hs⟩

/-- What compiles with less compiles with more, to the same condition and captures. -/
theorem compile_of_restricts (henv : env'.Restricts env) {source : String} {p' : Pattern}
    (h : compile source env' = .ok p') :
    ∃ p, compile source env = .ok p ∧ p.condition = p'.condition ∧
      p.captureCount = p'.captureCount ∧ p.names = p'.names := by
  obtain ⟨tokens, hs⟩ := exists_scan_of_compile h
  obtain ⟨d, hd, hadm, hcondition, hcount, hnames⟩ := exists_phrase_of_compile hs h
  obtain ⟨p, hp⟩ := exists_compile_of_spells hs hd (hadm.of_restricts henv)
  obtain ⟨e, he, -, hcondition', hcount', hnames'⟩ := exists_phrase_of_compile hs hp
  obtain rfl := (spells_unique he hd).1
  refine ⟨p, hp, ?_, hcount'.trans hcount.symm, hnames'.trans hnames.symm⟩
  rw [hcondition, hcondition', Phrase.toCondition_congr henv.set?_eq]

end

/-! ## matching -/

/-- **Less never makes a match.**  If predicates answer less often, or placeholders at the end stand
for nothing, a pattern matches nothing else, and the captures of a match are the same.  It matches
exactly if its condition holds and nothing fails on the way, wherever in the pattern that is. -/
theorem matchChild_of_restricts {source : String} {env' env : Environment} {p' : Pattern}
    {params' params : List Param} (henv : env'.Restricts env) (hparams : params' <+: params)
    (h : compile source env' = .ok p') :
    ∃ p, compile source env = .ok p ∧ ∀ {t : SyntaxTree} (c : NodeChild t),
      (∀ caps, p'.matchChild params' c = some caps → p.matchChild params c = some caps) ∧
      (p'.condition.Fails ⟨env', params'⟩ c → p'.matchChild params' c = none) ∧
      ((p'.matchChild params' c).isSome = true ↔
        ¬ p'.condition.Fails ⟨env', params'⟩ c ∧ p'.condition.Holds ⟨env', params'⟩ c) := by
  obtain ⟨p, hp, hcondition, hcount, hnames⟩ := compile_of_restricts henv h
  have hsome : ∀ {t : SyntaxTree} (c : NodeChild t), (p'.matchChild params' c).isSome = true ↔
      ¬ p'.condition.Fails ⟨env', params'⟩ c ∧ p'.condition.Holds ⟨env', params'⟩ c := by
    intro t c
    obtain rfl := (wellFormed_of_compile h).1
    exact isSome_matchChild_iff_not_fails p' params' c
  refine ⟨p, hp, fun c => ⟨fun caps hm => ?_, fun hfails => ?_, hsome c⟩⟩
  · obtain ⟨bs, ha, rfl⟩ := attempt_of_matchChild hm
    rw [(wellFormed_of_compile h).1] at ha
    have hless : Setting.Restricts ⟨env', params'⟩ ⟨env, params⟩ := ⟨henv, hparams⟩
    have hmore := Condition.restricts_attempt hless p'.condition c [] _ ha
    unfold matchChild
    rw [hcondition, hcount, hnames, (wellFormed_of_compile hp).1, hmore]
  · cases hm : p'.matchChild params' c with
    | none => rfl
    | some caps => exact absurd hfails ((hsome c).1 (by rw [hm]; rfl)).1

def cautious : Environment :=
  ⟨[("absent?", fun c _ => match c with
    | .value _ => .ok c.isNil
    | .node _ => .error (.failed "absent?" "not a value"))], []⟩

theorem cautious_restricts : cautious.Restricts absentOnly where
  set?_eq _ := rfl
  exists_predicate name ask' h := by
    unfold cautious Environment.predicate? at h
    unfold absentOnly Environment.predicate?
    rw [List.find?_cons] at h ⊢
    split at h
    · next hname =>
      cases h
      refine ⟨fun c _ => .ok c.isNil, by rw [hname]; rfl, fun t c values b hb => ?_⟩
      cases c with
      | node n => cases hb
      | value v => exact hb
    · cases h

def receivedCall : SyntaxTree :=
  SyntaxTree.ofNode "x.puts" .send ⟨0, 6⟩ Loc.none
    [.node .send ⟨0, 1⟩ Loc.none [.value .nil, .value (.sym "x")], .value (.sym "puts")]

def eitherPart : Condition :=
  .union [.exactly (.kind .send) [.negation (.external "absent?" []), .capture 0 .wildcard],
    .exactly (.kind .send) [.wildcard, .capture 0 (.param 1)]]

/-- The first branch fails under its negation. -/
theorem fails_eitherPart (params : List Param) :
    eitherPart.Fails ⟨cautious, params⟩ (.node receivedCall.rootNode) := by
  have hfirst : (receivedCall.rootNode.children.head?.bind NodeChild.asNode?).isSome = true := by
    decide +kernel
  have hlen : receivedCall.rootNode.childCount = 2 := by decide +kernel
  have hkind : receivedCall.rootNode.kind = .send := by decide +kernel
  obtain ⟨c, rest, hchildren⟩ : ∃ c rest, receivedCall.rootNode.children = c :: rest :=
    List.exists_cons_of_length_pos (by rw [← Node.childCount, hlen]; decide)
  rw [hchildren] at hfirst
  cases c with
  | value v => cases hfirst
  | node receiver =>
    have hcomes : ComesTo (fun x => x.1.Holds ⟨cautious, params⟩ x.2)
        (List.zip [.negation (.external "absent?" []), .capture 0 .wildcard]
          receivedCall.rootNode.children)
        (Condition.negation (.external "absent?" []), NodeChild.node receiver) := by
      rw [hchildren]
      exact .here
    have hfails : Setting.ask ⟨cautious, params⟩ "absent?" [] (.node receiver) =
        .error (.failed "absent?" "not a value") := rfl
    exact .branch .here (.exactlyElement ⟨_, rfl, hkind⟩ hlen hcomes (.negation (.external hfails)))

/-- With less, the call on nothing matches as before, and the other one no longer: the second branch
would have matched it. -/
theorem eitherPart_matches : ∃ p' p,
    compile "\x7b(send !#absent? $_) (send _ $%1)\x7d" cautious = .ok p' ∧
    compile "\x7b(send !#absent? $_) (send _ $%1)\x7d" absentOnly = .ok p ∧
    cautious.Restricts absentOnly ∧
    [Param.value (.sym "puts")] <+: [.value (.sym "puts"), .value (.sym "p")] ∧
    (∃ caps, p'.matchChild [.value (.sym "puts")] (.node bareCall.rootNode) = some caps ∧
      p.matchChild [.value (.sym "puts"), .value (.sym "p")] (.node bareCall.rootNode) =
        some caps) ∧
    p'.matchChild [.value (.sym "puts")] (.node receivedCall.rootNode) = none := by
  obtain ⟨p', hp', hcheck⟩ : ∃ p',
      compile "\x7b(send !#absent? $_) (send _ $%1)\x7d" cautious = .ok p' ∧
      (p'.condition.agrees eitherPart &&
        (p'.matchChild [.value (.sym "puts")] (.node bareCall.rootNode)).isSome) = true :=
    exists_compile (fun p' => p'.condition.agrees eitherPart &&
      (p'.matchChild [.value (.sym "puts")] (.node bareCall.rootNode)).isSome) (by decide +kernel)
  rw [Bool.and_eq_true] at hcheck
  obtain ⟨caps, hcaps⟩ := Option.isSome_iff_exists.1 hcheck.2
  have hless : [Param.value (.sym "puts")] <+: [.value (.sym "puts"), .value (.sym "p")] :=
    List.prefix_append _ [Param.value (.sym "p")]
  obtain ⟨p, hp, hall⟩ := matchChild_of_restricts cautious_restricts hless hp'
  refine ⟨p', p, hp', hp, cautious_restricts, hless,
    ⟨caps, hcaps, (hall (.node bareCall.rootNode)).1 caps hcaps⟩, ?_⟩
  refine (hall (.node receivedCall.rootNode)).2.1 ?_
  rw [Condition.eq_of_agrees hcheck.1]
  exact fails_eitherPart _

end RubyLint.Pattern
