import RubyLint.Proofs.Pattern.Downward
import RubyLint.Proofs.Pattern.Restriction
import RubyLint.Proofs.Syntax.Outline

/-!
# Patterns see the outline only

A pattern without a caret is asked of two children with one outline, in one tree or in two.  Step by
step the decisions are the same, the logs have the same length, and what one binds stands where the
other binds.  A relation of children that goes down with them carries this, since without a caret
nothing else is ever looked at.

* `Environment.IsLocal`     predicates answer by the outline of the child;
* `Attempt.Corresponds`     attempts on two trees that come to the same;
* `corresponds_attempt`     a condition that goes to no parent, asked of aligned children;
* `matchChild_of_outline_eq`  the outcome of a match and its captures, place by place.
-/

namespace RubyLint.Pattern

/-- The answers of the predicates depend on the outline of the child. -/
def Environment.IsLocal (e : Environment) : Prop :=
  ∀ name (ask : Predicate), e.predicate? name = some @ask →
    ∀ (t t' : SyntaxTree) (c : NodeChild t) (c' : NodeChild t') (values : List Value),
      c.outline = c'.outline → ask c values = ask c' values

variable {t t' : SyntaxTree} {R : NodeChild t → NodeChild t' → Prop}

/-! ## what corresponds -/

/-- One child each, or as many, that belong together one by one. -/
inductive Capture.Corresponds (R : NodeChild t → NodeChild t' → Prop) :
    Capture t → Capture t' → Prop
  | single {c : NodeChild t} {c' : NodeChild t'} (h : R c c') :
      Corresponds R (.single c) (.single c')
  | many {cs : List (NodeChild t)} {cs' : List (NodeChild t')} (h : List.Forall₂ R cs cs') :
      Corresponds R (.many cs) (.many cs')

structure Binding.Corresponds (R : NodeChild t → NodeChild t' → Prop) (b : Binding t)
    (b' : Binding t') : Prop where
  slot_eq : b.slot = b'.slot
  capture : b.capture.Corresponds R b'.capture

/-- The same slots are bound, and what they are bound to corresponds. -/
structure Captures.Corresponds (R : NodeChild t → NodeChild t' → Prop) (caps : Captures t)
    (caps' : Captures t') : Prop where
  names_eq : caps.names = caps'.names
  values : List.Forall₂ (Option.Rel (Capture.Corresponds R)) caps.values caps'.values

namespace Attempt

/-- The same error, or the same answer with bindings that correspond. -/
inductive SameOutcome (R : NodeChild t → NodeChild t' → Prop) :
    Except PredicateError (Bool × List (Binding t)) →
      Except PredicateError (Bool × List (Binding t')) → Prop
  | error (e : PredicateError) : SameOutcome R (.error e) (.error e)
  | ok (b : Bool) {log : List (Binding t)} {log' : List (Binding t')}
      (h : List.Forall₂ (Binding.Corresponds R) log log') :
      SameOutcome R (.ok (b, log)) (.ok (b, log'))

theorem SameOutcome.inv {r : Except PredicateError (Bool × List (Binding t))}
    {r' : Except PredicateError (Bool × List (Binding t'))} (h : SameOutcome R r r') :
    (∃ e, r = .error e ∧ r' = .error e) ∨ ∃ b log log', r = .ok (b, log) ∧ r' = .ok (b, log') ∧
      List.Forall₂ (Binding.Corresponds R) log log' := by
  cases h with
  | error e => exact .inl ⟨e, rfl, rfl⟩
  | ok b h => exact .inr ⟨b, _, _, rfl, rfl, h⟩

/-- Given bindings that correspond, the attempts come to the same. -/
def Corresponds (R : NodeChild t → NodeChild t' → Prop) (a : Attempt t) (a' : Attempt t') : Prop :=
  ∀ log log', List.Forall₂ (Binding.Corresponds R) log log' → SameOutcome R (a log) (a' log')

variable {a b : Attempt t} {a' b' : Attempt t'}

theorem corresponds_ofBool (holds : Bool) : Corresponds R (ofBool holds) (ofBool holds) :=
  fun _ _ hlog => .ok holds hlog

theorem corresponds_ofAnswer (answer : Except PredicateError Bool) :
    Corresponds R (ofAnswer answer) (ofAnswer answer) := by
  intro log log' hlog
  cases answer with
  | error e => exact .error e
  | ok holds => exact .ok holds hlog

theorem corresponds_bind {slot : Nat} {x : Capture t} {x' : Capture t'} (h : x.Corresponds R x') :
    Corresponds R (bind slot x) (bind slot x') :=
  fun _ _ hlog => .ok true (List.rel_append hlog (.cons ⟨rfl, h⟩ .nil))

theorem corresponds_bindTaken {slot : Option Nat} {cs : List (NodeChild t)}
    {cs' : List (NodeChild t')} (h : List.Forall₂ R cs cs') :
    Corresponds R (bindTaken slot cs) (bindTaken slot cs') := by
  cases slot with
  | some k => exact corresponds_bind (.many h)
  | none => exact corresponds_ofBool true

theorem Corresponds.both (ha : Corresponds R a a') (hb : Corresponds R b b') :
    Corresponds R (both a b) (both a' b') := by
  intro log log' hlog
  unfold Attempt.both
  rcases (ha log log' hlog).inv with ⟨e, he, he'⟩ | ⟨holds, _, _, hr, hr', h⟩
  · rw [he, he']
    exact .error e
  · rw [hr, hr']
    cases holds with
    | true => exact hb _ _ h
    | false => exact .ok false h

theorem Corresponds.negate (ha : Corresponds R a a') : Corresponds R a.negate a'.negate := by
  intro log log' hlog
  unfold Attempt.negate
  rcases (ha log log' hlog).inv with ⟨e, he, he'⟩ | ⟨holds, _, _, hr, hr', h⟩
  · rw [he, he']
    exact .error e
  · rw [hr, hr']
    exact .ok _ h

/-- Logs that correspond are cut back at the same place. -/
theorem Corresponds.orElseFrom (ha : Corresponds R a a') (hb : Corresponds R b b') (mark : Nat) :
    Corresponds R (orElseFrom mark a b) (orElseFrom mark a' b') := by
  intro log log' hlog
  unfold Attempt.orElseFrom
  rcases (ha log log' hlog).inv with ⟨e, he, he'⟩ | ⟨holds, _, _, hr, hr', h⟩
  · rw [he, he']
    exact .error e
  · rw [hr, hr']
    cases holds with
    | true => exact .ok true h
    | false => exact hb _ _ (List.forall₂_take mark h)

section
variable {α β : Type} {f : α → Attempt t} {f' : β → Attempt t'} {l : List α} {l' : List β}

theorem corresponds_firstOf (h : List.Forall₂ (fun x y => Corresponds R (f x) (f' y)) l l')
    (mark : Nat) : Corresponds R (firstOf f mark l) (firstOf f' mark l') := by
  induction h with
  | nil => exact corresponds_ofBool false
  | cons hxy _ ih => exact hxy.orElseFrom ih mark

theorem corresponds_forAll (h : List.Forall₂ (fun x y => Corresponds R (f x) (f' y)) l l') :
    Corresponds R (forAll f l) (forAll f' l') := by
  induction h with
  | nil => exact corresponds_ofBool true
  | cons hxy _ ih => exact hxy.both ih

end

/-- Children that correspond are cut into parts that correspond. -/
theorem corresponds_around {front back : List (NodeChild t) → Attempt t}
    {front' back' : List (NodeChild t') → Attempt t'} {middle : NodeChild t → Attempt t}
    {middle' : NodeChild t' → Attempt t'}
    (hf : ∀ cs cs', List.Forall₂ R cs cs' → Corresponds R (front cs) (front' cs'))
    (hm : ∀ c c', R c c' → Corresponds R (middle c) (middle' c'))
    (hb : ∀ cs cs', List.Forall₂ R cs cs' → Corresponds R (back cs) (back' cs'))
    (before behind : Nat) (arity : Arity) (slot : Option Nat) {cs : List (NodeChild t)}
    {cs' : List (NodeChild t')} (h : List.Forall₂ R cs cs') :
    Corresponds R (around before behind arity slot front middle back cs)
      (around before behind arity slot front' middle' back' cs') := by
  have hrest := List.forall₂_drop before h
  have htaken := List.forall₂_take (cs'.length - (before + behind)) hrest
  have hbehind := List.forall₂_drop (cs'.length - (before + behind)) hrest
  unfold around
  -- as many children, so the cuts are at the same places
  rw [h.length_eq]
  dsimp only
  split
  · exact corresponds_ofBool false
  · exact (hf _ _ h).both ((hb _ _ hbehind).both
      ((corresponds_forAll (htaken.imp hm)).both (corresponds_bindTaken htaken)))

end Attempt

/-! ## what is asked -/

section
variable {c : NodeChild t} {c' : NodeChild t'}

theorem Builtin.holds_congr (h : c.outline = c'.outline) (b : Builtin) :
    b.holds c = b.holds c' := by
  rcases NodeChild.cases_outline h with ⟨n, n', rfl, rfl, hn⟩ | ⟨v, rfl, rfl⟩
  · have hkind := Node.kind_outline hn
    cases b with
    | recursiveBasicLiteral => exact Node.isRecursiveBasicLiteral_congr hn
    | absent => rfl
    | ofKind kind => exact congrArg (· == kind) hkind
    | call => exact congrArg Kind.isCall hkind
    | numeric => exact congrArg Kind.isNumeric hkind
    | range => exact congrArg (fun k => k == .inclusiveRange || k == .exclusiveRange) hkind
    | literal => exact congrArg Kind.isLiteral hkind
    | basicLiteral => exact congrArg Kind.isBasicLiteral hkind
    | variableName => exact congrArg Kind.isVariable hkind
    | loopKeyword => exact congrArg Kind.isLoop hkind
  · rfl

theorem Param.holds_congr (h : c.outline = c'.outline) (p : Param) : p.holds c = p.holds c' := by
  rcases NodeChild.cases_outline h with ⟨n, n', rfl, rfl, hn⟩ | ⟨v, rfl, rfl⟩
  · cases p with
    | kind k => exact congrArg (· == k) (Node.kind_outline hn)
    | value | symbols => rfl
  · cases p <;> cases v <;> rfl

theorem isOneOf_congr (h : c.outline = c'.outline) (symbols : List String) :
    isOneOf symbols c = isOneOf symbols c' := by
  rcases NodeChild.cases_outline h with ⟨n, n', rfl, rfl, -⟩ | ⟨v, rfl, rfl⟩
  · rfl
  · cases v <;> rfl

theorem Setting.ask_congr {s : Setting} (hs : s.environment.IsLocal) (h : c.outline = c'.outline)
    (name : String) (arguments : List Argument) :
    s.ask name arguments c = s.ask name arguments c' := by
  unfold Setting.ask
  refine congrArg _ (funext fun values => ?_)
  cases hask : s.environment.predicate? name with
  | none => rfl
  | some ask =>
    dsimp only
    rw [hs name @ask hask t t' c c' values h]

end

namespace Condition

open Attempt

variable {s : Setting}

theorem corresponds_plain (hR : IsAligned R) (hs : s.environment.IsLocal) {p : Condition}
    (hp : p.IsPlain) {c : NodeChild t} {c' : NodeChild t'} (hc : R c c') :
    Attempt.Corresponds R (attempt s p c) (attempt s p c') := by
  have houtline := hR.outline_eq hc
  cases p with
  | wildcard =>
    rw [attempt, attempt]
    exact corresponds_ofBool true
  | kind | kindIn | literal =>
    -- these ask for the kind of a node, or for a value
    rcases NodeChild.cases_outline houtline with ⟨n, n', rfl, rfl, hn⟩ | ⟨v, rfl, rfl⟩
    · rw [attempt, attempt]
      simp only [NodeChild.asNode?, NodeChild.asValue?, Option.any_some, Option.any_none,
        Node.kind_outline hn]
      exact corresponds_ofBool _
    · rw [attempt, attempt]
      exact corresponds_ofBool _
  | builtin question =>
    rw [attempt, attempt, Builtin.holds_congr houtline]
    exact corresponds_ofBool _
  | external name arguments =>
    rw [attempt, attempt, Setting.ask_congr hs houtline]
    exact corresponds_ofAnswer _
  | oneOf symbols =>
    rw [attempt, attempt, isOneOf_congr houtline]
    exact corresponds_ofBool _
  | param number =>
    rw [attempt, attempt, show (fun q : Param => q.holds c) = fun q => q.holds c' from
      funext (Param.holds_congr houtline)]
    exact corresponds_ofAnswer _
  | _ => exact hp.elim

theorem corresponds_attemptEach {ps : List Condition}
    (h : ∀ p ∈ ps, ∀ c c', R c c' → Attempt.Corresponds R (attempt s p c) (attempt s p c'))
    {cs : List (NodeChild t)} {cs' : List (NodeChild t')} (hcs : List.Forall₂ R cs cs') :
    Attempt.Corresponds R (attemptEach s ps cs) (attemptEach s ps cs') := by
  induction ps generalizing cs cs' with
  | nil =>
    rw [attemptEach, attemptEach]
    exact corresponds_ofBool true
  | cons p ps ih =>
    cases hcs with
    | nil =>
      rw [attemptEach, attemptEach]
      exact corresponds_ofBool false
    | cons hc hcs =>
      rw [attemptEach, attemptEach]
      exact (h p List.mem_cons_self _ _ hc).both
        (ih (fun q hq => h q (List.mem_cons_of_mem _ hq)) hcs)

/-- A condition that goes to no parent comes to the same on children that are aligned. -/
theorem corresponds_attempt (hR : IsAligned R) (hs : s.environment.IsLocal) {p : Condition}
    (hp : p.IsDownward) {c : NodeChild t} {c' : NodeChild t'} (hc : R c c') :
    Attempt.Corresponds R (attempt s p c) (attempt s p c') := by
  induction p using Condition.ind generalizing c c' with
  | plain p hplain => exact corresponds_plain hR hs hplain hc
  | capture slot inner ih =>
    rw [attempt, attempt]
    exact (ih (hp.direct List.mem_cons_self) hc).both (corresponds_bind (.single hc))
  | exactly head elements ihh ihe =>
    rcases hR.node_cases hc with ⟨n, n', rfl, rfl, hn⟩ | ⟨v, rfl, rfl⟩
    · have hchildren := hR.children hc
      rw [attempt, attempt]
      refine (ihh (hp.direct List.mem_cons_self) hc).both ?_
      rw [Node.childCount, Node.childCount, hchildren.length_eq]
      split
      · exact corresponds_attemptEach (fun p hmem _ _ hcc =>
          ihe p hmem (hp.direct (List.mem_cons_of_mem _ hmem)) hcc) hchildren
      · exact corresponds_ofBool false
    · rw [attempt, attempt]
      exact corresponds_ofBool false
  | around head front middle arity slot back ihh ihf ihm ihb =>
    rcases hR.node_cases hc with ⟨n, n', rfl, rfl, hn⟩ | ⟨v, rfl, rfl⟩
    · rw [attempt, attempt]
      refine (ihh (hp.direct List.mem_cons_self) hc).both
        (corresponds_around ?_ ?_ ?_ _ _ arity slot (hR.children hc))
      · exact fun _ _ => corresponds_attemptEach fun p hmem _ _ hcc =>
          ihf p hmem (hp.direct (List.mem_cons_of_mem _ (List.mem_append_left _ hmem))) hcc
      · exact fun _ _ hcc =>
          ihm (hp.direct (List.mem_cons_of_mem _ (List.mem_append_right _ List.mem_cons_self))) hcc
      · exact fun _ _ => corresponds_attemptEach fun p hmem _ _ hcc =>
          ihb p hmem (hp.direct (List.mem_cons_of_mem _
            (List.mem_append_right _ (List.mem_cons_of_mem _ hmem)))) hcc
    · rw [attempt, attempt]
      exact corresponds_ofBool false
  | union branches ih =>
    rw [attempt, attempt]
    simp only [attemptAny_eq]
    -- the marks are the lengths of the logs
    intro log log' hlog
    dsimp only
    rw [hlog.length_eq]
    exact corresponds_firstOf
      (List.forall₂_same.2 fun p hmem => ih p hmem (hp.direct hmem) hc) log'.length log log' hlog
  | intersection terms ih =>
    rw [attempt, attempt, attemptAll_eq_forAll, attemptAll_eq_forAll]
    exact corresponds_forAll (List.forall₂_same.2 fun p hmem => ih p hmem (hp.direct hmem) hc)
  | negation inner ih =>
    rw [attempt, attempt]
    exact (ih (hp.direct List.mem_cons_self) hc).negate
  | parent inner ih => exact absurd .self (hp inner)
  | descendant inner ih =>
    have hinner := hp.direct List.mem_cons_self
    rcases hR.node_cases hc with ⟨n, n', rfl, rfl, hn⟩ | ⟨v, rfl, rfl⟩
    · rw [attempt, attempt]
      intro log log' hlog
      dsimp only
      rw [hlog.length_eq]
      exact corresponds_firstOf ((hR.descendants hc).imp fun _ _ hm => ih hinner hm)
        log'.length log log' hlog
    · rw [attempt, attempt]
      exact ih hinner hc

end Condition

/-! ## matching -/

theorem rel_find? {α β : Type} {P : α → β → Prop} {f : α → Bool} {g : β → Bool} {as : List α}
    {bs : List β} (h : List.Forall₂ P as bs) (hfg : ∀ a b, P a b → f a = g b) :
    Option.Rel P (as.find? f) (bs.find? g) := by
  induction h with
  | nil => exact .none
  | @cons a b as bs hab _ ih =>
    rw [List.find?_cons, List.find?_cons, hfg a b hab]
    split
    · exact .some hab
    · exact ih

theorem Captures.rel_lastOf {log : List (Binding t)} {log' : List (Binding t')}
    (h : List.Forall₂ (Binding.Corresponds R) log log') (slot : Nat) :
    Option.Rel (Capture.Corresponds R) (lastOf log slot) (lastOf log' slot) := by
  have hfind := rel_find? (List.rel_reverse h) (f := fun b => b.slot == slot)
    (g := fun b => b.slot == slot) fun b b' hb => congrArg (· == slot) hb.slot_eq
  unfold lastOf
  revert hfind
  generalize log.reverse.find? _ = found
  generalize log'.reverse.find? _ = found'
  rintro (hb | -)
  · exact .some hb.capture
  · exact .none

theorem Captures.corresponds_ofBindings {log : List (Binding t)} {log' : List (Binding t')}
    (h : List.Forall₂ (Binding.Corresponds R) log log') (count : Nat)
    (names : List (String × Nat)) :
    Captures.Corresponds R (ofBindings count names log) (ofBindings count names log') where
  names_eq := rfl
  values := (List.forall₂_map_left_iff.2 (List.forall₂_map_right_iff.2
    (List.forall₂_same.2 fun slot _ => rel_lastOf h slot)))

/-- **A pattern without a caret sees the outline only.**  If predicates do so too, then the pattern
comes to the same on children with one outline, wherever and in whatever trees they stand: it fails
alike, or matches both or none, and what its captures are bound to stands at the same places. -/
theorem matchChild_of_outline_eq {source : String} {env : Environment} {p : Pattern}
    {tokens : List Placed} (h : compile source env = .ok p)
    (hs : Token.scan source.toList = .ok tokens) (hno : ∀ x ∈ tokens, x.token ≠ .caret)
    (hlocal : env.IsLocal) (params : List Param) {t t' : SyntaxTree} {c : NodeChild t}
    {c' : NodeChild t'} (hc : c.outline = c'.outline) :
    Attempt.SameOutcome (NodeChild.SamePlace c c') (p.condition.attempt ⟨env, params⟩ c [])
        (p.condition.attempt ⟨env, params⟩ c' []) ∧
      Option.Rel (Captures.Corresponds (NodeChild.SamePlace c c')) (p.matchChild params c)
        (p.matchChild params c') := by
  obtain rfl := (wellFormed_of_compile h).1
  have houtcome := Condition.corresponds_attempt (s := ⟨p.environment, params⟩)
    (NodeChild.isAligned_samePlace hc) hlocal (isDownward_of_compile h hs hno)
    (NodeChild.samePlace_self c c') [] [] .nil
  refine ⟨houtcome, ?_⟩
  unfold matchChild
  rcases houtcome.inv with ⟨e, he, he'⟩ | ⟨holds, _, _, hr, hr', hlog⟩
  · rw [he, he']
    exact .none
  · rw [hr, hr']
    cases holds with
    | true => exact .some (Captures.corresponds_ofBindings hlog _ _)
    | false => exact .none

theorem isLocal_absentOnly : absentOnly.IsLocal := by
  intro name ask h t t' c c' values hc
  unfold absentOnly Environment.predicate? at h
  rw [List.find?_cons] at h
  split at h
  · cases h
    rcases NodeChild.cases_outline hc with ⟨n, n', rfl, rfl, -⟩ | ⟨v, rfl, rfl⟩
    · rfl
    · cases v <;> rfl
  · cases h

def printedCall : SyntaxTree :=
  SyntaxTree.ofNode "p(x\n  .puts)" .send ⟨0, 12⟩ Loc.none
    [.value .nil, .value (.sym "p"), .node .send ⟨2, 11⟩ Loc.none
      [.node .send ⟨2, 3⟩ Loc.none [.value .nil, .value (.sym "x")], .value (.sym "puts")]]

def printedArgument : Node printedCall := ⟨1, by decide +kernel⟩

theorem outline_of_received {n r : Node t} {v w : Value} (hn : n.kind = .send)
    (hchildren : n.children = [.node r, .value w]) (hr : r.kind = .send)
    (hvalues : r.children = [.value .nil, .value v]) :
    n.outline = .node .send [.node .send [.value .nil, .value v], .value w] := by
  rw [Node.outline_eq, hn, hchildren]
  show Outline.node .send [r.outline, .value w] = _
  rw [Node.outline_eq, hr, hvalues]
  rfl

theorem outline_printedArgument : (NodeChild.node receivedCall.rootNode).outline =
    (NodeChild.node printedArgument).outline := by
  have hcall : receivedCall.rootNode.outline = _ :=
    outline_of_received (r := ⟨0, by decide +kernel⟩) (v := .sym "x") (w := .sym "puts")
      (by decide +kernel) (by decide +kernel) (by decide +kernel) (by decide +kernel)
  have hargument : printedArgument.outline = _ :=
    outline_of_received (r := ⟨0, by decide +kernel⟩) (v := .sym "x") (w := .sym "puts")
      (by decide +kernel) (by decide +kernel) (by decide +kernel) (by decide +kernel)
  exact hcall.trans hargument.symm

/-- A call is matched where it stands alone, and so it is where it is an argument. -/
theorem receivedCall_anywhere : ∃ p tokens,
    compile "[(send $_ ...) \x60(send $#absent? $...)]" absentOnly = .ok p ∧
    Token.scan "[(send $_ ...) \x60(send $#absent? $...)]".toList = .ok tokens ∧
    (∀ x ∈ tokens, x.token ≠ .caret) ∧ absentOnly.IsLocal ∧
    (NodeChild.node receivedCall.rootNode).outline =
      (NodeChild.node printedArgument).outline ∧
    printedArgument.parent? = some printedCall.rootNode ∧
    (p.matchChild [] (.node receivedCall.rootNode)).isSome = true ∧
    Option.Rel (Captures.Corresponds
        (NodeChild.SamePlace (.node receivedCall.rootNode) (.node printedArgument)))
      (p.matchChild [] (.node receivedCall.rootNode)) (p.matchChild [] (.node printedArgument)) := by
  obtain ⟨tokens, hs⟩ : ∃ tokens,
      Token.scan "[(send $_ ...) \x60(send $#absent? $...)]".toList = .ok tokens :=
    exists_scan (by decide +kernel)
  have hno := Token.ne_caret_of_scanFrom (by decide +kernel) hs
  obtain ⟨p, hp, hmatch⟩ : ∃ p,
      compile "[(send $_ ...) \x60(send $#absent? $...)]" absentOnly = .ok p ∧
      (p.matchChild [] (.node receivedCall.rootNode)).isSome = true :=
    exists_compile (fun p => (p.matchChild [] (.node receivedCall.rootNode)).isSome)
      (by decide +kernel)
  exact ⟨p, tokens, hp, hs, hno, isLocal_absentOnly, outline_printedArgument, by decide +kernel,
    hmatch, (matchChild_of_outline_eq hp hs hno isLocal_absentOnly [] outline_printedArgument).2⟩

end RubyLint.Pattern
