import RubyLint.Proofs.Pattern.Compile
import RubyLint.Proofs.Pattern.Written

/-!
# What is compiled is a phrase

Each reader of the compiler that succeeds has read something of the grammar: `Phrase.Took` says of a
term, and `Part.Took` of an element, that the tokens between two points of the reading spell it,
that it is admissible, what it stands for, how many slots it takes and which names.  There is one
lemma for each reader, in the order in which the readers are built on each other.

* `exists_took_of_term`     a term that is read is an admissible phrase;
* `exists_spells_of_compile`  so is the whole of a pattern that compiles.
-/

namespace RubyLint.Pattern

open Compile

/-! ## words -/

/-- Every question ends in a question mark. -/
theorem Builtin.getLast?_of_ofName? {name : String} {b : Builtin}
    (h : Builtin.ofName? name = some b) : name.toList.getLast? = some '?' := by
  unfold Builtin.ofName? at h
  split at h
  all_goals try rfl
  simp only at h
  split at h
  next hs =>
    obtain ⟨front, hfront⟩ := List.isSuffixOf_iff_suffix.1 hs
    rw [← hfront, List.getLast?_append]
    rfl
  next => cases h

theorem wordCondition_eq_ok {name : String} {offset : Nat} {p q : Progress} {c : Condition} :
    wordCondition name offset p = .ok (c, q) ↔ wordCondition? name = some c ∧ q = p := by
  have hpure : ∀ {c' : Condition}, (pure c' : Compile Condition) p = .ok (c, q) ↔
      some c' = some c ∧ q = p := by
    intro c'
    constructor
    · intro h
      cases h
      exact ⟨rfl, rfl⟩
    · rintro ⟨h, rfl⟩
      cases h
      rfl
  unfold wordCondition wordCondition?
  split
  · exact hpure
  split
  · exact hpure
  cases hk : Kind.ofName? name with
  | some kind => exact hpure
  | none =>
    simp only [Option.map_none, Option.none_or]
    split
    · cases hb : Builtin.ofName? name with
      | some b => exact hpure
      | none => exact ⟨fun h => (fail_ne_ok h).elim, fun h => nomatch h.1⟩
    next hlast =>
      refine ⟨fun h => (fail_ne_ok h).elim, fun h => ?_⟩
      obtain ⟨b, hb, -⟩ := Option.map_eq_some_iff.1 h.1
      exact absurd (Builtin.getLast?_of_ofName? hb) hlast

/-! ## steps of the reading -/

section
variable {α : Type} {p q : Progress}

theorem tokens_newSlot {slot : Nat} (h : newSlot p = .ok (slot, q)) : q.tokens = p.tokens := by
  cases h
  rfl

theorem names_newSlot {slot : Nat} (h : newSlot p = .ok (slot, q)) :
    q.names = addNames p.names [⟨p.captures, captureName? p.tokens.head?⟩] := by
  cases h
  rfl

theorem accept_inv {token : Token} {b : Bool} (h : accept token p = .ok (b, q)) :
    if b then ∃ t, p.tokens = t :: q.tokens ∧ t.token = token ∧ q.names = p.names
    else q = p ∧ ∀ t ∈ p.tokens.head?, t.token ≠ token := by
  replace h := peek_bind_inv h
  obtain ⟨tokens, captures, names⟩ := p
  cases tokens with
  | nil =>
    obtain ⟨rfl, rfl⟩ := pure_inv h
    exact ⟨rfl, fun t ht => nomatch ht⟩
  | cons t ts =>
    simp only [List.head?_cons] at h
    split at h
    next ht =>
      replace h := skip_bind_inv h
      obtain ⟨rfl, rfl⟩ := pure_inv h
      exact ⟨t, rfl, ht, rfl⟩
    next ht =>
      obtain ⟨rfl, rfl⟩ := pure_inv h
      refine ⟨rfl, fun u hu => ?_⟩
      obtain rfl : t = u := Option.some.inj hu
      exact ht

/-- What a repetition has read, if its reader takes a token each time it answers something; then the
limit is not what ends it. -/
theorem collect_steps (each : List α → Progress → Progress → Prop) {x : Compile (Option α)}
    {limit : Nat} {as : List α} (hnil : ∀ {p q}, x p = .ok (none, q) → each [] p q)
    (hcons : ∀ {p m q a as}, x p = .ok (some a, m) → each as m q → each (a :: as) p q)
    (hshrink : ∀ {p m a}, x p = .ok (some a, m) → m.tokens.length < p.tokens.length)
    (hlimit : p.tokens.length < limit) (h : collect x limit p = .ok (as, q)) : each as p q := by
  induction limit generalizing p as with
  | zero => exact absurd hlimit (Nat.not_lt_zero _)
  | succ limit ih =>
    unfold collect at h
    obtain ⟨o, m, ho, h⟩ := bind_inv h
    cases o with
    | none =>
      obtain ⟨rfl, rfl⟩ := pure_inv h
      exact hnil ho
    | some a =>
      obtain ⟨rest, k, hrest, h⟩ := bind_inv h
      obtain ⟨rfl, rfl⟩ := pure_inv h
      have := hshrink ho
      exact hcons ho (ih (by omega) hrest)

end

/-! ## external predicates -/

section
variable {env : Environment} {p q : Progress}

theorem argument_eq_ok {t : Placed} {a : Argument} :
    argument t p = .ok (a, q) ↔ t.token.argument? = some a ∧ q = p := by
  unfold argument Token.argument?
  cases t.token <;>
    first
    | (constructor
       · intro h
         cases h
         exact ⟨rfl, rfl⟩
       · rintro ⟨h, rfl⟩
         cases h
         rfl)
    | exact ⟨fun h => (fail_ne_ok h).elim, fun h => nomatch h.1⟩

theorem argument?_inv {opening : Nat} {o : Option Argument}
    (h : argument? opening p = .ok (o, q)) :
    ∃ t, p.tokens = t :: q.tokens ∧ (q.captures = p.captures ∧ q.names = p.names) ∧
      o.elim (t.token = .closeParen) fun a => t.token.argument? = some a := by
  replace h := peek_bind_inv h
  obtain ⟨tokens, captures, names⟩ := p
  cases tokens with
  | nil => exact (fail_ne_ok h).elim
  | cons t ts =>
    replace h := skip_bind_inv h
    split at h
    next ht =>
      obtain ⟨rfl, rfl⟩ := pure_inv h
      exact ⟨t, rfl, ⟨rfl, rfl⟩, ht⟩
    next =>
      obtain ⟨a, ha, rfl⟩ := map_inv h
      obtain ⟨harg, rfl⟩ := argument_eq_ok.1 ha
      exact ⟨t, rfl, ⟨rfl, rfl⟩, harg⟩

theorem chain_of_collect_argument? {opening limit : Nat} {args : List Argument}
    (hlimit : p.tokens.length < limit) (h : collect (argument? opening) limit p = .ok (args, q)) :
    (q.captures = p.captures ∧ q.names = p.names) ∧
      ∃ c, c.token = .closeParen ∧ Chain SpellsArgument args p.tokens (c :: q.tokens) := by
  refine collect_steps (fun args p q => (q.captures = p.captures ∧ q.names = p.names) ∧
    ∃ c, c.token = .closeParen ∧ Chain SpellsArgument args p.tokens (c :: q.tokens))
    ?_ ?_ ?_ hlimit h
  · intro p q hx
    obtain ⟨c, hp, hsame, hc⟩ := argument?_inv hx
    refine ⟨hsame, c, hc, ?_⟩
    rw [hp]
    exact .nil
  · rintro p m q a as hx ⟨hq, c, hc, has⟩
    obtain ⟨t, hp, hsame, ht⟩ := argument?_inv hx
    refine ⟨⟨hq.1.trans hsame.1, hq.2.trans hsame.2⟩, c, hc, ?_⟩
    rw [hp]
    exact .cons (.mk ht) has
  · intro p m a hx
    obtain ⟨t, hp, -, -⟩ := argument?_inv hx
    rw [hp]
    exact Nat.lt_succ_self _

end

/-! ## terms and elements -/

/-- The reading from `p` to `q` has read the phrase, and answered its condition. -/
structure Phrase.Took (env : Environment) (isHead : Bool) (d : Phrase) (p q : Progress)
    (c : Condition) : Prop where
  spells : Spells d p.tokens q.tokens
  admissible : d.Admissible env
  condition : c = d.toCondition env isHead p.captures
  captures : q.captures = p.captures + d.captures
  names : q.names = addNames p.names (d.written p.captures)

/-- The reading from `p` to `q` has read the part, and answered it as an element. -/
structure Part.Took (env : Environment) (part : Part) (p q : Progress) (e : Element) : Prop where
  spells : SpellsPart part p.tokens q.tokens
  admissible : ∀ s ∈ part.inner?, s.Admissible env
  element : e = part.toElement env p.captures
  captures : q.captures = p.captures + part.captures
  names : q.names = addNames p.names (part.written p.captures)

/-- Whatever the reader answers is a phrase. -/
def ReadsPhrases (env : Environment) (isHead : Bool) (term : Compile Condition) : Prop :=
  ∀ {p c q}, term p = .ok (c, q) → ∃ d : Phrase, d.Took env isHead p q c

section
variable {env : Environment} {isHead : Bool} {p q : Progress}

/-- Whether a name is known does not depend on where it stands. -/
theorem Token.isSome_condition? (t : Token) :
    (t.condition? env isHead).isSome = (t.condition? env false).isSome := by
  cases t <;> rfl

theorem exists_took_of_leaf {t : Placed} {ts : List Placed} {k : Nat} {names : List (String × Nat)}
    {c : Condition} (ht : t.token.isLeaf = true) (hc : t.token.condition? env isHead = some c) :
    ∃ d : Phrase, d.Took env isHead ⟨t :: ts, k, names⟩ ⟨ts, k, names⟩ c := by
  refine ⟨.leaf t.token, .leaf ht, ?_, ?_, rfl, rfl⟩
  · refine Phrase.admissible_of ?_ fun s hs => absurd hs List.not_mem_nil
    rw [Phrase.Fits, ← Token.isSome_condition?, hc]
    rfl
  · rw [Phrase.toCondition, hc]
    rfl

theorem exists_took_of_externalCondition {t : Placed} {name : String} {ts : List Placed} {k : Nat}
    {names : List (String × Nat)} {c : Condition} (ht : t.token = .external name)
    (h : externalCondition env name t ⟨ts, k, names⟩ = .ok (c, q)) :
    ∃ d : Phrase, d.Took env isHead ⟨t :: ts, k, names⟩ q c := by
  unfold externalCondition at h
  split at h
  · exact (fail_ne_ok h).elim
  next hknown =>
  have hadm : ∀ arguments, (Phrase.call name arguments).Admissible env := by
    intro arguments
    refine Phrase.admissible_of ?_ fun s hs => absurd hs List.not_mem_nil
    cases hp : env.predicate? name with
    | none => rw [hp] at hknown; exact absurd rfl hknown
    | some _ => simp only [Phrase.Fits, hp, Option.isSome_some]
  have hbare : (pure (.external name []) : Compile Condition) ⟨ts, k, names⟩ = .ok (c, q) →
      ¬ t.OpensBehind ts → ∃ d : Phrase, d.Took env isHead ⟨t :: ts, k, names⟩ q c := by
    intro h hb
    obtain ⟨rfl, rfl⟩ := pure_inv h
    exact ⟨.call name none, .name ht hb, hadm none, rfl, rfl, rfl⟩
  replace h := peek_bind_inv h
  cases ts with
  | nil =>
    refine hbare h ?_
    rintro ⟨o, ho, -⟩
    cases ho
  | cons u us =>
    obtain ⟨token, start, stop⟩ := u
    cases token with
    | openParen =>
      simp only [List.head?_cons] at h
      split at h
      next hplace =>
        replace h := get_bind_inv (skip_bind_inv h)
        obtain ⟨args, m, hargs, h⟩ := bind_inv h
        obtain ⟨rfl, rfl⟩ := pure_inv h
        obtain ⟨hsame, c, hc, hchain⟩ := chain_of_collect_argument? (Nat.lt_succ_self _) hargs
        exact ⟨.call name (some args), .call ht rfl hplace hchain hc, hadm _, rfl, hsame.1, hsame.2⟩
      next hplace =>
        refine hbare h ?_
        rintro ⟨o, ho, -, hstart⟩
        cases ho
        exact hplace hstart
    | _ =>
      refine hbare h ?_
      rintro ⟨o, ho, hparen, -⟩
      cases ho
      cases hparen

variable {term : Compile Condition}

/-- What stands behind the sign of a capture, or where such a sign may stand. -/
theorem elementBehind_inv (hterm : ReadsPhrases env false term) {slot : Option Nat} {e : Element}
    (h : elementBehind term slot p = .ok (e, q)) :
    (∃ t, p.tokens = t :: q.tokens ∧ t.token = .ellipsis ∧
      (q.captures = p.captures ∧ q.names = p.names) ∧ e = .several .wildcard .anyNumber slot) ∨
    ∃ (d : Phrase) (arity : Option Arity) (m : Progress) (c : Condition), d.Took env false p m c ∧
      SpellsSign arity m.tokens q.tokens ∧ (q.captures = m.captures ∧ q.names = m.names) ∧
      e = .of c arity slot := by
  unfold elementBehind at h
  obtain ⟨dots, m, hdots, hrest⟩ := bind_inv h
  have hcap := captures_accept hdots
  replace hdots := accept_inv hdots
  cases dots with
  | true =>
    obtain ⟨t, hp, ht, hnames⟩ := hdots
    obtain ⟨rfl, rfl⟩ := pure_inv hrest
    exact .inl ⟨t, hp, ht, ⟨hcap, hnames⟩, rfl⟩
  | false =>
    obtain ⟨rfl, -⟩ := hdots
    obtain ⟨c, k, hc, hrest⟩ := bind_inv hrest
    obtain ⟨d, hd⟩ := hterm hc
    refine .inr ⟨d, ?_⟩
    replace hrest := peek_bind_inv hrest
    cases ha : k.tokens.head?.bind fun t => arity? t.token with
    | some arity =>
      rw [ha] at hrest
      replace hrest := skip_bind_inv hrest
      obtain ⟨rfl, rfl⟩ := pure_inv hrest
      obtain ⟨t, ht, harity⟩ := Option.bind_eq_some_iff.1 ha
      obtain ⟨us, hus⟩ := List.head?_eq_some_iff.1 ht
      refine ⟨some arity, k, c, hd, ?_, ⟨rfl, rfl⟩, rfl⟩
      rw [hus]
      exact .some harity
    | none =>
      rw [ha] at hrest
      obtain ⟨rfl, rfl⟩ := pure_inv hrest
      refine ⟨none, q, c, hd, .none, ⟨rfl, rfl⟩, ?_⟩
      cases slot <;> rfl

theorem exists_took_of_element (hterm : ReadsPhrases env false term) {e : Element}
    (h : element term p = .ok (e, q)) : ∃ part : Part, part.Took env p q e := by
  obtain ⟨dollar, m, hd, hrest⟩ := bind_inv h
  have hcap := captures_accept hd
  replace hd := accept_inv hd
  cases dollar with
  | true =>
    obtain ⟨s, hp, hs, hsame⟩ := hd
    obtain ⟨slot, k, hk, hbehind⟩ := bind_inv hrest
    obtain ⟨rfl, hnext⟩ := newSlot_inv hk
    have hnames := names_newSlot hk
    rw [hsame, hcap, ← tokens_newSlot hk] at hnames
    rw [← tokens_newSlot hk] at hp
    rw [hcap] at hbehind hnext
    rcases elementBehind_inv hterm hbehind with
      ⟨t, ht, hdots, hq, rfl⟩ | ⟨d, arity, l, c, hc, ha, hq, rfl⟩
    · refine ⟨.dots true, ?_, fun s hs => (nomatch hs), rfl, hq.1.trans hnext, ?_⟩
      · rw [hp, ht]
        exact .capturedDots hs hdots
      · have hnone : captureName? k.tokens.head? = none := by
          rw [ht]
          exact captureName?_of_ne_word fun name hname => nomatch hname.symm.trans hdots
        rw [hq.2, hnames, hnone]
        rfl
    · refine ⟨.item true d arity, ?_, ?_, ?_, ?_, ?_⟩
      · rw [hp]
        exact .capturedItem hs hc.spells ha
      · rintro s hs
        cases hs
        exact hc.admissible
      · rw [hc.condition, hnext]
        rfl
      · rw [hq.1, hc.captures, hnext, Nat.add_assoc]
        rfl
      · rw [hq.2, hc.names, hnames, hnext, captureName?_of_spells hc.spells, ← addNames_append]
        rfl
  | false =>
    obtain ⟨rfl, hd⟩ := hd
    rcases elementBehind_inv hterm hrest with
      ⟨t, ht, hdots, hq, rfl⟩ | ⟨d, arity, l, c, hc, ha, hq, rfl⟩
    · refine ⟨.dots false, ?_, fun s hs => (nomatch hs), rfl, hq.1, hq.2⟩
      rw [ht]
      exact .dots hdots
    · refine ⟨.item false d arity, ?_, ?_, ?_, ?_, hq.2.trans hc.names⟩
      · have hspells := hc.spells
        obtain ⟨t, us, hts⟩ := hspells.exists_cons
        rw [hts] at hspells hd ⊢
        exact .item (hd t rfl) hspells ha
      · rintro s hs
        cases hs
        exact hc.admissible
      · rw [hc.condition]
        rfl
      · rw [hq.1, hc.captures, Part.captures, Bool.toNat_false, Nat.zero_add]

end

/-! ## sequences -/

/-- The elements that have been read, in the order in which they are written. -/
def Elements.Lists (es : Elements) (l : List Element) : Prop :=
  match es.middle with
  | none => es.back = [] ∧ l = es.front.reverse.map .one
  | some (c, arity, slot) =>
    l = es.front.reverse.map .one ++ .several c arity slot :: es.back.reverse.map .one

namespace Elements.Lists

variable {es es' : Elements} {l : List Element}

theorem nil : Lists ⟨[], none, []⟩ [] := ⟨rfl, rfl⟩

theorem add {e : Element} {offset : Nat} {p q : Progress} (hl : es.Lists l)
    (h : es.add offset e p = .ok (es', q)) : es'.Lists (l ++ [e]) ∧ q = p := by
  obtain ⟨front, middle, back⟩ := es
  cases middle with
  | none =>
    obtain ⟨rfl, rfl⟩ := hl
    cases e with
    | one c =>
      obtain ⟨rfl, rfl⟩ := pure_inv h
      exact ⟨⟨rfl, by simp⟩, rfl⟩
    | several c arity slot =>
      obtain ⟨rfl, rfl⟩ := pure_inv h
      exact ⟨rfl, rfl⟩
  | some taker =>
    obtain rfl := hl
    cases e with
    | one c =>
      obtain ⟨rfl, rfl⟩ := pure_inv h
      exact ⟨by simp [Lists], rfl⟩
    | several c arity slot => exact (fail_ne_ok h).elim

theorem countP_one (cs : List Condition) : (cs.map Element.one).countP Element.isSeveral = 0 := by
  rw [List.countP_eq_zero]
  intro e he
  obtain ⟨c, -, rfl⟩ := List.mem_map.1 he
  exact Bool.false_ne_true

/-- There is at most one element that takes several children. -/
theorem countP (hl : es.Lists l) : l.countP Element.isSeveral = es.middle.isSome.toNat := by
  obtain ⟨front, middle, back⟩ := es
  cases middle with
  | none =>
    obtain ⟨-, rfl⟩ := hl
    exact countP_one _
  | some taker =>
    obtain rfl := hl
    rw [List.countP_append, List.countP_cons_of_pos rfl, countP_one, countP_one]
    rfl

theorem toCondition (hl : es.Lists l) (head : Condition) :
    es.toCondition head = .ofElements head l := by
  have hone : ∀ cs : List Condition, ∀ e ∈ cs.map Element.one, (!e.isSeveral) = true := by
    intro cs e he
    obtain ⟨c, -, rfl⟩ := List.mem_map.1 he
    rfl
  have hmap : ∀ cs : List Condition, (cs.map Element.one).map Element.condition = cs := by
    intro cs
    rw [List.map_map]
    exact List.map_id cs
  obtain ⟨front, middle, back⟩ := es
  cases middle with
  | none =>
    obtain ⟨-, rfl⟩ := hl
    rw [Condition.ofElements, ← List.append_nil (List.map _ _),
      List.dropWhile_append_of_pos (hone _), List.append_nil, hmap]
    rfl
  | some taker =>
    obtain ⟨c, arity, slot⟩ := taker
    obtain rfl := hl
    rw [Condition.ofElements, List.dropWhile_append_of_pos (hone _),
      List.takeWhile_append_of_pos (hone _),
      List.dropWhile_cons_of_neg (by simp [Element.isSeveral]),
      List.takeWhile_cons_of_neg (by simp [Element.isSeveral]), List.append_nil, hmap]
    simp only [hmap]
    rfl

end Elements.Lists

section
variable {env : Environment} {isHead : Bool} {p q : Progress} {term : Compile Condition}

theorem Part.isSeveral_toElement (part : Part) (lo : Nat) :
    (part.toElement env lo).isSeveral = part.isVariadic := by
  cases part with
  | dots => rfl
  | item captured inner arity =>
    cases arity with
    | some => rfl
    | none => cases captured <;> rfl

theorem Part.countP_toElements (env : Environment) (parts : List Part) (lo : Nat) :
    (toElements env parts lo).countP Element.isSeveral = parts.countP isVariadic := by
  induction parts generalizing lo with
  | nil => rfl
  | cons part parts ih =>
    rw [toElements, List.countP_cons, List.countP_cons, ih, isSeveral_toElement]

/-- The parts that are read behind a head, up to the parenthesis that closes the sequence. -/
theorem elements_inv (hterm : ReadsPhrases env false term) {opening limit : Nat}
    {es es' : Elements} {l : List Element} (hl : es.Lists l)
    (h : elements term opening limit es p = .ok (es', q)) :
    ∃ parts c, c.token = .closeParen ∧ Chain SpellsPart parts p.tokens (c :: q.tokens) ∧
      (∀ part ∈ parts, ∀ s ∈ part.inner?, s.Admissible env) ∧
      es'.Lists (l ++ Part.toElements env parts p.captures) ∧
      q.captures = p.captures + Part.capturesEach parts ∧
      q.names = addNames p.names (Part.writtenEach parts p.captures) := by
  induction limit generalizing es l p with
  | zero => exact (fail_ne_ok h).elim
  | succ limit ih =>
    unfold elements at h
    replace h := peek_bind_inv h
    cases htokens : p.tokens with
    | nil =>
      rw [htokens] at h
      exact (fail_ne_ok h).elim
    | cons t ts =>
      rw [htokens] at h
      simp only [List.head?_cons] at h
      split at h
      next ht =>
        replace h := skip_bind_inv h
        obtain ⟨rfl, rfl⟩ := pure_inv h
        refine ⟨[], t, ht, ?_, fun part hpart => absurd hpart List.not_mem_nil, ?_, rfl, rfl⟩
        · rw [htokens]
          exact .nil
        · rw [Part.toElements, List.append_nil]
          exact hl
      next =>
        obtain ⟨e, m, he, hadd⟩ := bind_inv h
        obtain ⟨part, hpart⟩ := exists_took_of_element hterm he
        obtain ⟨es₁, m₁, hes₁, hrest⟩ := bind_inv hadd
        obtain ⟨hl₁, hm⟩ := hl.add hes₁
        rw [hm] at hrest
        obtain ⟨parts, c, hc, hchain, hadm, hlist, hq, hnames⟩ := ih hl₁ hrest
        refine ⟨part :: parts, c, hc, ?_, ?_, ?_, ?_, ?_⟩
        · rw [← htokens]
          exact .cons hpart.spells hchain
        · exact List.forall_mem_cons.2 ⟨hpart.admissible, hadm⟩
        · rw [hpart.element, hpart.captures, List.append_assoc] at hlist
          exact hlist
        · rw [hq, hpart.captures, Part.capturesEach, Nat.add_assoc]
        · rw [hnames, hpart.names, hpart.captures, ← addNames_append]
          rfl

theorem exists_took_of_sequence {head : Compile Condition} (hhead : ReadsPhrases env true head)
    (hterm : ReadsPhrases env false term) {o : Placed} (ho : o.token = .openParen) {opening k : Nat}
    {ts : List Placed} {names : List (String × Nat)} {c : Condition}
    (h : sequence head term opening ⟨ts, k, names⟩ = .ok (c, q)) :
    ∃ d : Phrase, d.Took env isHead ⟨o :: ts, k, names⟩ q c := by
  replace h := peek_bind_inv h
  cases ts with
  | nil => exact (fail_ne_ok h).elim
  | cons t ts =>
    simp only [List.head?_cons] at h
    split at h
    · exact (fail_ne_ok h).elim
    obtain ⟨hd, m, hhd, hbehind⟩ := bind_inv h
    obtain ⟨d, hd⟩ := hhead hhd
    replace hbehind := get_bind_inv hbehind
    obtain ⟨es, m', hes, hpure⟩ := bind_inv hbehind
    obtain ⟨rfl, rfl⟩ := pure_inv hpure
    obtain ⟨parts, c, hc, hchain, hadm, hlist, hq, hnames⟩ := elements_inv hterm .nil hes
    rw [List.nil_append] at hlist
    refine ⟨.sequence d parts, .sequence ho hd.spells hchain hc, ?_, ?_, ?_, ?_⟩
    · refine Phrase.admissible_of ?_ fun s hs => ?_
      · rw [Phrase.Fits, ← Part.countP_toElements env parts m.captures, hlist.countP]
        exact Bool.toNat_le _
      · rcases Phrase.mem_direct_sequence.1 hs with rfl | ⟨captured, arity, hpart⟩
        · exact hd.admissible
        · exact hadm _ hpart s rfl
    · rw [hlist.toCondition, hd.condition, hd.captures]
      rfl
    · rw [hq, hd.captures, Phrase.captures, Nat.add_assoc]
    · rw [hnames, hd.names, hd.captures, ← addNames_append]
      rfl

/-! ## lists of terms -/

theorem intersectionTerm?_inv (hterm : ReadsPhrases env isHead term) {opening : Nat}
    {o : Option Condition} (h : intersectionTerm? term opening p = .ok (o, q)) :
    o.elim (∃ t, p.tokens = t :: q.tokens ∧ t.token = .closeBracket ∧ q.captures = p.captures ∧
        q.names = p.names)
      fun c => ∃ d : Phrase, d.Took env isHead p q c := by
  replace h := peek_bind_inv h
  cases htokens : p.tokens with
  | nil =>
    rw [htokens] at h
    exact (fail_ne_ok h).elim
  | cons t ts =>
    rw [htokens] at h
    simp only [List.head?_cons] at h
    split at h
    next ht =>
      replace h := skip_bind_inv h
      obtain ⟨rfl, rfl⟩ := pure_inv h
      rw [htokens]
      exact ⟨t, rfl, ht, rfl, rfl⟩
    next =>
      obtain ⟨c, hc, rfl⟩ := map_inv h
      exact hterm hc

theorem exists_took_of_intersection (hterm : ReadsPhrases env isHead term) {o : Placed}
    (ho : o.token = .openBracket) {t : Placed} {ts : List Placed} {k : Nat}
    {names : List (String × Nat)} {c : Condition}
    (h : intersection term t ⟨ts, k, names⟩ = .ok (c, q)) :
    ∃ d : Phrase, d.Took env isHead ⟨o :: ts, k, names⟩ q c := by
  replace h := get_bind_inv h
  obtain ⟨bs, m, hbs, hrest⟩ := bind_inv h
  split at hrest
  · exact (fail_ne_ok hrest).elim
  next hne =>
  obtain ⟨rfl, rfl⟩ := pure_inv hrest
  have hread : ∃ ds c, c.token = .closeBracket ∧ Chain Spells ds ts (c :: q.tokens) ∧
      (∀ d ∈ ds, d.Admissible env) ∧ bs = Phrase.toConditions env ds isHead k ∧
      q.captures = k + Phrase.capturesEach ds ∧
      q.names = addNames names (Phrase.writtenEach ds k) := by
    refine collect_steps (fun bs p q => ∃ ds c, c.token = .closeBracket ∧
      Chain Spells ds p.tokens (c :: q.tokens) ∧ (∀ d ∈ ds, d.Admissible env) ∧
      bs = Phrase.toConditions env ds isHead p.captures ∧
      q.captures = p.captures + Phrase.capturesEach ds ∧
      q.names = addNames p.names (Phrase.writtenEach ds p.captures)) ?_ ?_ ?_ (Nat.lt_succ_self _) hbs
    · intro p q hx
      obtain ⟨t, hp, ht, hcap, hsame⟩ := intersectionTerm?_inv hterm hx
      refine ⟨[], t, ht, ?_, fun d hd => absurd hd List.not_mem_nil, rfl, hcap, hsame⟩
      rw [hp]
      exact .nil
    · rintro p m q b bs hx ⟨ds, c, hc, hchain, hadm, rfl, hq, hnames⟩
      obtain ⟨d, hd⟩ := intersectionTerm?_inv hterm hx
      refine ⟨d :: ds, c, hc, .cons hd.spells hchain,
        List.forall_mem_cons.2 ⟨hd.admissible, hadm⟩, ?_, ?_, ?_⟩
      · rw [Phrase.toConditions, hd.condition, hd.captures]
      · rw [hq, hd.captures, Phrase.capturesEach, Nat.add_assoc]
      · rw [hnames, hd.names, hd.captures, ← addNames_append]
        rfl
    · intro p m b hx
      obtain ⟨d, hd⟩ := intersectionTerm?_inv hterm hx
      exact hd.spells.length_lt
  obtain ⟨ds, c, hc, hchain, hadm, rfl, hq, hnames⟩ := hread
  refine ⟨.intersection ds, .intersection ho ?_ hchain hc,
    Phrase.admissible_of trivial fun s hs => hadm s hs, rfl, hq, hnames⟩
  rintro rfl
  exact hne rfl

/-- The branches that are read up to the brace that closes the union.  All have as many captures. -/
theorem branches_inv (hterm : ReadsPhrases env isHead term) {opening base limit : Nat}
    {expected : Option Nat} {bs : List Condition}
    (h : branches term opening base limit expected p = .ok (bs, q)) :
    ∃ ds c, c.token = .closeBrace ∧ Chain Spells ds p.tokens (c :: q.tokens) ∧
      (∀ d ∈ ds, d.Admissible env) ∧ bs = Phrase.toConditionsFrom env ds isHead base ∧
      q.names = addNames p.names (Phrase.writtenFrom ds base) ∧
      ∃ k, expected.getD k = k ∧ q.captures = base + k ∧ ∀ d ∈ ds, d.captures = k := by
  induction limit generalizing expected bs p with
  | zero => exact (fail_ne_ok h).elim
  | succ limit ih =>
    unfold branches at h
    replace h := peek_bind_inv h
    cases htokens : p.tokens with
    | nil =>
      rw [htokens] at h
      exact (fail_ne_ok h).elim
    | cons t ts =>
      rw [htokens] at h
      simp only [List.head?_cons] at h
      split at h
      next ht =>
        replace h := modify_bind_inv (skip_bind_inv h)
        obtain ⟨rfl, rfl⟩ := pure_inv h
        refine ⟨[], t, ht, ?_, fun d hd => absurd hd List.not_mem_nil, rfl, rfl, expected.getD 0, ?_,
          rfl, fun d hd => absurd hd List.not_mem_nil⟩
        · rw [htokens]
          exact .nil
        · cases expected <;> rfl
      next =>
        replace h := modify_bind_inv h
        obtain ⟨c, m, hc, hrest⟩ := bind_inv h
        obtain ⟨d, hd⟩ := hterm hc
        replace hrest := get_bind_inv hrest
        have hcount : m.captures - base = d.captures := by
          rw [hd.captures]
          exact Nat.add_sub_cancel_left base d.captures
        rw [hcount] at hrest
        split at hrest
        · exact (fail_ne_ok hrest).elim
        next hwanted =>
        obtain ⟨cs, m', hcs, hpure⟩ := bind_inv hrest
        obtain ⟨rfl, rfl⟩ := pure_inv hpure
        obtain ⟨ds, close, hclose, hchain, hadm, rfl, hnames, k, hk, hq, hall⟩ := ih hcs
        obtain rfl : d.captures = k := hk
        refine ⟨d :: ds, close, hclose, ?_, List.forall_mem_cons.2 ⟨hd.admissible, hadm⟩, ?_, ?_,
          d.captures, Decidable.not_not.1 hwanted, hq, List.forall_mem_cons.2 ⟨rfl, hall⟩⟩
        · rw [← htokens]
          exact .cons hd.spells hchain
        · rw [Phrase.toConditionsFrom, hd.condition]
        · rw [hnames, hd.names, ← addNames_append]
          rfl

theorem exists_took_of_union (hterm : ReadsPhrases env isHead term) {o : Placed}
    (ho : o.token = .openBrace) {opening : Nat} {ts : List Placed} {k : Nat}
    {names : List (String × Nat)} {c : Condition}
    (h : union term opening ⟨ts, k, names⟩ = .ok (c, q)) :
    ∃ d : Phrase, d.Took env isHead ⟨o :: ts, k, names⟩ q c := by
  replace h := get_bind_inv h
  obtain ⟨bs, m, hbs, hrest⟩ := bind_inv h
  split at hrest
  · exact (fail_ne_ok hrest).elim
  next hne =>
  obtain ⟨rfl, rfl⟩ := pure_inv hrest
  obtain ⟨ds, c, hc, hchain, hadm, rfl, hnames, n, -, hq, hall⟩ := branches_inv hterm hbs
  have hds : ds ≠ [] := by
    rintro rfl
    exact hne rfl
  refine ⟨.union ds, .union ho hds hchain hc,
    Phrase.admissible_of ?_ fun s hs => hadm s hs, rfl, ?_, hnames⟩
  · intro b hb b' hb'
    rw [hall b hb, hall b' hb']
  · rw [hq]
    cases ds with
    | nil => exact absurd rfl hds
    | cons d ds => exact congrArg (k + ·) (hall d List.mem_cons_self).symm

/-! ## whole patterns -/

theorem exists_took_of_marked {mark : Mark} {o : Placed} (ho : o.token = mark.token)
    {inner : Phrase} {m : Progress} {k : Nat} {names : List (String × Nat)} {c : Condition}
    (hm : m.captures = k + mark.slots)
    (hnames : m.names = addNames names (mark.written k (captureName? m.tokens.head?)))
    (hd : inner.Took env (mark.keepsHead isHead) m q c)
    (hfits : mark = .negation → inner.captures = 0) :
    ∃ d : Phrase, d.Took env isHead ⟨o :: m.tokens, k, names⟩ q (mark.apply k c) := by
  refine ⟨.marked mark inner, .marked ho hd.spells, ?_, ?_, ?_, ?_⟩
  · refine Phrase.admissible_of
      (fun hm => (Phrase.captures_eq_zero_iff hd.admissible).1 (hfits hm)) fun s hs => ?_
    obtain rfl := List.mem_singleton.1 hs
    exact hd.admissible
  · rw [hd.condition, hm]
    rfl
  · rw [hd.captures, hm, Phrase.captures, Nat.add_assoc]
  · rw [hd.names, hnames, hm, captureName?_of_spells hd.spells, ← addNames_append]
    rfl

theorem exists_took_of_termBehind {reader : Bool → Compile Condition}
    (hreader : ∀ isHead, ReadsPhrases env isHead (reader isHead)) {t : Placed} {ts : List Placed}
    {k : Nat} {names : List (String × Nat)} {c : Condition}
    (h : termBehind env reader isHead t ⟨ts, k, names⟩ = .ok (c, q)) :
    ∃ d : Phrase, d.Took env isHead ⟨t :: ts, k, names⟩ q c := by
  unfold termBehind at h
  -- a token that stands for something by itself
  have hleaf : ∀ {c' : Condition}, t.token.isLeaf = true → t.token.condition? env isHead = some c' →
      (pure c' : Compile Condition) ⟨ts, k, names⟩ = .ok (c, q) →
      ∃ d : Phrase, d.Took env isHead ⟨t :: ts, k, names⟩ q c := by
    intro c' ht hc h
    obtain ⟨rfl, rfl⟩ := pure_inv h
    exact exists_took_of_leaf ht hc
  cases ht : t.token <;> rw [ht] at h hleaf
  case openParen => exact exists_took_of_sequence (hreader true) (hreader false) ht h
  case openBrace => exact exists_took_of_union (hreader isHead) ht h
  case openBracket => exact exists_took_of_intersection (hreader isHead) ht h
  case bang =>
    replace h := get_bind_inv h
    obtain ⟨b, m, hb, hrest⟩ := bind_inv h
    obtain ⟨d, hd⟩ := hreader isHead hb
    replace hrest := get_bind_inv hrest
    split at hrest
    · exact (fail_ne_ok hrest).elim
    next hsame =>
    obtain ⟨rfl, rfl⟩ := pure_inv hrest
    have hnone : d.captures = 0 := by
      have hq : q.captures = k + d.captures := hd.captures
      have hk : q.captures = k := Decidable.not_not.1 hsame
      omega
    exact exists_took_of_marked (show t.token = Mark.token .negation from ht) rfl rfl hd
      fun _ => hnone
  case dollar =>
    obtain ⟨slot, m, hs, hrest⟩ := bind_inv h
    replace hrest := peek_bind_inv hrest
    split at hrest
    · exact (fail_ne_ok hrest).elim
    obtain ⟨b, l, hb, hpure⟩ := bind_inv hrest
    obtain ⟨rfl, rfl⟩ := pure_inv hpure
    obtain ⟨d, hd⟩ := hreader isHead hb
    obtain ⟨rfl, hnext⟩ := newSlot_inv hs
    have hm : m.tokens = ts := tokens_newSlot hs
    have hnames := names_newSlot hs
    rw [← hm]
    rw [← tokens_newSlot hs] at hnames
    exact exists_took_of_marked (show t.token = Mark.token .capture from ht) hnext hnames hd
      fun hm => nomatch hm
  case caret =>
    obtain ⟨b, hb, rfl⟩ := map_inv h
    obtain ⟨d, hd⟩ := hreader false hb
    exact exists_took_of_marked (show t.token = Mark.token .parent from ht) rfl rfl hd
      fun hm => nomatch hm
  case backquote =>
    obtain ⟨b, hb, rfl⟩ := map_inv h
    obtain ⟨d, hd⟩ := hreader false hb
    exact exists_took_of_marked (show t.token = Mark.token .descendant from ht) rfl rfl hd
      fun hm => nomatch hm
  case word name =>
    obtain ⟨hc, rfl⟩ := wordCondition_eq_ok.1 h
    exact hleaf rfl hc rfl
  case external name => exact exists_took_of_externalCondition ht h
  case set name hasPercent =>
    simp only at h
    cases hs : env.set? name with
    | none =>
      rw [hs] at h
      exact (fail_ne_ok h).elim
    | some symbols =>
      rw [hs] at h
      exact hleaf rfl (congrArg (Option.map Condition.oneOf) hs) h
  -- the other tokens are terms by themselves, or no term starts with them
  all_goals
    first
    | exact (fail_ne_ok h).elim
    | exact hleaf rfl rfl h

/-- A term that is read is a phrase. -/
theorem exists_took_of_term {stop depth : Nat} :
    ReadsPhrases env isHead (Pattern.term env stop depth isHead) := by
  induction depth generalizing isHead with
  | zero =>
    intro p c q h
    exact (fail_ne_ok h).elim
  | succ depth ih =>
    intro p c q h
    replace h := peek_bind_inv h
    obtain ⟨tokens, k, names⟩ := p
    cases tokens with
    | nil => exact (fail_ne_ok h).elim
    | cons t ts =>
      replace h := skip_bind_inv h
      have hreader : ∀ isHead, ReadsPhrases env isHead (Pattern.term env stop depth isHead) :=
        fun _ => ih
      exact exists_took_of_termBehind hreader h

/-- The text of a pattern that compiles is a phrase, and the pattern has its condition and the names
of its captures. -/
theorem exists_phrase_of_compile {source : String} {tokens : List Placed} {p : Pattern}
    (hs : Token.scan source.toList = .ok tokens) (h : compile source env = .ok p) :
    ∃ d : Phrase, Spells d tokens [] ∧ d.Admissible env ∧
      p.condition = d.toCondition env false 0 ∧ p.captureCount = d.captures ∧
      p.names = addNames [] (d.written 0) := by
  obtain ⟨⟨c, q⟩, hr, hp⟩ := ok_of_bind h
  obtain ⟨tokens', hs', hw⟩ := ok_of_bind hr
  obtain rfl : tokens = tokens' := Except.ok.inj (hs.symm.trans hs')
  cases hp
  replace hw := get_bind_inv hw
  split at hw
  · exact (fail_ne_ok hw).elim
  obtain ⟨c', m, hc, hrest⟩ := bind_inv hw
  obtain ⟨d, hd⟩ := exists_took_of_term hc
  replace hrest := peek_bind_inv hrest
  cases hm : m.tokens with
  | cons t ts =>
    rw [hm] at hrest
    exact (fail_ne_ok hrest).elim
  | nil =>
    rw [hm] at hrest
    obtain ⟨rfl, rfl⟩ := pure_inv hrest
    have hspells := hd.spells
    rw [hm] at hspells
    refine ⟨d, hspells, hd.admissible, hd.condition, ?_, hd.names⟩
    exact hd.captures.trans (Nat.zero_add _)

theorem exists_spells_of_compile {source : String} {tokens : List Placed} {p : Pattern}
    (hs : Token.scan source.toList = .ok tokens) (h : compile source env = .ok p) :
    ∃ d : Phrase, Spells d tokens [] ∧ d.Admissible env ∧
      p.condition = d.toCondition env false 0 ∧ p.captureCount = d.captures := by
  obtain ⟨d, hd, hadm, hcondition, hcaptures, -⟩ := exists_phrase_of_compile hs h
  exact ⟨d, hd, hadm, hcondition, hcaptures⟩

end

end RubyLint.Pattern
