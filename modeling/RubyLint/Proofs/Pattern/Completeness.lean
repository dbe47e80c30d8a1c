import RubyLint.Proofs.Pattern.Soundness
import RubyLint.Proofs.Pattern.Unambiguous

/-!
# What compiles

The readers of the compiler go through every admissible phrase.  Of each reader it is only shown
here that it does not fail where such a phrase comes next: what it then has read is a phrase again,
and since tokens start with one phrase only, it is the same.

* `accepts_term`              a term is read as the phrase that comes next;
* `exists_compile_of_spells`  a text compiles if its tokens are those of an admissible phrase.
-/

namespace RubyLint.Pattern

open Compile

/-! ## steps that succeed -/

section
variable {α β : Type} {p : Progress}

theorem Compile.bind_ok {x : Compile α} {f : α → Compile β} {a : α} {m : Progress}
    (hx : x p = .ok (a, m)) : (x >>= f) p = f a m := by
  show (x p >>= fun r => f r.1 r.2) = f a m
  rw [hx]
  rfl

theorem Compile.get_bind (f : Progress → Compile β) : (get >>= f) p = f p p := rfl

theorem Compile.modify_bind (g : Progress → Progress) (f : PUnit → Compile β) :
    (modify g >>= f) p = f ⟨⟩ (g p) := rfl

theorem Compile.peek_bind (f : Option Placed → Compile β) : (peek >>= f) p = f p.tokens.head? p :=
  rfl

theorem Compile.skip_bind (f : Unit → Compile β) :
    (skip >>= f) p = f () { p with tokens := p.tokens.drop 1 } := rfl

theorem Compile.map_ok {x : Compile α} {f : α → β} (hx : ∃ r, x p = .ok r) :
    ∃ r, (f <$> x) p = .ok r := by
  obtain ⟨⟨a, m⟩, ha⟩ := hx
  exact ⟨(f a, m), bind_ok (f := fun a => pure (f a)) ha⟩

theorem Compile.accept_ok {token : Token} {t : Placed} {ts : List Placed}
    (hp : p.tokens = t :: ts) (ht : t.token = token) :
    accept token p = .ok (true, { p with tokens := ts }) := by
  obtain ⟨tokens, k, names⟩ := p
  obtain rfl : tokens = t :: ts := hp
  show (if t.token = token then _ else _ : Compile Bool) _ = _
  rw [if_pos ht]
  rfl

theorem Compile.accept_ne {token : Token} {t : Placed} {ts : List Placed}
    (hp : p.tokens = t :: ts) (ht : t.token ≠ token) : accept token p = .ok (false, p) := by
  obtain ⟨tokens, k, names⟩ := p
  obtain rfl : tokens = t :: ts := hp
  show (if t.token = token then _ else _ : Compile Bool) _ = _
  rw [if_neg ht]
  rfl

/-- A repetition goes through the members of a list, each of which its reader answers. -/
theorem collect_ok {R : α → List Placed → List Placed → Prop} {x : Compile (Option β)}
    {as : List α} {ts : List Placed} {bound limit : Nat}
    (hend : ∀ {p : Progress}, p.tokens = ts → ∃ q, x p = .ok (none, q))
    (hstep : ∀ a ∈ as, ∀ {p : Progress} {rest}, R a p.tokens rest → p.tokens.length ≤ bound →
      ∃ b q, x p = .ok (some b, q) ∧ q.tokens = rest ∧ rest.length < p.tokens.length)
    (h : Chain R as p.tokens ts) (hbound : p.tokens.length ≤ bound) (hlimit : as.length < limit) :
    ∃ bs q, collect x limit p = .ok (bs, q) ∧ bs.length = as.length := by
  induction as generalizing p limit with
  | nil =>
    obtain ⟨limit, rfl⟩ := Nat.exists_eq_succ_of_ne_zero (Nat.ne_zero_of_lt hlimit)
    generalize htokens : p.tokens = tokens at h
    cases h with
    | nil =>
      obtain ⟨q, hq⟩ := hend htokens
      exact ⟨[], q, bind_ok hq, rfl⟩
  | cons a as ih =>
    obtain ⟨limit, rfl⟩ := Nat.exists_eq_succ_of_ne_zero (Nat.ne_zero_of_lt hlimit)
    cases h with
    | cons ha has =>
      obtain ⟨b, q, hq, rfl, hlt⟩ := hstep a List.mem_cons_self ha hbound
      obtain ⟨bs, r, hr, hlen⟩ := ih (fun a ha => hstep a (List.mem_cons_of_mem _ ha)) has
        (Nat.le_of_lt (Nat.lt_of_lt_of_le hlt hbound)) (Nat.lt_of_succ_lt_succ hlimit)
      refine ⟨b :: bs, r, ?_, congrArg Nat.succ hlen⟩
      unfold collect
      rw [bind_ok hq]
      simp only
      rw [bind_ok hr]
      rfl

end

/-! ## external predicates -/

section
variable {env : Environment} {p : Progress}

theorem argument?_end {opening : Nat} {c : Placed} {rest : List Placed}
    (hp : p.tokens = c :: rest) (hc : c.token = .closeParen) :
    ∃ q, argument? opening p = .ok (none, q) := by
  obtain ⟨tokens, k, names⟩ := p
  obtain rfl : tokens = c :: rest := hp
  show ∃ q, (if c.token = .closeParen then _ else _ : Compile (Option Argument)) _ = .ok (none, q)
  rw [if_pos hc]
  exact ⟨_, rfl⟩

theorem argument?_ok {opening : Nat} {a : Argument} {rest : List Placed}
    (h : SpellsArgument a p.tokens rest) :
    ∃ b q, argument? opening p = .ok (some b, q) ∧ q.tokens = rest := by
  obtain ⟨tokens, k, names⟩ := p
  cases h with
  | @mk t _ rest ht =>
    show ∃ b q, (if t.token = .closeParen then _ else some <$> argument t :
      Compile (Option Argument)) ⟨rest, k, names⟩ = .ok (some b, q) ∧ q.tokens = rest
    have hne : t.token ≠ .closeParen := by
      intro hc
      rw [hc] at ht
      cases ht
    rw [if_neg hne]
    exact ⟨a, _, bind_ok (f := fun a => pure (some a)) (argument_eq_ok.2 ⟨ht, rfl⟩), rfl⟩

theorem externalCondition_ok {name : String} {t : Placed}
    (hknown : (env.predicate? name).isSome = true)
    (harguments : ∀ o us, p.tokens = o :: us → o.token = .openParen → o.start = t.stop →
      ∃ args c rest, Chain SpellsArgument args us (c :: rest) ∧ c.token = .closeParen) :
    ∃ r, externalCondition env name t p = .ok r := by
  obtain ⟨tokens, k, names⟩ := p
  unfold externalCondition
  rw [if_neg (by rw [Option.isNone_iff_eq_none]; intro hn; rw [hn] at hknown; cases hknown)]
  cases tokens with
  | nil => exact ⟨_, rfl⟩
  | cons o us =>
    obtain ⟨token, start, stop⟩ := o
    cases token with
    | openParen =>
      show ∃ r, (if start = t.stop then _ else _ : Compile Condition) _ = .ok r
      split
      next hplace =>
        obtain ⟨args, c, rest, hchain, hc⟩ := harguments _ us rfl rfl hplace
        have hread : ∀ a ∈ args, ∀ {p : Progress} {rest : List Placed},
            SpellsArgument a p.tokens rest → p.tokens.length ≤ us.length →
            ∃ b q, argument? t.stop p = .ok (some b, q) ∧ q.tokens = rest ∧
              rest.length < p.tokens.length := by
          intro a _ p rest ha _
          obtain ⟨b, q, hb, hq⟩ := argument?_ok ha
          exact ⟨b, q, hb, hq, ha.length_lt⟩
        obtain ⟨as, q, has, -⟩ := collect_ok (p := ⟨us, k, names⟩) (fun hp => argument?_end hp hc)
          hread hchain (Nat.le_refl _)
          (hchain.length_lt_succ fun _ _ _ _ => SpellsArgument.length_lt)
        show ∃ r, (collect (argument? t.stop) us.length.succ >>= fun args =>
          pure (Condition.external name args)) ⟨us, k, names⟩ = .ok r
        exact ⟨_, bind_ok has⟩
      next => exact ⟨_, rfl⟩
    | _ => exact ⟨_, rfl⟩

end

/-! ## elements -/

/-- The reader goes through every admissible phrase that comes next, with that many tokens left at
most. -/
def AcceptsPhrases (env : Environment) (bound : Nat) (term : Compile Condition) : Prop :=
  ∀ {d : Phrase} {p : Progress} {rest : List Placed}, Spells d p.tokens rest → d.Admissible env →
    p.tokens.length ≤ bound →
    ∃ c q, term p = .ok (c, q) ∧ q.tokens = rest ∧ q.captures = p.captures + d.captures

section
variable {env : Environment} {p : Progress} {bound : Nat} {term : Compile Condition}

/-- What does not fail where a phrase comes next has read that phrase. -/
theorem acceptsPhrases_of_ok {isHead : Bool} (hread : ReadsPhrases env isHead term)
    (h : ∀ {d : Phrase} {p : Progress} {rest : List Placed}, Spells d p.tokens rest →
      d.Admissible env → p.tokens.length ≤ bound → ∃ r, term p = .ok r) :
    AcceptsPhrases env bound term := by
  intro d p rest hspells hadm hbound
  obtain ⟨⟨c, q⟩, hr⟩ := h hspells hadm hbound
  obtain ⟨d', hd'⟩ := hread hr
  obtain ⟨rfl, hrest⟩ := spells_unique hspells hd'.spells
  exact ⟨c, q, hr, hrest.symm, hd'.captures⟩

theorem elementBehind_dots {slot : Option Nat} {t : Placed} {rest : List Placed}
    (hp : p.tokens = t :: rest) (ht : t.token = .ellipsis) :
    ∃ e q, elementBehind term slot p = .ok (e, q) ∧ q.tokens = rest ∧ e.isSeveral = true :=
  ⟨_, _, bind_ok (accept_ok hp ht), rfl, rfl⟩

theorem elementBehind_item (hterm : AcceptsPhrases env bound term) {slot : Option Nat}
    {inner : Phrase} {arity : Option Arity} {mid rest : List Placed}
    (h : Spells inner p.tokens mid) (hadm : inner.Admissible env) (hbound : p.tokens.length ≤ bound)
    (ha : SpellsSign arity mid rest) (hrest : Unsigned rest) :
    ∃ e q, elementBehind term slot p = .ok (e, q) ∧ q.tokens = rest ∧
      e.isSeveral = arity.isSome := by
  obtain ⟨t, us, htokens⟩ := h.exists_cons
  have hdots : t.token ≠ .ellipsis := by
    intro ht
    rw [htokens] at h
    exact not_spells_ellipsis ht h
  obtain ⟨c, q, hc, hq, -⟩ := hterm h hadm hbound
  unfold elementBehind
  rw [bind_ok (accept_ne htokens hdots)]
  simp only [Bool.false_eq_true, if_false]
  rw [bind_ok hc, peek_bind, hq]
  cases ha with
  | none =>
    have hsign : (mid.head?.bind fun t => arity? t.token) = none :=
      Option.bind_eq_none_iff.2 hrest
    rw [hsign]
    exact ⟨_, _, rfl, hq, rfl⟩
  | @some u arity us hu =>
    simp only [List.head?_cons, Option.bind_some, hu]
    rw [skip_bind, hq]
    exact ⟨_, _, rfl, rfl, rfl⟩

theorem element_ok (hterm : AcceptsPhrases env bound term) {part : Part} {rest : List Placed}
    (h : SpellsPart part p.tokens rest) (hadm : ∀ s ∈ part.inner?, s.Admissible env)
    (hbound : p.tokens.length ≤ bound) (hrest : Unsigned rest) :
    ∃ e q, element term p = .ok (e, q) ∧ q.tokens = rest ∧ e.isSeveral = part.isVariadic := by
  unfold element
  generalize htokens : p.tokens = tokens at h
  cases h with
  | dots ht =>
    rw [bind_ok (accept_ne htokens (by rw [ht]; decide))]
    exact elementBehind_dots htokens ht
  | @capturedDots s t _ hs ht =>
    rw [bind_ok (accept_ok htokens hs)]
    exact elementBehind_dots rfl ht
  | item hne h ha =>
    rw [bind_ok (accept_ne htokens hne)]
    rw [← htokens] at h
    exact elementBehind_item hterm h (hadm _ rfl) hbound ha hrest
  | capturedItem hs h ha =>
    rw [bind_ok (accept_ok htokens hs)]
    rw [htokens] at hbound
    exact elementBehind_item hterm h (hadm _ rfl) (Nat.le_of_succ_le hbound) ha hrest

/-! ## sequences -/

theorem Elements.Lists.add_ok {es : Elements} {l : List Element} (hl : es.Lists l) (offset : Nat)
    {e : Element} (hone : (l ++ [e]).countP Element.isSeveral ≤ 1) :
    ∃ es', es.add offset e p = .ok (es', p) := by
  rw [List.countP_append, hl.countP] at hone
  obtain ⟨front, middle, back⟩ := es
  cases middle with
  | none => cases e <;> exact ⟨_, rfl⟩
  | some taker =>
    cases e with
    | one c => exact ⟨_, rfl⟩
    | several c arity slot => simp [Element.isSeveral] at hone

theorem elements_ok (hterm : AcceptsPhrases env bound term) {opening limit : Nat}
    {parts : List Part} {c : Placed} {rest : List Placed} {es : Elements} {l : List Element}
    (hc : c.token = .closeParen) (h : Chain SpellsPart parts p.tokens (c :: rest))
    (hadm : ∀ part ∈ parts, ∀ s ∈ part.inner?, s.Admissible env) (hl : es.Lists l)
    (hone : l.countP Element.isSeveral + parts.countP Part.isVariadic ≤ 1)
    (hbound : p.tokens.length ≤ bound) (hlimit : parts.length < limit) :
    ∃ r, elements term opening limit es p = .ok r := by
  induction parts generalizing p limit es l with
  | nil =>
    obtain ⟨limit, rfl⟩ := Nat.exists_eq_succ_of_ne_zero (Nat.ne_zero_of_lt hlimit)
    obtain ⟨tokens, k, names⟩ := p
    cases h with
    | nil =>
      unfold elements
      rw [peek_bind]
      simp only [List.head?_cons, if_pos hc]
      exact ⟨_, rfl⟩
  | cons part parts ih =>
    obtain ⟨limit, rfl⟩ := Nat.exists_eq_succ_of_ne_zero (Nat.ne_zero_of_lt hlimit)
    cases h with
    | cons hpart hparts =>
      obtain ⟨t, us, htokens, -, hne⟩ := hpart.opens Token.closes_paren
      rw [List.countP_cons] at hone
      -- no sign stands behind the element, since neither the next one nor the end starts with one
      obtain ⟨e, q, he, rfl, hsev⟩ := element_ok hterm hpart (hadm part List.mem_cons_self) hbound
        (hparts.unsigned Token.closes_paren (SpellsPart.opens Token.closes_paren) hc)
      have hcount : (l ++ [e]).countP Element.isSeveral =
          l.countP Element.isSeveral + if part.isVariadic then 1 else 0 := by
        rw [List.countP_append, List.countP_singleton, hsev]
      obtain ⟨es', hes'⟩ := hl.add_ok (p := q) t.start (e := e) (by omega)
      unfold elements
      rw [peek_bind, htokens]
      simp only [List.head?_cons, if_neg hne]
      rw [bind_ok he, bind_ok hes']
      exact ih hparts (fun part hp => hadm part (List.mem_cons_of_mem _ hp)) (hl.add hes').1
        (by omega) (Nat.le_of_lt (Nat.lt_of_lt_of_le hpart.length_lt hbound))
        (Nat.lt_of_succ_lt_succ hlimit)

theorem sequence_ok {head : Compile Condition} (hhead : AcceptsPhrases env bound head)
    (hterm : AcceptsPhrases env bound term) {opening : Nat} {d : Phrase} {parts : List Part}
    {c : Placed} {mid rest : List Placed} (hd : Spells d p.tokens mid)
    (h : Chain SpellsPart parts mid (c :: rest)) (hc : c.token = .closeParen)
    (hadm : (Phrase.sequence d parts).Admissible env) (hbound : p.tokens.length ≤ bound) :
    ∃ r, sequence head term opening p = .ok r := by
  obtain ⟨t, us, htokens, -, hne⟩ := hd.opens Token.closes_paren
  obtain ⟨b, q, hb, rfl, -⟩ := hhead hd (hadm.direct List.mem_cons_self) hbound
  have hparts : ∃ r, elements term opening q.tokens.length.succ ⟨[], none, []⟩ q = .ok r := by
    refine elements_ok hterm hc h hadm.part .nil ?_ ?_ ?_
    · rw [List.countP_nil, Nat.zero_add]
      exact hadm.fits
    · exact Nat.le_of_lt (Nat.lt_of_lt_of_le hd.length_lt hbound)
    · exact h.length_lt_succ fun _ _ _ _ => SpellsPart.length_lt
  obtain ⟨⟨es, q'⟩, hes⟩ := hparts
  unfold sequence
  rw [peek_bind, htokens]
  simp only [List.head?_cons, if_neg hne]
  rw [bind_ok hb, get_bind, bind_ok hes]
  exact ⟨_, rfl⟩

/-! ## lists of terms -/

theorem intersectionTerm?_end {opening : Nat} {c : Placed} {rest : List Placed}
    (hp : p.tokens = c :: rest) (hc : c.token = .closeBracket) :
    ∃ q, intersectionTerm? term opening p = .ok (none, q) := by
  unfold intersectionTerm?
  rw [peek_bind, hp]
  simp only [List.head?_cons, if_pos hc]
  exact ⟨_, rfl⟩

theorem intersectionTerm?_ok (hterm : AcceptsPhrases env bound term) {opening : Nat} {d : Phrase}
    {rest : List Placed} (h : Spells d p.tokens rest) (hadm : d.Admissible env)
    (hbound : p.tokens.length ≤ bound) :
    ∃ b q, intersectionTerm? term opening p = .ok (some b, q) ∧ q.tokens = rest := by
  obtain ⟨t, us, htokens, -, hne⟩ := h.opens Token.closes_bracket
  obtain ⟨b, q, hb, hq, -⟩ := hterm h hadm hbound
  unfold intersectionTerm?
  rw [peek_bind, htokens]
  simp only [List.head?_cons, if_neg hne]
  exact ⟨b, q, bind_ok (f := fun b => pure (some b)) hb, hq⟩

theorem intersection_ok (hterm : AcceptsPhrases env bound term) {t c : Placed} {ds : List Phrase}
    {rest : List Placed} (hne : ds ≠ []) (h : Chain Spells ds p.tokens (c :: rest))
    (hc : c.token = .closeBracket) (hadm : ∀ d ∈ ds, d.Admissible env)
    (hbound : p.tokens.length ≤ bound) : ∃ r, intersection term t p = .ok r := by
  have hread : ∀ d ∈ ds, ∀ {p : Progress} {rest : List Placed}, Spells d p.tokens rest →
      p.tokens.length ≤ bound → ∃ b q, intersectionTerm? term t.start p = .ok (some b, q) ∧
        q.tokens = rest ∧ rest.length < p.tokens.length := by
    intro d hd p rest hspells hbound
    obtain ⟨b, q, hb, hq⟩ := intersectionTerm?_ok hterm hspells (hadm d hd) hbound
    exact ⟨b, q, hb, hq, hspells.length_lt⟩
  obtain ⟨bs, q, hbs, hsame⟩ := collect_ok (fun hp => intersectionTerm?_end hp hc) hread h hbound
    (h.length_lt_succ fun _ _ _ _ => Spells.length_lt)
  unfold intersection
  rw [get_bind, bind_ok hbs]
  cases bs with
  | nil => exact absurd (List.length_eq_zero_iff.1 hsame.symm) hne
  | cons b bs => exact ⟨_, rfl⟩

theorem branches_ok (hterm : AcceptsPhrases env bound term) (opening base : Nat) {n limit : Nat}
    {expected : Option Nat} (hexpected : expected.getD n = n) {c : Placed} {ds : List Phrase}
    {rest : List Placed} (h : Chain Spells ds p.tokens (c :: rest)) (hc : c.token = .closeBrace)
    (hadm : ∀ d ∈ ds, d.Admissible env) (hsame : ∀ d ∈ ds, d.captures = n)
    (hbound : p.tokens.length ≤ bound) (hlimit : ds.length < limit) :
    ∃ bs q, branches term opening base limit expected p = .ok (bs, q) ∧
      bs.length = ds.length := by
  induction ds generalizing p limit expected with
  | nil =>
    obtain ⟨limit, rfl⟩ := Nat.exists_eq_succ_of_ne_zero (Nat.ne_zero_of_lt hlimit)
    obtain ⟨tokens, k, names⟩ := p
    cases h with
    | nil =>
      unfold branches
      rw [peek_bind]
      simp only [List.head?_cons, if_pos hc]
      exact ⟨[], _, rfl, rfl⟩
  | cons d ds ih =>
    obtain ⟨limit, rfl⟩ := Nat.exists_eq_succ_of_ne_zero (Nat.ne_zero_of_lt hlimit)
    cases h with
    | cons hd hds =>
      obtain ⟨t, us, htokens, -, hne⟩ := hd.opens Token.closes_brace
      -- the count starts again in front of each branch
      obtain ⟨b, q, hb, rfl, hcap⟩ :=
        hterm (p := { p with captures := base }) hd (hadm d List.mem_cons_self) hbound
      have hcount : q.captures - base = n := by
        rw [hcap, ← hsame d List.mem_cons_self]
        exact Nat.add_sub_cancel_left base d.captures
      obtain ⟨bs, q', hbs, hlen⟩ := ih (show (some n).getD n = n from rfl) hds
        (fun d hd => hadm d (List.mem_cons_of_mem _ hd))
        (fun d hd => hsame d (List.mem_cons_of_mem _ hd))
        (Nat.le_of_lt (Nat.lt_of_lt_of_le hd.length_lt hbound)) (Nat.lt_of_succ_lt_succ hlimit)
      refine ⟨b :: bs, q', ?_, congrArg Nat.succ hlen⟩
      unfold branches
      rw [peek_bind, htokens]
      simp only [List.head?_cons, if_neg hne]
      rw [modify_bind, bind_ok hb, get_bind]
      simp only [hcount, hexpected, ne_eq, not_true_eq_false, if_false]
      rw [bind_ok hbs]
      rfl

theorem union_ok (hterm : AcceptsPhrases env bound term) {opening : Nat} {c : Placed}
    {ds : List Phrase} {rest : List Placed} (hne : ds ≠ [])
    (h : Chain Spells ds p.tokens (c :: rest)) (hc : c.token = .closeBrace)
    (hadm : (Phrase.union ds).Admissible env) (hbound : p.tokens.length ≤ bound) :
    ∃ r, union term opening p = .ok r := by
  obtain ⟨bs, q, hbs, hsame⟩ := branches_ok hterm opening p.captures
    (show (none : Option Nat).getD _ = _ from rfl) h hc (fun d hd => hadm.direct hd)
    (fun d hd => hadm.fits.captures_eq hd) hbound
    (h.length_lt_succ fun _ _ _ _ => Spells.length_lt)
  unfold union
  rw [get_bind, bind_ok hbs]
  cases bs with
  | nil => exact absurd (List.length_eq_zero_iff.1 hsame.symm) hne
  | cons b bs => exact ⟨_, rfl⟩

/-! ## whole patterns -/

theorem termBehind_leaf {reader : Bool → Compile Condition} {isHead : Bool} {t : Placed}
    (ht : t.token.isLeaf = true) (hknown : (t.token.condition? env false).isSome = true) :
    ∃ r, termBehind env reader isHead t p = .ok r := by
  unfold termBehind
  cases htoken : t.token <;> rw [htoken] at ht hknown
  case word name =>
    obtain ⟨c, hc⟩ := Option.isSome_iff_exists.1 hknown
    exact ⟨(c, p), wordCondition_eq_ok.2 ⟨hc, rfl⟩⟩
  case set name hasPercent =>
    cases hs : env.set? name with
    | none =>
      rw [Token.condition?, hs] at hknown
      cases hknown
    | some symbols =>
      simp only [hs]
      exact ⟨_, rfl⟩
  all_goals
    first
    | exact ⟨_, rfl⟩
    | cases ht

theorem termBehind_marked {reader : Bool → Compile Condition} {isHead : Bool}
    (hreader : ∀ isHead, AcceptsPhrases env bound (reader isHead)) {t : Placed} {mark : Mark}
    {inner : Phrase} {rest : List Placed} (ht : t.token = mark.token)
    (h : Spells inner p.tokens rest) (hadm : (Phrase.marked mark inner).Admissible env)
    (hbound : p.tokens.length ≤ bound) : ∃ r, termBehind env reader isHead t p = .ok r := by
  have hinner : inner.Admissible env := hadm.direct List.mem_cons_self
  unfold termBehind
  cases mark with
  | negation =>
    obtain ⟨c, q, hc, -, hcap⟩ := hreader isHead h hinner hbound
    have hnone : inner.captures = 0 := (Phrase.captures_eq_zero_iff hinner).2 (hadm.fits rfl)
    rw [ht]
    simp only [Mark.token]
    rw [get_bind, bind_ok hc, get_bind, if_neg (by rw [hcap, hnone]; exact not_not_intro rfl)]
    exact ⟨_, rfl⟩
  | capture =>
    obtain ⟨tokens, k, names⟩ := p
    obtain ⟨t', us, rfl⟩ := h.exists_cons
    have hdots : t'.token ≠ .ellipsis := fun ht => not_spells_ellipsis ht h
    cases hslot : newSlot ⟨t' :: us, k, names⟩ with
    | error e => cases hslot
    | ok r =>
      obtain ⟨slot, m⟩ := r
      have hm := tokens_newSlot hslot
      rw [← hm] at h hbound
      obtain ⟨c, q, hc, -⟩ := hreader isHead h hinner hbound
      rw [ht]
      simp only [Mark.token]
      rw [bind_ok hslot, peek_bind, hm, List.head?_cons, Option.map_some,
        if_neg fun hd => hdots (Option.some.inj hd), bind_ok hc]
      exact ⟨_, rfl⟩
  | parent =>
    obtain ⟨c, q, hc, -⟩ := hreader false h hinner hbound
    rw [ht]
    exact map_ok ⟨_, hc⟩
  | descendant =>
    obtain ⟨c, q, hc, -⟩ := hreader false h hinner hbound
    rw [ht]
    exact map_ok ⟨_, hc⟩

theorem termBehind_ok {reader : Bool → Compile Condition} {isHead : Bool}
    (hreader : ∀ isHead, AcceptsPhrases env bound (reader isHead)) {d : Phrase} {t : Placed}
    {rest : List Placed} (h : Spells d (t :: p.tokens) rest) (hadm : d.Admissible env)
    (hbound : p.tokens.length ≤ bound) : ∃ r, termBehind env reader isHead t p = .ok r := by
  generalize htokens : p.tokens = tokens at h
  cases h with
  | leaf ht => exact termBehind_leaf ht hadm.fits
  | name ht hb =>
    unfold termBehind
    rw [ht]
    refine externalCondition_ok hadm.fits fun o us hus ho hplace => ?_
    exact absurd ⟨o, by rw [← htokens, hus]; rfl, ho, hplace⟩ hb
  | call ht ho hplace hargs hc =>
    unfold termBehind
    rw [ht]
    refine externalCondition_ok hadm.fits fun o us hus _ _ => ?_
    rw [htokens] at hus
    obtain ⟨rfl, rfl⟩ := List.cons.inj hus
    exact ⟨_, _, _, hargs, hc⟩
  | sequence ho hd hparts hc =>
    unfold termBehind
    rw [ho]
    rw [← htokens] at hd
    exact sequence_ok (hreader true) (hreader false) hd hparts hc hadm hbound
  | union ho hne hds hc =>
    unfold termBehind
    rw [ho]
    rw [← htokens] at hds
    exact union_ok (hreader isHead) hne hds hc hadm hbound
  | intersection ho hne hds hc =>
    unfold termBehind
    rw [ho]
    rw [← htokens] at hds
    exact intersection_ok (hreader isHead) hne hds hc (fun d hd => hadm.direct hd) hbound
  | marked ho hi =>
    rw [← htokens] at hi
    exact termBehind_marked hreader ho hi hadm hbound

/-- A term is read as the phrase that comes next. -/
theorem accepts_term (stop depth : Nat) (isHead : Bool) :
    AcceptsPhrases env depth (Pattern.term env stop depth isHead) := by
  induction depth generalizing isHead with
  | zero =>
    intro d p rest h _ hbound
    exact absurd (Nat.lt_of_lt_of_le h.length_lt hbound) (Nat.not_lt_zero _)
  | succ depth ih =>
    refine acceptsPhrases_of_ok exists_took_of_term fun {d p rest} h hadm hbound => ?_
    obtain ⟨tokens, k, names⟩ := p
    obtain ⟨t, us, rfl⟩ := h.exists_cons
    unfold Pattern.term
    rw [peek_bind]
    simp only [List.head?_cons]
    rw [skip_bind]
    have hreader : ∀ isHead, AcceptsPhrases env depth (Pattern.term env stop depth isHead) :=
      ih
    exact termBehind_ok hreader h hadm (Nat.le_of_succ_le_succ hbound)

/-- An admissible phrase compiles. -/
theorem exists_compile_of_spells {source : String} {tokens : List Placed} {d : Phrase}
    (hs : Token.scan source.toList = .ok tokens) (h : Spells d tokens [])
    (hadm : d.Admissible env) : ∃ p, compile source env = .ok p := by
  obtain ⟨t, us, rfl⟩ := h.exists_cons
  obtain ⟨c, q, hc, hq, -⟩ := accepts_term (Text.byteLength source.toList) _ false
    (p := ⟨t :: us, 0, []⟩) h hadm (Nat.le_refl _)
  have hwhole : whole env (Text.byteLength source.toList) ⟨t :: us, 0, []⟩ = .ok (c, q) := by
    unfold whole
    rw [get_bind]
    simp only [List.isEmpty_cons, Bool.false_eq_true, if_false]
    rw [bind_ok hc, peek_bind, hq]
    rfl
  have hread : read source.toList env = .ok (c, q) := by
    unfold read
    rw [hs]
    exact hwhole
  refine ⟨⟨source, c, q.captures, q.names, env⟩, ?_⟩
  unfold compile
  rw [hread]
  rfl

end

end RubyLint.Pattern
