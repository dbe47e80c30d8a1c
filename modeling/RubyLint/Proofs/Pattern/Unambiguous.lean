import RubyLint.Proofs.Pattern.Grammar

/-!
# The grammar of patterns is unambiguous

Tokens spell one phrase at most: the first token tells the production (`Spells.production`), and
where a list of terms or elements ends is told by the bracket that closes it, since no term and no
element starts with that bracket or with a sign (`Chain.unique`).

* `spells_unique`   tokens start with one term at most, so what is left behind it is settled too.
-/

namespace RubyLint.Pattern

/-! ## how phrases start -/

inductive Production where
  | leaf
  | call
  | sequence
  | union
  | intersection
  | marked (mark : Mark)

def Phrase.production : Phrase → Production
  | .leaf _ => .leaf
  | .call _ _ => .call
  | .sequence _ _ => .sequence
  | .union _ => .union
  | .intersection _ => .intersection
  | .marked mark _ => .marked mark

/-- The production of the terms that start with the token. -/
def Token.production? : Token → Option Production
  | .external _ => some .call
  | .openParen => some .sequence
  | .openBrace => some .union
  | .openBracket => some .intersection
  | .bang => some (.marked .negation)
  | .dollar => some (.marked .capture)
  | .caret => some (.marked .parent)
  | .backquote => some (.marked .descendant)
  | t => if t.isLeaf then some .leaf else none

theorem Token.production?_of_isLeaf {t : Token} (h : t.isLeaf = true) :
    t.production? = some .leaf := by
  cases t <;> first | rfl | cases h

theorem Mark.production?_token (mark : Mark) : mark.token.production? = some (.marked mark) := by
  cases mark <;> rfl

/-- The first token of a term tells its production. -/
theorem Spells.production {d : Phrase} {t : Placed} {ts rest : List Placed}
    (h : Spells d (t :: ts) rest) : t.token.production? = some d.production := by
  cases h with
  | leaf ht => exact Token.production?_of_isLeaf ht
  | name ht => rw [ht]; rfl
  | call ht => rw [ht]; rfl
  | sequence ho => rw [ho]; rfl
  | union ho => rw [ho]; rfl
  | intersection ho => rw [ho]; rfl
  | marked ho => rw [ho]; exact Mark.production?_token _

/-- Neither a sign nor the given bracket comes next, and the tokens do not end. -/
def Opens (close : Token) (ts : List Placed) : Prop :=
  ∃ t us, ts = t :: us ∧ arity? t.token = none ∧ t.token ≠ close

/-- No sign comes next. -/
def Unsigned (ts : List Placed) : Prop := ∀ t ∈ ts.head?, arity? t.token = none

theorem Opens.unsigned {close : Token} {ts : List Placed} (h : Opens close ts) : Unsigned ts := by
  obtain ⟨t, us, rfl, ht, -⟩ := h
  intro u hu
  obtain rfl : t = u := Option.some.inj hu
  exact ht

/-- A bracket that closes something. -/
def Token.Closes : Token → Prop
  | .closeParen | .closeBrace | .closeBracket => True
  | _ => False

theorem Token.closes_paren : Closes .closeParen := trivial

theorem Token.closes_brace : Closes .closeBrace := trivial

theorem Token.closes_bracket : Closes .closeBracket := trivial

theorem Token.Closes.production? {close : Token} (h : close.Closes) : close.production? = none := by
  cases close <;> first | rfl | exact h.elim

theorem Token.Closes.arity? {close : Token} (h : close.Closes) : arity? close = none := by
  cases close <;> first | rfl | exact h.elim

theorem Token.arity?_of_production? {t : Token} {production : Production}
    (h : t.production? = some production) : Pattern.arity? t = none := by
  cases t <;> first | rfl | cases h

theorem opens_of_production? {close : Token} {t : Placed} {ts : List Placed}
    {production : Production} (hc : close.Closes) (h : t.token.production? = some production) :
    Opens close (t :: ts) := by
  refine ⟨t, ts, rfl, Token.arity?_of_production? h, ?_⟩
  intro heq
  rw [heq, hc.production?] at h
  cases h

theorem Spells.opens {d : Phrase} {ts rest : List Placed} {close : Token} (hc : close.Closes)
    (h : Spells d ts rest) : Opens close ts := by
  obtain ⟨t, us, rfl⟩ := h.exists_cons
  exact opens_of_production? hc h.production

theorem SpellsPart.opens {part : Part} {ts rest : List Placed} {close : Token} (hc : close.Closes)
    (h : SpellsPart part ts rest) : Opens close ts := by
  have hdollar : ∀ {s : Placed} {us : List Placed}, s.token = .dollar → Opens close (s :: us) :=
    fun hs => opens_of_production? hc (congrArg Token.production? hs)
  cases h with
  | @dots t rest ht =>
    refine ⟨t, rest, rfl, by rw [ht]; rfl, ?_⟩
    rintro rfl
    rw [ht] at hc
    exact hc
  | capturedDots hs => exact hdollar hs
  | item ht h => exact h.opens hc
  | capturedItem hs => exact hdollar hs

theorem Token.isLeaf_of_argument? {t : Token} {a : Argument} (h : t.argument? = some a) :
    t.isLeaf = true := by
  cases t <;> first | rfl | cases h

theorem SpellsArgument.opens {a : Argument} {ts rest : List Placed} {close : Token}
    (hc : close.Closes) (h : SpellsArgument a ts rest) : Opens close ts := by
  cases h with
  | mk ht =>
    exact opens_of_production? hc (Token.production?_of_isLeaf (Token.isLeaf_of_argument? ht))

/-! ## lists -/

section
variable {α : Type} {R : α → List Placed → List Placed → Prop} {close : Token}
  {as as' : List α} {ts rest rest' : List Placed} {c c' : Placed}

/-- A list that a bracket closes starts with no sign. -/
theorem Chain.unsigned (hclose : close.Closes) (hR : ∀ {a ts m}, R a ts m → Opens close ts)
    (hc : c.token = close) (h : Chain R as ts (c :: rest)) : Unsigned ts := by
  cases h with
  | nil =>
    intro t ht
    obtain rfl : c = t := Option.some.inj ht
    rw [hc, hclose.arity?]
  | cons h => exact (hR h).unsigned

/-- Where the members of a list are told by their tokens, so is the list up to the bracket that
closes it. -/
theorem Chain.unique (hclose : close.Closes) (hR : ∀ {a ts m}, R a ts m → Opens close ts)
    (hone : ∀ a ∈ as, ∀ {a' ts m m'}, R a ts m → R a' ts m' → Unsigned m → Unsigned m' →
      a = a' ∧ m = m')
    (hc : c.token = close) (h : Chain R as ts (c :: rest))
    (hc' : c'.token = close) (h' : Chain R as' ts (c' :: rest')) : as = as' ∧ rest = rest' := by
  induction as generalizing ts as' with
  | nil =>
    cases h with
    | nil =>
      cases h' with
      | nil => exact ⟨rfl, rfl⟩
      | cons ha =>
        obtain ⟨t, us, heq, -, hne⟩ := hR ha
        obtain ⟨rfl, rfl⟩ := List.cons.inj heq
        exact absurd hc hne
  | cons a as ih =>
    cases h with
    | cons ha has =>
      cases h' with
      | nil =>
        obtain ⟨t, us, heq, -, hne⟩ := hR ha
        obtain ⟨rfl, rfl⟩ := List.cons.inj heq
        exact absurd hc' hne
      | cons ha' has' =>
        obtain ⟨rfl, rfl⟩ := hone a List.mem_cons_self ha ha' (has.unsigned hclose hR hc)
          (has'.unsigned hclose hR hc')
        obtain ⟨rfl, hrest⟩ := ih (fun b hb => hone b (List.mem_cons_of_mem _ hb)) has has'
        exact ⟨rfl, hrest⟩

end

/-! ## phrases -/

theorem spellsArgument_unique {a a' : Argument} {ts m m' : List Placed}
    (h : SpellsArgument a ts m) (h' : SpellsArgument a' ts m') : a = a' ∧ m = m' := by
  cases h with
  | mk ht =>
    cases h' with
    | mk ht' => exact ⟨Option.some.inj (ht.symm.trans ht'), rfl⟩

/-- Behind a sign comes no other, so an element has the one that stands behind it. -/
theorem spellsSign_unique {arity arity' : Option Arity} {ts m m' : List Placed}
    (h : SpellsSign arity ts m) (h' : SpellsSign arity' ts m') (hm : Unsigned m)
    (hm' : Unsigned m') : arity = arity' ∧ m = m' := by
  cases h with
  | none =>
    cases h' with
    | none => exact ⟨rfl, rfl⟩
    | some ht => exact absurd ((hm _ rfl).symm.trans ht) (by simp)
  | some ht =>
    cases h' with
    | none => exact absurd ((hm' _ rfl).symm.trans ht) (by simp)
    | some ht' => exact ⟨ht.symm.trans ht', rfl⟩

/-- The phrase is the only one that tokens may start with that start with it. -/
def Phrase.IsOnly (d : Phrase) : Prop :=
  ∀ {d' ts rest rest'}, Spells d ts rest → Spells d' ts rest' → d = d' ∧ rest = rest'

theorem not_spells_ellipsis {d : Phrase} {t : Placed} {ts rest : List Placed}
    (ht : t.token = .ellipsis) (h : Spells d (t :: ts) rest) : False := by
  have hp := h.production
  rw [ht] at hp
  cases hp

theorem spellsPart_unique {part part' : Part} {ts m m' : List Placed}
    (hone : ∀ captured inner arity, part = .item captured inner arity → inner.IsOnly)
    (h : SpellsPart part ts m) (h' : SpellsPart part' ts m') (hm : Unsigned m)
    (hm' : Unsigned m') : part = part' ∧ m = m' := by
  cases h with
  | dots ht =>
    cases h' with
    | dots => exact ⟨rfl, rfl⟩
    | capturedDots hs => cases ht.symm.trans hs
    | item hd h' => exact (not_spells_ellipsis ht h').elim
    | capturedItem hs => cases ht.symm.trans hs
  | capturedDots hs ht =>
    cases h' with
    | dots ht' => cases hs.symm.trans ht'
    | capturedDots => exact ⟨rfl, rfl⟩
    | item hd h' => exact absurd hs hd
    | capturedItem _ h' => exact (not_spells_ellipsis ht h').elim
  | item hd h ha =>
    cases h' with
    | dots ht => exact (not_spells_ellipsis ht h).elim
    | capturedDots hs => exact absurd hs hd
    | item _ h' ha' =>
      obtain ⟨rfl, rfl⟩ := hone _ _ _ rfl h h'
      obtain ⟨rfl, rfl⟩ := spellsSign_unique ha ha' hm hm'
      exact ⟨rfl, rfl⟩
    | capturedItem hs => exact absurd hs hd
  | capturedItem hs h ha =>
    cases h' with
    | dots ht => cases hs.symm.trans ht
    | capturedDots _ ht => exact (not_spells_ellipsis ht h).elim
    | item hd => exact absurd hs hd
    | capturedItem _ h' ha' =>
      obtain ⟨rfl, rfl⟩ := hone _ _ _ rfl h h'
      obtain ⟨rfl, rfl⟩ := spellsSign_unique ha ha' hm hm'
      exact ⟨rfl, rfl⟩

/-- Tokens start with one term at most. -/
theorem spells_unique {d d' : Phrase} {ts rest rest' : List Placed} (h : Spells d ts rest)
    (h' : Spells d' ts rest') : d = d' ∧ rest = rest' := by
  revert h h'
  suffices hd : d.IsOnly from hd
  -- the first token tells the production of the other phrase
  have hsame : ∀ {d d' : Phrase} {t : Placed} {ts rest rest' : List Placed},
      Spells d (t :: ts) rest → Spells d' (t :: ts) rest' → d.production = d'.production :=
    fun h h' => Option.some.inj (h.production.symm.trans h'.production)
  induction d using Phrase.ind with
  | leaf token =>
    intro d' ts rest rest' h h'
    cases h with
    | leaf ht =>
      have hp := hsame (.leaf ht) h'
      cases h' with
      | leaf => exact ⟨rfl, rfl⟩
      | _ => cases hp
  | call name arguments =>
    intro d' ts rest rest' h h'
    cases h with
    | name ht hb =>
      have hp := hsame (.name ht hb) h'
      cases h' with
      | name ht' =>
        cases ht.symm.trans ht'
        exact ⟨rfl, rfl⟩
      | call _ ho hplace => exact absurd ⟨_, rfl, ho, hplace⟩ hb
      | _ => cases hp
    | call ht ho hplace hargs hc =>
      have hp := hsame (.call ht ho hplace hargs hc) h'
      cases h' with
      | name _ hb => exact absurd ⟨_, rfl, ho, hplace⟩ hb
      | call ht' _ _ hargs' hc' =>
        cases ht.symm.trans ht'
        obtain ⟨rfl, hrest⟩ := Chain.unique Token.closes_paren
          (SpellsArgument.opens Token.closes_paren)
          (fun a _ _ _ _ _ ha ha' _ _ => spellsArgument_unique ha ha')
          hc hargs hc' hargs'
        exact ⟨rfl, hrest⟩
      | _ => cases hp
  | sequence head parts ihh ihp =>
    intro d' ts rest rest' h h'
    cases h with
    | sequence ho hh hparts hc =>
      have hp := hsame (.sequence ho hh hparts hc) h'
      cases h' with
      | sequence _ hh' hparts' hc' =>
        obtain ⟨rfl, rfl⟩ := ihh hh hh'
        obtain ⟨rfl, hrest⟩ := Chain.unique Token.closes_paren (SpellsPart.opens Token.closes_paren)
          (fun part hpart _ _ _ _ => spellsPart_unique fun captured inner arity hi =>
            ihp captured inner arity (hi ▸ hpart))
          hc hparts hc' hparts'
        exact ⟨rfl, hrest⟩
      | _ => cases hp
  | union branches ih =>
    intro d' ts rest rest' h h'
    cases h with
    | union ho hne hbranches hc =>
      have hp := hsame (.union ho hne hbranches hc) h'
      cases h' with
      | union _ _ hbranches' hc' =>
        obtain ⟨rfl, hrest⟩ := Chain.unique Token.closes_brace (Spells.opens Token.closes_brace)
          (fun b hb _ _ _ _ h h' _ _ => ih b hb h h') hc hbranches hc' hbranches'
        exact ⟨rfl, hrest⟩
      | _ => cases hp
  | intersection terms ih =>
    intro d' ts rest rest' h h'
    cases h with
    | intersection ho hne hterms hc =>
      have hp := hsame (.intersection ho hne hterms hc) h'
      cases h' with
      | intersection _ _ hterms' hc' =>
        obtain ⟨rfl, hrest⟩ := Chain.unique Token.closes_bracket (Spells.opens Token.closes_bracket)
          (fun d hd _ _ _ _ h h' _ _ => ih d hd h h') hc hterms hc' hterms'
        exact ⟨rfl, hrest⟩
      | _ => cases hp
  | marked mark inner ih =>
    intro d' ts rest rest' h h'
    cases h with
    | marked ho hi =>
      have hp := hsame (.marked ho hi) h'
      cases h' with
      | marked _ hi' =>
        obtain ⟨rfl, hrest⟩ := ih hi hi'
        cases hp
        exact ⟨rfl, hrest⟩
      | _ => cases hp

end RubyLint.Pattern
