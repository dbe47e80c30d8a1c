import RubyLint.Pattern.Compile

/-!
# The grammar of patterns

A `Phrase` is a term of a pattern as it is written, a `Part` an element of a sequence.  `Spells`
has a rule for every production of the grammar and says which tokens a phrase is written with, in
front of which others.  Two things are settled by what stands next to a token: a parenthesis right
behind the name of an external predicate belongs to that name, and a dollar sign that starts an
element belongs to the element.

* `Phrase.Within`       the phrases inside a phrase, at any depth;
* `Phrase.Admissible`   what is asked of a phrase besides being spelled: names are known, a sequence
                        has one variadic element at most, branches have as many captures as each
                        other, nothing is captured under a negation;
* `Phrase.toCondition`  the condition that a phrase stands for, its captures numbered as written;
* `captures_eq_zero_iff`  if branches have as many captures as each other, then a phrase that takes
                        no slots has no capture inside, at any depth.
-/

namespace RubyLint.Pattern

/-! ## phrases -/

/-- What may stand in front of a term. -/
inductive Mark where
  | negation
  | capture
  | parent
  | descendant
deriving DecidableEq

namespace Mark

def token : Mark → Token
  | .negation => .bang
  | .capture => .dollar
  | .parent => .caret
  | .descendant => .backquote

/-- How many slots the mark itself takes. -/
def slots : Mark → Nat
  | .capture => 1
  | _ => 0

/-- Whether the term behind the mark stands for the head of a sequence. -/
def keepsHead : Mark → Bool → Bool
  | .negation, isHead => isHead
  | .capture, isHead => isHead
  | .parent, _ => false
  | .descendant, _ => false

/-- What the mark makes of a condition; the slot is that of the capture. -/
def apply (slot : Nat) (c : Condition) : Mark → Condition
  | .negation => .negation c
  | .capture => .capture slot c
  | .parent => .parent c
  | .descendant => .descendant c

end Mark

mutual

/-- A term. -/
inductive Phrase where
  /-- a literal, a name, a set or a placeholder -/
  | leaf (token : Token)
  /-- an external predicate, with its arguments if a parenthesis stands behind its name -/
  | call (name : String) (arguments : Option (List Argument))
  | sequence (head : Phrase) (parts : List Part)
  | union (branches : List Phrase)
  | intersection (terms : List Phrase)
  | marked (mark : Mark) (inner : Phrase)

/-- An element of a sequence. -/
inductive Part where
  | dots (captured : Bool)
  | item (captured : Bool) (inner : Phrase) (arity : Option Arity)

end

namespace Part

/-- The element takes a number of children that is not fixed. -/
def isVariadic : Part → Bool
  | .dots _ => true
  | .item _ _ arity => arity.isSome

def isCaptured : Part → Bool
  | .dots captured => captured
  | .item captured _ _ => captured

def inner? : Part → Option Phrase
  | .dots _ => none
  | .item _ inner _ => some inner

end Part

namespace Phrase

/-- The phrases that stand directly in a phrase. -/
def direct : Phrase → List Phrase
  | .leaf _ => []
  | .call _ _ => []
  | .sequence head parts => head :: parts.filterMap Part.inner?
  | .union branches => branches
  | .intersection terms => terms
  | .marked _ inner => [inner]

/-- `q.Within d`: the phrase `q` is `d` or stands in it. -/
inductive Within (q : Phrase) : Phrase → Prop
  | self : Within q q
  | inside {s d : Phrase} (hs : s ∈ d.direct) (h : Within q s) : Within q d

theorem mem_direct_sequence {head s : Phrase} {parts : List Part} :
    s ∈ (sequence head parts).direct ↔
      s = head ∨ ∃ captured arity, Part.item captured s arity ∈ parts := by
  rw [direct, List.mem_cons, List.mem_filterMap]
  refine or_congr_right ⟨?_, ?_⟩
  · rintro ⟨part, hpart, hs⟩
    cases part with
    | dots => cases hs
    | item captured inner arity =>
      cases hs
      exact ⟨captured, arity, hpart⟩
  · rintro ⟨captured, arity, hpart⟩
    exact ⟨_, hpart, rfl⟩

/-- What holds of a phrase whenever it holds of those that stand directly in it holds of all. -/
@[elab_as_elim] theorem ind {motive : Phrase → Prop}
    (leaf : ∀ token, motive (.leaf token))
    (call : ∀ name arguments, motive (.call name arguments))
    (sequence : ∀ head parts, motive head →
      (∀ captured inner arity, Part.item captured inner arity ∈ parts → motive inner) →
      motive (.sequence head parts))
    (union : ∀ branches, (∀ b ∈ branches, motive b) → motive (.union branches))
    (intersection : ∀ terms, (∀ d ∈ terms, motive d) → motive (.intersection terms))
    (marked : ∀ mark inner, motive inner → motive (.marked mark inner)) (d : Phrase) :
    motive d := by
  refine @Phrase.rec motive (fun part => ∀ s ∈ part.inner?, motive s)
    (fun parts => ∀ part ∈ parts, ∀ s ∈ part.inner?, motive s) (fun ds => ∀ s ∈ ds, motive s)
    leaf call ?_ union intersection marked ?_ ?_ ?_ ?_ ?_ ?_ d
  · intro head parts hh hp
    exact sequence head parts hh fun captured inner arity h => hp _ h inner rfl
  · intro captured s hs
    cases hs
  · intro captured inner arity h s hs
    cases hs
    exact h
  · intro part hpart
    exact absurd hpart List.not_mem_nil
  · intro part parts hpart hparts other hother
    rcases List.mem_cons.1 hother with rfl | hother
    · exact hpart
    · exact hparts other hother
  · intro s hs
    exact absurd hs List.not_mem_nil
  · intro d ds hd hds s hs
    rcases List.mem_cons.1 hs with rfl | hs
    · exact hd
    · exact hds s hs

end Phrase

/-! ## the productions -/

namespace Token

/-- The token is a term by itself. -/
def isLeaf : Token → Bool
  | .sym _ | .str _ | .int _ | .float _ | .nilWord | .trueWord | .falseWord => true
  | .word _ | .set _ _ | .param _ => true
  | _ => false

/-- What the token gives to an external predicate. -/
def argument? : Token → Option Argument
  | .sym s => some (.value (.sym s))
  | .str s => some (.value (.str s))
  | .int n => some (.value (.int n))
  | .float x => some (.value (.float x))
  | .nilWord => some (.value .nil)
  | .param n => some (.param n)
  | _ => none

end Token

/-- A parenthesis opens right behind the token. -/
def Placed.OpensBehind (t : Placed) (rest : List Placed) : Prop :=
  ∃ o ∈ rest.head?, o.token = .openParen ∧ o.start = t.stop

/-- `Chain R as ts rest`: the members of the list stand one behind the other, `R` saying of each
which tokens it is written with. -/
inductive Chain {α : Type} (R : α → List Placed → List Placed → Prop) :
    List α → List Placed → List Placed → Prop
  | nil {ts : List Placed} : Chain R [] ts ts
  | cons {a : α} {as : List α} {ts mid rest : List Placed} (h : R a ts mid)
      (hs : Chain R as mid rest) : Chain R (a :: as) ts rest

/-- `Spells d ts rest`: the tokens `ts` are those of the term `d` and behind them `rest`. -/
inductive SpellsArgument : Argument → List Placed → List Placed → Prop
  | mk {t : Placed} {a : Argument} {rest : List Placed} (ht : t.token.argument? = some a) :
      SpellsArgument a (t :: rest) rest

/-- The sign behind an element, if it has one. -/
inductive SpellsSign : Option Arity → List Placed → List Placed → Prop
  | none {ts : List Placed} : SpellsSign none ts ts
  | some {t : Placed} {arity : Arity} {rest : List Placed} (ht : arity? t.token = some arity) :
      SpellsSign (some arity) (t :: rest) rest

mutual

/-- `Spells d ts rest`: the tokens `ts` are those of the term `d` and behind them `rest`. -/
inductive Spells : Phrase → List Placed → List Placed → Prop
  | leaf {t : Placed} {rest : List Placed} (ht : t.token.isLeaf = true) :
      Spells (.leaf t.token) (t :: rest) rest
  | name {t : Placed} {name : String} {rest : List Placed} (ht : t.token = .external name)
      (hb : ¬ t.OpensBehind rest) : Spells (.call name none) (t :: rest) rest
  | call {t o c : Placed} {name : String} {arguments : List Argument} {ts rest : List Placed}
      (ht : t.token = .external name) (ho : o.token = .openParen) (hplace : o.start = t.stop)
      (h : Chain SpellsArgument arguments ts (c :: rest)) (hc : c.token = .closeParen) :
      Spells (.call name (some arguments)) (t :: o :: ts) rest
  | sequence {o c : Placed} {head : Phrase} {parts : List Part} {ts mid rest : List Placed}
      (ho : o.token = .openParen) (hh : Spells head ts mid)
      (h : Chain SpellsPart parts mid (c :: rest)) (hc : c.token = .closeParen) :
      Spells (.sequence head parts) (o :: ts) rest
  | union {o c : Placed} {branches : List Phrase} {ts rest : List Placed}
      (ho : o.token = .openBrace) (hne : branches ≠ [])
      (h : Chain Spells branches ts (c :: rest)) (hc : c.token = .closeBrace) :
      Spells (.union branches) (o :: ts) rest
  | intersection {o c : Placed} {terms : List Phrase} {ts rest : List Placed}
      (ho : o.token = .openBracket) (hne : terms ≠ [])
      (h : Chain Spells terms ts (c :: rest)) (hc : c.token = .closeBracket) :
      Spells (.intersection terms) (o :: ts) rest
  | marked {o : Placed} {mark : Mark} {inner : Phrase} {ts rest : List Placed}
      (ho : o.token = mark.token) (h : Spells inner ts rest) :
      Spells (.marked mark inner) (o :: ts) rest

/-- `SpellsPart e ts rest`: the tokens `ts` are those of the element `e` and behind them `rest`. -/
inductive SpellsPart : Part → List Placed → List Placed → Prop
  | dots {t : Placed} {rest : List Placed} (ht : t.token = .ellipsis) :
      SpellsPart (.dots false) (t :: rest) rest
  | capturedDots {s t : Placed} {rest : List Placed} (hs : s.token = .dollar)
      (ht : t.token = .ellipsis) : SpellsPart (.dots true) (s :: t :: rest) rest
  | item {t : Placed} {inner : Phrase} {arity : Option Arity} {ts mid rest : List Placed}
      (ht : t.token ≠ .dollar) (h : Spells inner (t :: ts) mid) (ha : SpellsSign arity mid rest) :
      SpellsPart (.item false inner arity) (t :: ts) rest
  | capturedItem {s : Placed} {inner : Phrase} {arity : Option Arity} {ts mid rest : List Placed}
      (hs : s.token = .dollar) (h : Spells inner ts mid) (ha : SpellsSign arity mid rest) :
      SpellsPart (.item true inner arity) (s :: ts) rest

end

/-! ## how many tokens are read -/

theorem Spells.exists_cons {d : Phrase} {ts rest : List Placed} (h : Spells d ts rest) :
    ∃ t us, ts = t :: us := by
  cases h <;> exact ⟨_, _, rfl⟩

theorem Chain.length_le {α : Type} {R : α → List Placed → List Placed → Prop} {as : List α}
    {ts rest : List Placed} (hR : ∀ a ∈ as, ∀ {ts m}, R a ts m → m.length < ts.length)
    (h : Chain R as ts rest) : as.length + rest.length ≤ ts.length := by
  induction h with
  | nil => exact Nat.le_of_eq (Nat.zero_add _)
  | cons ha _ ih =>
    have hlt := hR _ List.mem_cons_self ha
    have hle := ih fun b hb => hR b (List.mem_cons_of_mem _ hb)
    rw [List.length_cons]
    omega

/-- Up to a bracket, a list has no more members than there are tokens. -/
theorem Chain.length_lt_succ {α : Type} {R : α → List Placed → List Placed → Prop} {as : List α}
    {ts rest : List Placed} {c : Placed} (hR : ∀ a ∈ as, ∀ {ts m}, R a ts m → m.length < ts.length)
    (h : Chain R as ts (c :: rest)) : as.length < ts.length.succ := by
  have hle := h.length_le hR
  rw [List.length_cons] at hle
  omega

theorem SpellsArgument.length_lt {a : Argument} {ts rest : List Placed}
    (h : SpellsArgument a ts rest) : rest.length < ts.length := by
  cases h
  exact Nat.lt_succ_self _

theorem SpellsSign.length_le {arity : Option Arity} {ts rest : List Placed}
    (h : SpellsSign arity ts rest) : rest.length ≤ ts.length := by
  cases h with
  | none => exact Nat.le_refl _
  | some => exact Nat.le_succ _

theorem SpellsPart.length_lt_of {part : Part} {ts rest : List Placed}
    (hinner : ∀ s ∈ part.inner?, ∀ {ts m}, Spells s ts m → m.length < ts.length)
    (h : SpellsPart part ts rest) : rest.length < ts.length := by
  cases h with
  | dots => exact Nat.lt_succ_self _
  | capturedDots => exact Nat.lt_succ_of_lt (Nat.lt_succ_self _)
  | item _ h ha => exact Nat.lt_of_le_of_lt ha.length_le (hinner _ rfl h)
  | capturedItem _ h ha =>
    exact Nat.lt_succ_of_lt (Nat.lt_of_le_of_lt ha.length_le (hinner _ rfl h))

/-- A term has a token. -/
theorem Spells.length_lt {d : Phrase} {ts rest : List Placed} (h : Spells d ts rest) :
    rest.length < ts.length := by
  induction d using Phrase.ind generalizing ts rest with
  | leaf =>
    cases h
    exact Nat.lt_succ_self _
  | call =>
    cases h with
    | name => exact Nat.lt_succ_self _
    | call _ _ _ h =>
      have := h.length_le fun _ _ _ _ => SpellsArgument.length_lt
      simp only [List.length_cons] at this ⊢
      omega
  | sequence head parts ihh ihp =>
    cases h with
    | sequence _ hh h =>
      have hhead := ihh hh
      have := h.length_le fun part hpart _ _ => SpellsPart.length_lt_of fun s hs _ _ hspells => by
        cases part with
        | dots => cases hs
        | item captured inner arity =>
          cases hs
          exact ihp captured s arity hpart hspells
      simp only [List.length_cons] at this ⊢
      omega
  | union branches ih =>
    cases h with
    | union _ _ h =>
      have := h.length_le fun b hb _ _ hspells => ih b hb hspells
      simp only [List.length_cons] at this ⊢
      omega
  | intersection terms ih =>
    cases h with
    | intersection _ _ h =>
      have := h.length_le fun d hd _ _ hspells => ih d hd hspells
      simp only [List.length_cons] at this ⊢
      omega
  | marked mark inner ih =>
    cases h with
    | marked _ h => exact Nat.lt_succ_of_lt (ih h)

theorem SpellsPart.length_lt {part : Part} {ts rest : List Placed} (h : SpellsPart part ts rest) :
    rest.length < ts.length :=
  h.length_lt_of fun _ _ _ _ => Spells.length_lt

/-! ## captures -/

mutual

/-- How many slots the captures of a phrase take.  The branches of a union use the same ones, so a
union counts as its first branch, also where it stands in a branch of another. -/
def Phrase.captures : Phrase → Nat
  | .leaf _ => 0
  | .call _ _ => 0
  | .sequence head parts => head.captures + Part.capturesEach parts
  | .union branches => Phrase.capturesFirst branches
  | .intersection terms => Phrase.capturesEach terms
  | .marked mark inner => mark.slots + inner.captures

def Phrase.capturesFirst : List Phrase → Nat
  | [] => 0
  | d :: _ => d.captures

def Phrase.capturesEach : List Phrase → Nat
  | [] => 0
  | d :: ds => d.captures + Phrase.capturesEach ds

def Part.captures : Part → Nat
  | .dots captured => captured.toNat
  | .item captured inner _ => captured.toNat + inner.captures

def Part.capturesEach : List Part → Nat
  | [] => 0
  | part :: parts => part.captures + Part.capturesEach parts

end

/-- The phrase is a capture, or an element of it is one. -/
def Phrase.MakesCapture : Phrase → Prop
  | .marked mark _ => mark = .capture
  | .sequence _ parts => ∃ part ∈ parts, part.isCaptured = true
  | _ => False

/-! ## what is asked of a phrase -/

/-- What a word stands for: a wildcard, the kinds of calls, a kind, or a question. -/
def wordCondition? (name : String) : Option Condition :=
  if name.toList.head? = some '_' then some .wildcard
  else if name = "call" then some (.kindIn [.send, .safeSend])
  else ((Kind.ofName? name).map .kind).or ((Builtin.ofName? name).map .builtin)

/-- What a token stands for that is a term by itself, if its name is known. -/
def Token.condition? (env : Environment) (isHead : Bool) : Token → Option Condition
  | .sym s => some (.literal (.sym s))
  | .str s => some (.literal (.str s))
  | .int n => some (.literal (.int n))
  | .float x => some (.literal (.float x))
  | .nilWord => some (if isHead then .kind .nilLiteral else .literal .nil)
  | .trueWord => some (.kind .trueLiteral)
  | .falseWord => some (.kind .falseLiteral)
  | .word name => wordCondition? name
  | .set name _ => (env.set? name).map .oneOf
  | .param n => some (.param n)
  | _ => none

namespace Phrase

section
variable (env : Environment)

/-- What is asked of a phrase as it stands, whatever is asked of those in it. -/
def Fits : Phrase → Prop
  | .leaf token => (token.condition? env false).isSome
  | .call name _ => (env.predicate? name).isSome
  | .sequence _ parts => parts.countP Part.isVariadic ≤ 1
  | .union branches => ∀ b ∈ branches, ∀ b' ∈ branches, b.captures = b'.captures
  | .intersection _ => True
  | .marked mark inner => mark = .negation → ∀ q : Phrase, q.Within inner → ¬ q.MakesCapture

/-- The phrase and all in it are as they should be. -/
def Admissible (d : Phrase) : Prop := ∀ q, Within q d → q.Fits env

end

variable {env : Environment} {d : Phrase}

theorem Admissible.fits (h : d.Admissible env) : d.Fits env := h d .self

theorem Admissible.direct (h : d.Admissible env) {s : Phrase} (hs : s ∈ d.direct) :
    s.Admissible env :=
  fun q hq => h q (.inside hs hq)

theorem admissible_of (hd : d.Fits env) (h : ∀ s ∈ d.direct, s.Admissible env) :
    d.Admissible env := by
  intro q hq
  cases hq with
  | self => exact hd
  | inside hs hq => exact h _ hs q hq

theorem Admissible.part {head : Phrase} {parts : List Part}
    (h : (sequence head parts).Admissible env) :
    ∀ part ∈ parts, ∀ s ∈ part.inner?, s.Admissible env :=
  fun part hpart _ hs => h.direct (List.mem_cons_of_mem _ (List.mem_filterMap.2 ⟨part, hpart, hs⟩))

theorem capturesEach_eq_zero_iff {ds : List Phrase} :
    capturesEach ds = 0 ↔ ∀ d ∈ ds, d.captures = 0 := by
  induction ds with
  | nil => simp [capturesEach]
  | cons d ds ih => rw [capturesEach, Nat.add_eq_zero_iff, ih, List.forall_mem_cons]

/-- The branches of a union have as many captures as the first. -/
theorem Fits.captures_eq {branches : List Phrase} (h : (union branches).Fits env) {b : Phrase}
    (hb : b ∈ branches) : b.captures = (union branches).captures := by
  cases branches with
  | nil => exact absurd hb List.not_mem_nil
  | cons first rest =>
    simp only [Fits] at h
    exact h b hb first List.mem_cons_self

end Phrase

theorem Part.capturesEach_eq_zero_iff {parts : List Part} :
    capturesEach parts = 0 ↔ ∀ part ∈ parts, part.captures = 0 := by
  induction parts with
  | nil => simp [capturesEach]
  | cons part parts ih => rw [capturesEach, Nat.add_eq_zero_iff, ih, List.forall_mem_cons]

theorem Part.captures_eq_zero_iff {part : Part} :
    part.captures = 0 ↔ part.isCaptured = false ∧ ∀ s ∈ part.inner?, s.captures = 0 := by
  cases part with
  | dots captured => simp [Part.captures, isCaptured, inner?]
  | item captured inner arity => simp [Part.captures, isCaptured, inner?]

namespace Phrase

variable {env : Environment} {d : Phrase}

/-- A phrase makes no captures if it is none and those directly in it make none; of a union it is
enough to know the first branch. -/
theorem captures_eq_zero_iff_direct (h : d.Fits env) :
    d.captures = 0 ↔ ¬ d.MakesCapture ∧ ∀ s ∈ d.direct, s.captures = 0 := by
  cases d with
  | leaf => simp [captures, MakesCapture, direct]
  | call => simp [captures, MakesCapture, direct]
  | sequence head parts =>
    rw [captures, Nat.add_eq_zero_iff, Part.capturesEach_eq_zero_iff]
    simp only [Part.captures_eq_zero_iff, MakesCapture, direct, List.forall_mem_cons,
      List.mem_filterMap, not_exists, not_and, Bool.not_eq_true]
    constructor
    · rintro ⟨hh, hp⟩
      exact ⟨fun part hpart => (hp part hpart).1, hh,
        fun s ⟨part, hpart, hs⟩ => (hp part hpart).2 s hs⟩
    · rintro ⟨hp, hh, hs⟩
      exact ⟨hh, fun part hpart => ⟨hp part hpart, fun s h => hs s ⟨part, hpart, h⟩⟩⟩
  | union branches =>
    simp only [MakesCapture, not_false_eq_true, direct, true_and]
    constructor
    · intro hzero b hb
      rw [h.captures_eq hb, hzero]
    · intro hall
      cases branches with
      | nil => rfl
      | cons b rest => exact hall b List.mem_cons_self
  | intersection terms =>
    simp only [captures, MakesCapture, not_false_eq_true, direct, true_and,
      capturesEach_eq_zero_iff]
  | marked mark inner =>
    rw [captures, Nat.add_eq_zero_iff]
    simp only [MakesCapture, direct, List.mem_singleton, forall_eq]
    refine and_congr_left fun _ => ?_
    cases mark <;> simp [Mark.slots]

/-- The number of captures tells whether there is one anywhere in the phrase. -/
theorem captures_eq_zero_iff (h : d.Admissible env) :
    d.captures = 0 ↔ ∀ q : Phrase, q.Within d → ¬ q.MakesCapture := by
  have hstep : ∀ {d : Phrase}, d.Admissible env →
      (∀ s ∈ d.direct, (s.captures = 0 ↔ ∀ q : Phrase, q.Within s → ¬ q.MakesCapture)) →
      (d.captures = 0 ↔ ∀ q : Phrase, q.Within d → ¬ q.MakesCapture) := by
    intro d h ih
    rw [captures_eq_zero_iff_direct h.fits]
    constructor
    · rintro ⟨hd, hs⟩ q hq
      cases hq with
      | self => exact hd
      | inside hmem hq => exact (ih _ hmem).1 (hs _ hmem) q hq
    · exact fun hall => ⟨hall d .self, fun s hs => (ih s hs).2 fun q hq => hall q (.inside hs hq)⟩
  induction d using Phrase.ind with
  | leaf token => exact hstep h fun s hs => absurd hs List.not_mem_nil
  | call name arguments => exact hstep h fun s hs => absurd hs List.not_mem_nil
  | sequence head parts ihh ihp =>
    refine hstep h fun s hs => ?_
    have hadm := h.direct hs
    rcases mem_direct_sequence.1 hs with rfl | ⟨captured, arity, hpart⟩
    · exact ihh hadm
    · exact ihp captured s arity hpart hadm
  | union branches ih => exact hstep h fun s hs => ih s hs (h.direct hs)
  | intersection terms ih => exact hstep h fun s hs => ih s hs (h.direct hs)
  | marked mark inner ih =>
    refine hstep h fun s hs => ?_
    obtain rfl := List.mem_singleton.1 hs
    exact ih (h.direct hs)

end Phrase

/-! ## the condition of a phrase -/

namespace Element

def isSeveral : Element → Bool
  | .one _ => false
  | .several _ _ _ => true

def condition : Element → Condition
  | .one c => c
  | .several c _ _ => c

/-- The element of a condition, with the sign behind it and the slot of its capture. -/
def of (c : Condition) : Option Arity → Option Nat → Element
  | some arity, slot => .several c arity slot
  | none, some slot => .one (.capture slot c)
  | none, none => .one c

end Element

/-- The sequence of the elements, of which one at most takes several children. -/
def Condition.ofElements (head : Condition) (es : List Element) : Condition :=
  match es.dropWhile fun e => !e.isSeveral with
  | .several middle arity slot :: back =>
    .around head ((es.takeWhile fun e => !e.isSeveral).map Element.condition) middle arity slot
      (back.map Element.condition)
  | _ => .exactly head (es.map Element.condition)

section
variable (env : Environment)

mutual

/-- The condition that a phrase stands for, if its captures have the slots from `lo` on. -/
def Phrase.toCondition : Phrase → Bool → Nat → Condition
  | .leaf token, isHead, _ => (token.condition? env isHead).getD .wildcard
  | .call name arguments, _, _ => .external name (arguments.getD [])
  | .sequence head parts, _, lo =>
    .ofElements (head.toCondition true lo) (Part.toElements parts (lo + head.captures))
  | .union branches, isHead, lo => .union (Phrase.toConditionsFrom branches isHead lo)
  | .intersection terms, isHead, lo => .intersection (Phrase.toConditions terms isHead lo)
  | .marked mark inner, isHead, lo =>
    mark.apply lo (inner.toCondition (mark.keepsHead isHead) (lo + mark.slots))

/-- The conditions of phrases with the same slots. -/
def Phrase.toConditionsFrom : List Phrase → Bool → Nat → List Condition
  | [], _, _ => []
  | d :: ds, isHead, lo => d.toCondition isHead lo :: Phrase.toConditionsFrom ds isHead lo

/-- The conditions of phrases, the slots of each behind those of the one in front of it. -/
def Phrase.toConditions : List Phrase → Bool → Nat → List Condition
  | [], _, _ => []
  | d :: ds, isHead, lo =>
    d.toCondition isHead lo :: Phrase.toConditions ds isHead (lo + d.captures)

/-- The capture of an element has the slot in front of those inside it. -/
def Part.toElement : Part → Nat → Element
  | .dots captured, lo => .several .wildcard .anyNumber (if captured then some lo else none)
  | .item captured inner arity, lo =>
    .of (inner.toCondition false (lo + captured.toNat)) arity (if captured then some lo else none)

def Part.toElements : List Part → Nat → List Element
  | [], _ => []
  | part :: parts, lo => part.toElement lo :: Part.toElements parts (lo + part.captures)

end

end

end RubyLint.Pattern
