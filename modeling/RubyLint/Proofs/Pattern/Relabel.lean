import RubyLint.Proofs.Pattern.Derivation
import RubyLint.Proofs.Pattern.Written

/-!
# Numbers of captures

Whether a condition holds, and by which derivation, does not depend on the slots of its captures.
Slots can be renamed, and captures that share a slot can be told apart by giving each a number of
its own.

* `holds_relabel`, `derives_relabel`  a condition with renamed slots holds of the same children, by
                                      the derivations with renamed slots;
* `Phrase.numbered`                   the condition of a phrase in which every dollar sign has a
                                      number of its own, in the order in which they are written;
* `relabel_numbered`                  the numbers renamed to the slots give the condition that the
                                      phrase stands for.
-/

namespace RubyLint.Pattern

/-! ## renaming -/

section
variable (f : Nat → Nat)

mutual

def Condition.relabel : Condition → Condition
  | .capture slot inner => .capture (f slot) (relabel inner)
  | .exactly head elements => .exactly (relabel head) (relabelEach elements)
  | .around head front middle arity slot back =>
    .around (relabel head) (relabelEach front) (relabel middle) arity (slot.map f)
      (relabelEach back)
  | .union branches => .union (relabelEach branches)
  | .intersection terms => .intersection (relabelEach terms)
  | .negation inner => .negation (relabel inner)
  | .parent inner => .parent (relabel inner)
  | .descendant inner => .descendant (relabel inner)
  | p => p

def Condition.relabelEach : List Condition → List Condition
  | [] => []
  | p :: ps => p.relabel :: relabelEach ps

end

theorem Condition.relabelEach_eq (ps : List Condition) :
    relabelEach f ps = ps.map (relabel f) := by
  induction ps with
  | nil => rfl
  | cons p ps ih => rw [relabelEach, ih, List.map_cons]

namespace Derivation

variable {t : SyntaxTree}

mutual

def relabel : Derivation t → Derivation t
  | .plain => .plain
  | .captured inner slot child => .captured (relabel inner) (f slot) child
  | .parts ds => .parts (relabelEach ds)
  | .taken element slot children ds =>
    .taken (element.relabel f) (slot.map f) children (relabelEach ds)

def relabelEach : List (Derivation t) → List (Derivation t)
  | [] => []
  | d :: ds => relabel d :: relabelEach ds

end

theorem relabelEach_append (ds es : List (Derivation t)) :
    relabelEach f (ds ++ es) = relabelEach f ds ++ relabelEach f es := by
  induction ds with
  | nil => rfl
  | cons d ds ih => rw [List.cons_append, relabelEach, ih, relabelEach, List.cons_append]

mutual

theorem bindings_relabel (d : Derivation t) :
    (d.relabel f).bindings = d.bindings.map fun b => ⟨f b.slot, b.capture⟩ := by
  cases d with
  | plain => rfl
  | captured inner slot child =>
    rw [relabel, bindings, bindings, bindings_relabel inner, List.map_append]
    rfl
  | parts ds => rw [relabel, bindings, bindings, bindingsEach_relabel ds]
  | taken element slot children ds =>
    rw [relabel, bindings, bindings, bindingsEach_relabel ds, List.map_append]
    cases slot <;> rfl

theorem bindingsEach_relabel (ds : List (Derivation t)) :
    bindingsEach (relabelEach f ds) = (bindingsEach ds).map fun b => ⟨f b.slot, b.capture⟩ := by
  cases ds with
  | nil => rfl
  | cons d ds =>
    rw [relabelEach, bindingsEach, bindingsEach, bindings_relabel d, bindingsEach_relabel ds,
      List.map_append]

end

end Derivation

end

/-- the first of a list is the first of its images, if these have the property in the same cases -/
theorem First.map {α β : Type} {P : α → Prop} {Q : β → Prop} (g : α → β) {l : List α} {a : α}
    (hPQ : ∀ b ∈ l, (Q (g b) ↔ P b)) (h : First P l a) : First Q (l.map g) (g a) := by
  induction h with
  | here hP => exact .here ((hPQ _ List.mem_cons_self).2 hP)
  | later hnot _ ih =>
    refine .later (fun hQ => hnot ((hPQ _ List.mem_cons_self).1 hQ)) ?_
    exact ih fun b hb => hPQ b (List.mem_cons_of_mem _ hb)

namespace Condition

variable {s : Setting} {t : SyntaxTree} {f : Nat → Nat}

theorem relabel_of_isPlain {p : Condition} (hp : p.IsPlain) : p.relabel f = p := by
  cases p <;> first | rfl | exact hp.elim

/-! ## what holds -/

theorem holdEach_relabel {ps : List Condition} (h : ∀ p ∈ ps, ∀ c : NodeChild t,
    (p.relabel f).Holds s c ↔ p.Holds s c) (cs : List (NodeChild t)) :
    HoldEach s (relabelEach f ps) cs ↔ HoldEach s ps cs := by
  induction ps generalizing cs with
  | nil => exact Iff.rfl
  | cons p ps ih =>
    obtain ⟨hp, hps⟩ := List.forall_mem_cons.1 h
    rw [relabelEach, HoldEach, HoldEach]
    refine exists_congr fun c => exists_congr fun rest => ?_
    rw [hp c, ih hps rest]

/-- **A condition with renamed slots holds of the same children.** -/
theorem holds_relabel (p : Condition) (c : NodeChild t) :
    (p.relabel f).Holds s c ↔ p.Holds s c := by
  induction p using Condition.ind generalizing c with
  | plain p hp => rw [relabel_of_isPlain hp]
  | capture slot inner ih =>
    rw [relabel, Holds, Holds]
    exact ih c
  | exactly head elements ihh ihe =>
    rw [relabel, Holds, Holds]
    refine exists_congr fun n => ?_
    rw [ihh c, holdEach_relabel ihe]
  | around head front middle arity slot back ihh ihf ihm ihb =>
    rw [relabel, Holds, Holds]
    refine exists_congr fun n => and_congr_right fun _ => and_congr (ihh c) ?_
    refine exists_congr fun xs => exists_congr fun ys => exists_congr fun zs => ?_
    rw [holdEach_relabel ihf, holdEach_relabel ihb]
    refine and_congr_right fun _ => and_congr_right fun _ => and_congr_right fun _ =>
      and_congr_right fun _ => ?_
    exact forall_congr' fun d => forall_congr' fun _ => ihm d
  | union branches ih =>
    rw [relabel, Holds, Holds, holdSome_iff, holdSome_iff, relabelEach_eq]
    constructor
    · rintro ⟨_, hmem, hq⟩
      obtain ⟨p, hp, rfl⟩ := List.mem_map.1 hmem
      exact ⟨p, hp, (ih p hp c).1 hq⟩
    · rintro ⟨p, hp, hq⟩
      exact ⟨_, List.mem_map_of_mem hp, (ih p hp c).2 hq⟩
  | intersection terms ih =>
    rw [relabel, Holds, Holds, holdAll_iff, holdAll_iff, relabelEach_eq, List.forall_mem_map]
    exact forall_congr' fun p => forall_congr' fun hp => ih p hp c
  | negation inner ih =>
    rw [relabel, Holds, Holds, ih c]
  | parent inner ih =>
    rw [relabel, Holds, Holds]
    refine exists_congr fun n => exists_congr fun p => ?_
    rw [ih]
  | descendant inner ih =>
    rw [relabel]
    cases c with
    | node n =>
      rw [Holds, Holds]
      exact exists_congr fun m => and_congr_right fun _ => ih _
    | value v =>
      rw [Holds, Holds]
      exact ih _

/-! ## derivations -/

theorem derivesEach_relabel {ps : List Condition} {cs : List (NodeChild t)}
    {ds : List (Derivation t)} (h : ∀ p ∈ ps, ∀ (c : NodeChild t) (d : Derivation t),
      Derives s p c d → Derives s (p.relabel f) c (d.relabel f))
    (hd : DerivesEach s ps cs ds) :
    DerivesEach s (relabelEach f ps) cs (Derivation.relabelEach f ds) := by
  induction ps generalizing cs ds with
  | nil =>
    obtain ⟨rfl, rfl⟩ := hd.nil_inv
    exact .nil
  | cons p ps ih =>
    obtain ⟨c, rest, e, es, rfl, rfl, hp, hs⟩ := hd.cons_inv
    obtain ⟨hfirst, hrest⟩ := List.forall_mem_cons.1 h
    exact .cons (hfirst c e hp) (ih hrest hs)

/-- **A condition with renamed slots holds by the derivation with renamed slots.** -/
theorem derives_relabel (p : Condition) (c : NodeChild t) (d : Derivation t)
    (h : Derives s p c d) : Derives s (p.relabel f) c (d.relabel f) := by
  induction p using Condition.ind generalizing c d with
  | plain p hp =>
    obtain ⟨hholds, rfl⟩ := h.plain_inv hp
    rw [relabel_of_isPlain hp]
    exact .plain hp hholds
  | capture slot inner ih =>
    obtain ⟨e, he, rfl⟩ := h.capture_inv
    exact .capture (ih c e he)
  | exactly head elements ihh ihe =>
    obtain ⟨n, e, ds, rfl, hh, hds, rfl⟩ := h.exactly_inv
    exact .exactly (ihh _ e hh) (derivesEach_relabel ihe hds)
  | around head front middle arity slot back ihh ihf ihm ihb =>
    obtain ⟨n, xs, ys, zs, e, fs, bs, ms, rfl, hc, hh, hf, hb, ha, hm, rfl⟩ := h.around_inv
    have hmiddle : DerivesEach s (ys.map fun _ => middle.relabel f) ys
        (Derivation.relabelEach f ms) := by
      have hall := derivesEach_relabel (f := f) (fun p hp => by
        obtain ⟨_, _, rfl⟩ := List.mem_map.1 hp
        exact ihm) hm
      rw [relabelEach_eq, List.map_map] at hall
      exact hall
    rw [Derivation.relabel, Derivation.relabelEach, Derivation.relabelEach_append,
      Derivation.relabelEach_append]
    exact .around (ihh _ e hh) hc (derivesEach_relabel ihf hf) (derivesEach_relabel ihb hb) ha
      hmiddle
  | union branches ih =>
    obtain ⟨p, hp, hd⟩ := h.union_inv
    have hfirst : First (fun q => q.Holds s c) (relabelEach f branches) (p.relabel f) := by
      rw [relabelEach_eq]
      exact hp.map (relabel f) fun b _ => holds_relabel b c
    exact .union hfirst (ih p hp.mem c d hd)
  | intersection terms ih =>
    obtain ⟨ds, hds, rfl⟩ := h.intersection_inv
    have hall := derivesEach_relabel ih hds
    have hsame : terms.map (fun _ => c) = (relabelEach f terms).map fun _ => c := by
      rw [relabelEach_eq, List.map_map]
      rfl
    rw [hsame] at hall
    exact .intersection hall
  | negation inner ih =>
    obtain ⟨hnot, rfl⟩ := h.negation_inv
    exact .negation fun hinner => hnot ((holds_relabel inner c).1 hinner)
  | parent inner ih =>
    obtain ⟨n, p, rfl, hp, hd⟩ := h.parent_inv
    exact .parent hp (ih _ d hd)
  | descendant inner ih =>
    cases c with
    | node n =>
      obtain ⟨m, hm, hd⟩ := h.descendant_inv
      have hfirst : First (fun k => (inner.relabel f).Holds s (.node k)) n.descendants m := by
        have hmap := hm.map (Q := fun k => (inner.relabel f).Holds s (.node k)) id
          fun k _ => holds_relabel inner (.node k)
        rw [List.map_id] at hmap
        exact hmap
      exact .descendant hfirst (ih _ d hd)
    | value v => exact .itself (ih _ d h.itself_inv)

end Condition

/-! ## numbers -/

mutual

def Phrase.signs : Phrase → Nat
  | .leaf _ => 0
  | .call _ _ => 0
  | .sequence head parts => head.signs + Part.signsEach parts
  | .union branches => Phrase.signsEach branches
  | .intersection terms => Phrase.signsEach terms
  | .marked mark inner => mark.slots + inner.signs

def Phrase.signsEach : List Phrase → Nat
  | [] => 0
  | d :: ds => d.signs + Phrase.signsEach ds

def Part.signs : Part → Nat
  | .dots captured => captured.toNat
  | .item captured inner _ => captured.toNat + inner.signs

def Part.signsEach : List Part → Nat
  | [] => 0
  | part :: parts => part.signs + Part.signsEach parts

end

section
variable (env : Environment)

mutual

/-- The condition that a phrase stands for, but with a number of its own for every capture that is
written, from `n` on: the branches of a union share none. -/
def Phrase.numbered : Phrase → Bool → Nat → Condition
  | .leaf token, isHead, _ => (token.condition? env isHead).getD .wildcard
  | .call name arguments, _, _ => .external name (arguments.getD [])
  | .sequence head parts, _, n =>
    .ofElements (head.numbered true n) (Part.numberedEach parts (n + head.signs))
  | .union branches, isHead, n => .union (Phrase.numberedEach branches isHead n)
  | .intersection terms, isHead, n => .intersection (Phrase.numberedEach terms isHead n)
  | .marked mark inner, isHead, n =>
    mark.apply n (inner.numbered (mark.keepsHead isHead) (n + mark.slots))

def Phrase.numberedEach : List Phrase → Bool → Nat → List Condition
  | [], _, _ => []
  | d :: ds, isHead, n => d.numbered isHead n :: Phrase.numberedEach ds isHead (n + d.signs)

def Part.numbered : Part → Nat → Element
  | .dots captured, n => .several .wildcard .anyNumber (if captured then some n else none)
  | .item captured inner arity, n =>
    .of (inner.numbered false (n + captured.toNat)) arity (if captured then some n else none)

def Part.numberedEach : List Part → Nat → List Element
  | [], _ => []
  | part :: parts, n => part.numbered n :: Part.numberedEach parts (n + part.signs)

end

end

theorem Mark.length_written (mark : Mark) (slot : Nat) (name : Option String) :
    (mark.written slot name).length = mark.slots := by
  cases mark <;> rfl

theorem Part.length_written_of {part : Part}
    (h : ∀ s ∈ part.inner?, ∀ lo, (s.written lo).length = s.signs) (lo : Nat) :
    (part.written lo).length = part.signs := by
  cases part with
  | dots captured => cases captured <;> rfl
  | item captured inner arity =>
    rw [written, List.length_append, h inner rfl, signs]
    cases captured <;> rfl

theorem Part.length_writtenEach_of {parts : List Part}
    (h : ∀ part ∈ parts, ∀ s ∈ part.inner?, ∀ lo, (s.written lo).length = s.signs) (lo : Nat) :
    (writtenEach parts lo).length = signsEach parts := by
  induction parts generalizing lo with
  | nil => rfl
  | cons part parts ih =>
    obtain ⟨hpart, hparts⟩ := List.forall_mem_cons.1 h
    rw [writtenEach, List.length_append, length_written_of hpart, ih hparts, signsEach]

namespace Phrase

theorem length_writtenEach_of {ds : List Phrase}
    (h : ∀ d ∈ ds, ∀ lo, (d.written lo).length = d.signs) (lo : Nat) :
    (writtenEach ds lo).length = signsEach ds := by
  induction ds generalizing lo with
  | nil => rfl
  | cons d ds ih =>
    obtain ⟨hd, hds⟩ := List.forall_mem_cons.1 h
    rw [writtenEach, List.length_append, hd, ih hds, signsEach]

theorem length_writtenFrom_of {ds : List Phrase}
    (h : ∀ d ∈ ds, ∀ lo, (d.written lo).length = d.signs) (lo : Nat) :
    (writtenFrom ds lo).length = signsEach ds := by
  induction ds with
  | nil => rfl
  | cons d ds ih =>
    obtain ⟨hd, hds⟩ := List.forall_mem_cons.1 h
    rw [writtenFrom, List.length_append, hd, ih hds, signsEach]

theorem length_written (d : Phrase) (lo : Nat) : (d.written lo).length = d.signs := by
  induction d using Phrase.ind generalizing lo with
  | leaf token => rfl
  | call name arguments => rfl
  | sequence head parts ihh ihp =>
    have hparts : ∀ part ∈ parts, ∀ s ∈ part.inner?, ∀ lo, (s.written lo).length = s.signs := by
      intro part hpart s hs
      cases part with
      | dots => cases hs
      | item captured inner arity =>
        cases hs
        exact ihp captured s arity hpart
    rw [written, List.length_append, ihh, Part.length_writtenEach_of hparts, signs]
  | union branches ih => exact length_writtenFrom_of ih lo
  | intersection terms ih => exact length_writtenEach_of ih lo
  | marked mark inner ih => rw [written, List.length_append, mark.length_written, ih, signs]

end Phrase

theorem Part.length_written (part : Part) (lo : Nat) : (part.written lo).length = part.signs :=
  length_written_of (fun s _ => s.length_written) lo

def Numbers (f : Nat → Nat) : Nat → List Written → Prop
  | _, [] => True
  | n, w :: ws => f n = w.slot ∧ Numbers f (n + 1) ws

variable {f : Nat → Nat}

theorem numbers_append {n : Nat} {ws vs : List Written} :
    Numbers f n (ws ++ vs) ↔ Numbers f n ws ∧ Numbers f (n + ws.length) vs := by
  induction ws generalizing n with
  | nil => exact ⟨fun h => ⟨trivial, h⟩, fun h => h.2⟩
  | cons w ws ih =>
    rw [List.cons_append, Numbers, Numbers, ih, List.length_cons, and_assoc, Nat.add_assoc,
      Nat.add_comm 1]

theorem numbers_iff {n : Nat} {ws : List Written} :
    Numbers f n ws ↔ ∀ i w, ws[i]? = some w → f (n + i) = w.slot := by
  induction ws generalizing n with
  | nil => exact iff_of_true trivial fun i w h => nomatch h
  | cons w ws ih =>
    rw [Numbers, ih]
    constructor
    · rintro ⟨hw, hws⟩ i v hv
      cases i with
      | zero =>
        cases hv
        exact hw
      | succ i =>
        rw [Nat.add_comm i, ← Nat.add_assoc]
        exact hws i v hv
    · intro h
      refine ⟨h 0 w rfl, fun i v hv => ?_⟩
      rw [Nat.add_assoc, Nat.add_comm 1]
      exact h (i + 1) v hv

/-! ## from numbers to slots -/

namespace Element

def relabel (f : Nat → Nat) : Element → Element
  | .one c => .one (c.relabel f)
  | .several c arity slot => .several (c.relabel f) arity (slot.map f)

theorem isSeveral_relabel (e : Element) : (e.relabel f).isSeveral = e.isSeveral := by
  cases e <;> rfl

theorem condition_relabel (e : Element) : (e.relabel f).condition = e.condition.relabel f := by
  cases e <;> rfl

theorem relabel_of (c : Condition) (arity : Option Arity) (slot : Option Nat) :
    (Element.of c arity slot).relabel f = .of (c.relabel f) arity (slot.map f) := by
  cases arity with
  | some arity => rfl
  | none => cases slot <;> rfl

end Element

theorem Condition.relabel_ofElements (head : Condition) (es : List Element) :
    (ofElements head es).relabel f = ofElements (head.relabel f) (es.map (Element.relabel f)) := by
  have hsingle : ((fun e : Element => !e.isSeveral) ∘ Element.relabel f) =
      fun e => !e.isSeveral := by
    funext e
    exact congrArg not (Element.isSeveral_relabel e)
  have hconditions : ∀ l : List Element,
      (l.map (Element.relabel f)).map Element.condition = relabelEach f (l.map Element.condition) := by
    intro l
    rw [relabelEach_eq, List.map_map, List.map_map]
    exact List.map_congr_left fun e _ => Element.condition_relabel e
  unfold ofElements
  rw [List.dropWhile_map, List.takeWhile_map, hsingle, hconditions, hconditions]
  cases es.dropWhile fun e => !e.isSeveral with
  | nil => rfl
  | cons e back =>
    cases e with
    | one c => rfl
    | several c arity slot =>
      rw [List.map_cons]
      show Condition.around _ _ _ _ _ _ = Condition.around _ _ _ _ _ _
      rw [hconditions]

theorem isPlain_of_wordCondition? {name : String} {c : Condition}
    (h : wordCondition? name = some c) : c.IsPlain := by
  unfold wordCondition? at h
  split at h
  · cases h
    trivial
  split at h
  · cases h
    trivial
  rcases Option.or_eq_some_iff.1 h with hkind | ⟨-, hbuiltin⟩
  · obtain ⟨kind, -, rfl⟩ := Option.map_eq_some_iff.1 hkind
    trivial
  · obtain ⟨question, -, rfl⟩ := Option.map_eq_some_iff.1 hbuiltin
    trivial

theorem Token.isPlain_of_condition? {env : Environment} {isHead : Bool} {t : Token} {c : Condition}
    (h : t.condition? env isHead = some c) : c.IsPlain := by
  cases t with
  | word name => exact isPlain_of_wordCondition? h
  | set name hasPercent =>
    obtain ⟨symbols, -, rfl⟩ := Option.map_eq_some_iff.1 h
    trivial
  | nilWord =>
    cases isHead <;> cases h <;> trivial
  | _ => cases h <;> trivial

/-- renaming the numbers of the phrase to its slots gives its condition, wherever it stands -/
def Phrase.Numbered (env : Environment) (f : Nat → Nat) (d : Phrase) : Prop :=
  ∀ isHead lo n, Numbers f n (d.written lo) →
    (d.numbered env isHead n).relabel f = d.toCondition env isHead lo

section
variable {env : Environment}

theorem Phrase.relabel_numberedEach {ds : List Phrase} (h : ∀ d ∈ ds, d.Numbered env f)
    (isHead : Bool) {lo n : Nat} (hn : Numbers f n (writtenEach ds lo)) :
    Condition.relabelEach f (numberedEach env ds isHead n) = toConditions env ds isHead lo := by
  induction ds generalizing lo n with
  | nil => rfl
  | cons d ds ih =>
    obtain ⟨hd, hds⟩ := List.forall_mem_cons.1 h
    obtain ⟨hfirst, hrest⟩ := numbers_append.1 hn
    rw [length_written] at hrest
    rw [numberedEach, Condition.relabelEach, hd isHead lo n hfirst, ih hds hrest, toConditions]

theorem Phrase.relabel_numberedFrom {ds : List Phrase} (h : ∀ d ∈ ds, d.Numbered env f)
    (isHead : Bool) {lo n : Nat} (hn : Numbers f n (writtenFrom ds lo)) :
    Condition.relabelEach f (numberedEach env ds isHead n) = toConditionsFrom env ds isHead lo := by
  induction ds generalizing n with
  | nil => rfl
  | cons d ds ih =>
    obtain ⟨hd, hds⟩ := List.forall_mem_cons.1 h
    obtain ⟨hfirst, hrest⟩ := numbers_append.1 hn
    rw [length_written] at hrest
    rw [numberedEach, Condition.relabelEach, hd isHead lo n hfirst, ih hds hrest, toConditionsFrom]

theorem Part.relabel_numbered {part : Part} (h : ∀ s ∈ part.inner?, s.Numbered env f) {lo n : Nat}
    (hn : Numbers f n (part.written lo)) :
    (part.numbered env n).relabel f = part.toElement env lo := by
  cases part with
  | dots captured =>
    cases captured with
    | false => rfl
    | true =>
      have hslot : f n = lo := hn.1
      show Element.several _ _ (some (f n)) = Element.several _ _ (some lo)
      rw [hslot]
      rfl
  | item captured inner arity =>
    have hinner : inner.Numbered env f := h inner rfl
    rw [numbered, Element.relabel_of, toElement]
    cases captured with
    | false =>
      have hcondition := hinner false lo n hn
      show Element.of ((inner.numbered env false n).relabel f) arity none = _
      rw [hcondition]
      rfl
    | true =>
      obtain ⟨hslot, hrest⟩ := hn
      have hcondition := hinner false (lo + 1) (n + 1) hrest
      replace hslot : f n = lo := hslot
      show Element.of ((inner.numbered env false (n + 1)).relabel f) arity (some (f n)) = _
      rw [hcondition, hslot]
      rfl

theorem Part.relabel_numberedEach {parts : List Part}
    (h : ∀ part ∈ parts, ∀ s ∈ part.inner?, s.Numbered env f) {lo n : Nat}
    (hn : Numbers f n (writtenEach parts lo)) :
    (numberedEach env parts n).map (Element.relabel f) = toElements env parts lo := by
  induction parts generalizing lo n with
  | nil => rfl
  | cons part parts ih =>
    obtain ⟨hpart, hparts⟩ := List.forall_mem_cons.1 h
    obtain ⟨hfirst, hrest⟩ := numbers_append.1 hn
    rw [length_written] at hrest
    rw [numberedEach, List.map_cons, relabel_numbered hpart hfirst, ih hparts hrest, toElements]

theorem Mark.relabel_apply {mark : Mark} {lo n : Nat} {name : Option String}
    (hn : Numbers f n (mark.written lo name)) (c : Condition) :
    (mark.apply n c).relabel f = mark.apply lo (c.relabel f) := by
  cases mark with
  | capture =>
    have hslot : f n = lo := hn.1
    show Condition.capture (f n) _ = Condition.capture lo _
    rw [hslot]
  | negation => rfl
  | parent => rfl
  | descendant => rfl

/-- **Captures that are told apart.**  The numbers renamed to the slots give the condition of the
phrase. -/
theorem relabel_numbered (d : Phrase) : d.Numbered env f := by
  induction d using Phrase.ind with
  | leaf token =>
    intro isHead lo n _
    rw [Phrase.numbered, Phrase.toCondition]
    cases hc : token.condition? env isHead with
    | none => rfl
    | some c => exact Condition.relabel_of_isPlain (Token.isPlain_of_condition? hc)
  | call name arguments => exact fun _ _ _ _ => rfl
  | sequence head parts ihh ihp =>
    intro isHead lo n hn
    have hparts : ∀ part ∈ parts, ∀ s ∈ part.inner?, s.Numbered env f := by
      intro part hpart s hs
      cases part with
      | dots => cases hs
      | item captured inner arity =>
        cases hs
        exact ihp captured s arity hpart
    obtain ⟨hhead, hrest⟩ := numbers_append.1 hn
    rw [Phrase.length_written] at hrest
    rw [Phrase.numbered, Condition.relabel_ofElements, ihh true lo n hhead,
      Part.relabel_numberedEach hparts hrest, Phrase.toCondition]
  | union branches ih =>
    intro isHead lo n hn
    rw [Phrase.numbered, Condition.relabel, Phrase.relabel_numberedFrom ih isHead hn,
      Phrase.toCondition]
  | intersection terms ih =>
    intro isHead lo n hn
    rw [Phrase.numbered, Condition.relabel, Phrase.relabel_numberedEach ih isHead hn,
      Phrase.toCondition]
  | marked mark inner ih =>
    intro isHead lo n hn
    obtain ⟨hmark, hinner⟩ := numbers_append.1 hn
    rw [Mark.length_written] at hinner
    rw [Phrase.numbered, Mark.relabel_apply hmark, ih _ _ _ hinner, Phrase.toCondition]

end

end RubyLint.Pattern
