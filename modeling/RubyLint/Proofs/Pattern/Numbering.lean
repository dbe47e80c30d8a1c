import RubyLint.Proofs.Pattern.Compile
import RubyLint.Proofs.Pattern.Derivation

/-!
# The numbering of captures

`Condition.WellFormed env p lo hi` is what the compiler guarantees of a condition: the slots `lo`, …,
`hi - 1` are given out in the order in which the captures are written, the branches of a union have
the same ones, a negation has none, and every external predicate is known.

* `mem_slots_iff`      the slots written in such a condition are exactly those numbers;
* `wellFormed_of_term`, `wellFormed_of_compile`   whatever is compiled is well formed.
-/

namespace RubyLint.Pattern

namespace Condition

/-- The capture of all that an element takes, if there is one, has the next slot. -/
def NextSlot (slot : Option Nat) (lo hi : Nat) : Prop :=
  match slot with
  | some k => k = lo ∧ hi = lo + 1
  | none => hi = lo

mutual

/-- The captures in the condition have the slots from `lo` on up to `hi`, as they are written. -/
def WellFormed (env : Environment) : Condition → Nat → Nat → Prop
  | .capture slot inner, lo, hi => slot = lo ∧ WellFormed env inner (lo + 1) hi
  | .exactly head elements, lo, hi =>
    ∃ a, WellFormed env head lo a ∧ WellFormedEach env elements a hi
  | .around head front middle _ slot back, lo, hi =>
    ∃ a b c d, WellFormed env head lo a ∧ WellFormedEach env front a b ∧ NextSlot slot b c ∧
      WellFormed env middle c d ∧ WellFormedEach env back d hi
  | .union branches, lo, hi => branches ≠ [] ∧ WellFormedAlike env branches lo hi
  | .intersection terms, lo, hi => WellFormedEach env terms lo hi
  | .negation inner, lo, hi => lo = hi ∧ WellFormed env inner lo hi
  | .parent inner, lo, hi => WellFormed env inner lo hi
  | .descendant inner, lo, hi => WellFormed env inner lo hi
  | .external name _, lo, hi => lo = hi ∧ (env.predicate? name).isSome
  | _, lo, hi => lo = hi

/-- Each condition has the slots behind those of the one in front of it. -/
def WellFormedEach (env : Environment) : List Condition → Nat → Nat → Prop
  | [], lo, hi => lo = hi
  | p :: ps, lo, hi => ∃ m, WellFormed env p lo m ∧ WellFormedEach env ps m hi

/-- All conditions have the same slots. -/
def WellFormedAlike (env : Environment) : List Condition → Nat → Nat → Prop
  | [], _, _ => True
  | p :: ps, lo, hi => WellFormed env p lo hi ∧ WellFormedAlike env ps lo hi

end

section
variable {env : Environment}

theorem NextSlot.le {slot : Option Nat} {lo hi : Nat} (h : NextSlot slot lo hi) : lo ≤ hi := by
  cases slot with
  | none => exact Nat.le_of_eq (Eq.symm h)
  | some k => rw [h.2]; exact Nat.le_succ lo

theorem NextSlot.mem_iff {slot : Option Nat} {lo hi k : Nat} (h : NextSlot slot lo hi) :
    k ∈ slot.toList ↔ lo ≤ k ∧ k < hi := by
  cases slot with
  | none =>
    obtain rfl : hi = lo := h
    simp only [Option.toList_none, List.not_mem_nil, false_iff]
    omega
  | some j =>
    obtain ⟨rfl, rfl⟩ := h
    simp only [Option.toList_some, List.mem_singleton]
    omega

theorem wellFormedAlike_iff {ps : List Condition} {lo hi : Nat} :
    WellFormedAlike env ps lo hi ↔ ∀ p ∈ ps, WellFormed env p lo hi := by
  induction ps with
  | nil => simp [WellFormedAlike]
  | cons p ps ih => rw [WellFormedAlike, ih, List.forall_mem_cons]

theorem wellFormedEach_append {ps qs : List Condition} {lo hi : Nat} :
    WellFormedEach env (ps ++ qs) lo hi ↔
      ∃ m, WellFormedEach env ps lo m ∧ WellFormedEach env qs m hi := by
  induction ps generalizing lo with
  | nil =>
    constructor
    · exact fun h => ⟨lo, rfl, h⟩
    · rintro ⟨m, rfl, h⟩
      exact h
  | cons p ps ih =>
    rw [List.cons_append, WellFormedEach]
    constructor
    · rintro ⟨m, hp, h⟩
      obtain ⟨k, hps, hqs⟩ := ih.1 h
      exact ⟨k, ⟨m, hp, hps⟩, hqs⟩
    · rintro ⟨k, ⟨m, hp, hps⟩, hqs⟩
      exact ⟨m, hp, ih.2 ⟨k, hps, hqs⟩⟩

theorem wellFormedEach_singleton {p : Condition} {lo hi : Nat} :
    WellFormedEach env [p] lo hi ↔ WellFormed env p lo hi := by
  constructor
  · rintro ⟨m, hp, rfl⟩
    exact hp
  · exact fun h => ⟨hi, h, rfl⟩

/-- A condition without parts has no slots. -/
theorem eq_of_isPlain {p : Condition} (hp : p.IsPlain) {lo hi : Nat} (h : WellFormed env p lo hi) :
    lo = hi := by
  cases p with
  | wildcard => exact h
  | kind => exact h
  | kindIn => exact h
  | literal => exact h
  | builtin => exact h
  | external => exact h.1
  | oneOf => exact h
  | param => exact h
  | _ => exact hp.elim

theorem slots_of_isPlain {p : Condition} (hp : p.IsPlain) : p.slots = [] := by
  cases p <;> first | rfl | exact hp.elim

/-! ## the slots of a well-formed condition -/

/-- The slots of conditions that stand one behind the other. -/
theorem wellFormedEach_slots {ps : List Condition} {lo hi : Nat}
    (h : WellFormedEach env ps lo hi)
    (ih : ∀ p ∈ ps, ∀ lo hi, WellFormed env p lo hi →
      lo ≤ hi ∧ ∀ k, k ∈ p.slots ↔ lo ≤ k ∧ k < hi) :
    lo ≤ hi ∧ ∀ k, k ∈ slotsEach ps ↔ lo ≤ k ∧ k < hi := by
  induction ps generalizing lo with
  | nil =>
    obtain rfl : lo = hi := h
    refine ⟨Nat.le_refl lo, fun k => ?_⟩
    simp only [slotsEach, List.not_mem_nil, false_iff]
    omega
  | cons p ps ihps =>
    obtain ⟨m, hp, hps⟩ := h
    obtain ⟨hle, hmem⟩ := ih p List.mem_cons_self lo m hp
    obtain ⟨hle', hmem'⟩ := ihps hps fun q hq => ih q (List.mem_cons_of_mem _ hq)
    refine ⟨Nat.le_trans hle hle', fun k => ?_⟩
    rw [slotsEach, List.mem_append, hmem, hmem']
    omega

theorem wellFormed_slots {p : Condition} {lo hi : Nat} (h : WellFormed env p lo hi) :
    lo ≤ hi ∧ ∀ k, k ∈ p.slots ↔ lo ≤ k ∧ k < hi := by
  induction p using Condition.ind generalizing lo hi with
  | plain p hp =>
    obtain rfl := eq_of_isPlain hp h
    refine ⟨Nat.le_refl lo, fun k => ?_⟩
    rw [slots_of_isPlain hp]
    simp only [List.not_mem_nil, false_iff]
    omega
  | capture slot inner ih =>
    obtain ⟨rfl, h⟩ := h
    obtain ⟨hle, hmem⟩ := ih h
    refine ⟨Nat.le_of_succ_le hle, fun k => ?_⟩
    rw [slots, List.mem_cons, hmem]
    omega
  | exactly head elements ihh ihe =>
    obtain ⟨a, hh, he⟩ := h
    obtain ⟨hle, hmem⟩ := ihh hh
    obtain ⟨hle', hmem'⟩ := wellFormedEach_slots he fun p hp lo hi => ihe p hp
    refine ⟨Nat.le_trans hle hle', fun k => ?_⟩
    rw [slots, List.mem_append, hmem, hmem']
    omega
  | around head front middle arity slot back ihh ihf ihm ihb =>
    obtain ⟨a, b, c, d, hh, hf, hs, hm, hb⟩ := h
    obtain ⟨hle₁, hmem₁⟩ := ihh hh
    obtain ⟨hle₂, hmem₂⟩ := wellFormedEach_slots hf fun p hp lo hi => ihf p hp
    obtain ⟨hle₃, hmem₃⟩ := ihm hm
    obtain ⟨hle₄, hmem₄⟩ := wellFormedEach_slots hb fun p hp lo hi => ihb p hp
    have hle := hs.le
    refine ⟨by omega, fun k => ?_⟩
    simp only [slots, List.mem_append]
    rw [hmem₁, hmem₂, hs.mem_iff, hmem₃, hmem₄]
    omega
  | union branches ih =>
    obtain ⟨hne, h⟩ := h
    rw [wellFormedAlike_iff] at h
    obtain ⟨p, hp⟩ := List.exists_mem_of_ne_nil branches hne
    refine ⟨(ih p hp (h p hp)).1, fun k => ?_⟩
    rw [slots, slotsEach_eq, List.mem_flatMap]
    constructor
    · rintro ⟨q, hq, hk⟩
      exact ((ih q hq (h q hq)).2 k).1 hk
    · exact fun hk => ⟨p, hp, ((ih p hp (h p hp)).2 k).2 hk⟩
  | intersection terms ih => exact wellFormedEach_slots h fun p hp lo hi => ih p hp
  | negation inner ih => exact ih h.2
  | parent inner ih => exact ih h
  | descendant inner ih => exact ih h

theorem WellFormed.le {p : Condition} {lo hi : Nat} (h : WellFormed env p lo hi) : lo ≤ hi :=
  (wellFormed_slots h).1

/-- The slots written in a condition are the numbers it is given. -/
theorem WellFormed.mem_slots_iff {p : Condition} {lo hi k : Nat} (h : WellFormed env p lo hi) :
    k ∈ p.slots ↔ lo ≤ k ∧ k < hi :=
  (wellFormed_slots h).2 k

/-- No capture is written under a negation. -/
theorem WellFormed.slots_eq_nil {p : Condition} {k : Nat} (h : WellFormed env p k k) :
    p.slots = [] := by
  refine List.eq_nil_iff_forall_not_mem.2 fun j hj => ?_
  have := h.mem_slots_iff.1 hj
  omega

theorem WellFormedEach.forall {ps : List Condition} {lo hi : Nat} {motive : Condition → Prop}
    (h : WellFormedEach env ps lo hi)
    (hm : ∀ p ∈ ps, ∀ {lo hi}, WellFormed env p lo hi → motive p) : ∀ p ∈ ps, motive p := by
  induction ps generalizing lo with
  | nil =>
    intro p hp
    exact absurd hp List.not_mem_nil
  | cons q ps ih =>
    obtain ⟨m, hq, hps⟩ := h
    intro p hp
    rcases List.mem_cons.1 hp with rfl | hp
    · exact hm p List.mem_cons_self hq
    · exact ih hps (fun p hp => hm p (List.mem_cons_of_mem _ hp)) p hp

theorem WellFormedEach.le {ps : List Condition} {lo hi : Nat} (h : WellFormedEach env ps lo hi) :
    lo ≤ hi :=
  (wellFormedEach_slots h fun _ _ _ _ => wellFormed_slots).1

end

end Condition

/-! ## what is compiled is well formed -/

open Condition Compile

section
variable {env : Environment}

/-- A reader of terms that answers well-formed conditions only. -/
def MakesWellFormed (env : Environment) (term : Compile Condition) : Prop :=
  ∀ p c q, term p = .ok (c, q) → c.WellFormed env p.captures q.captures

def Element.WellFormed (env : Environment) : Element → Nat → Nat → Prop
  | .one c, lo, hi => c.WellFormed env lo hi
  | .several c _ slot, lo, hi => ∃ m, NextSlot slot lo m ∧ c.WellFormed env m hi

/-- The elements read so far have the slots from `lo` on up to `hi`. -/
def Elements.WellFormed (env : Environment) (es : Elements) (lo hi : Nat) : Prop :=
  match es.middle with
  | none => es.back = [] ∧ WellFormedEach env es.front.reverse lo hi
  | some (middle, _, slot) =>
    ∃ a b c, WellFormedEach env es.front.reverse lo a ∧ NextSlot slot a b ∧
      middle.WellFormed env b c ∧ WellFormedEach env es.back.reverse c hi

theorem wellFormed_wordCondition {name : String} {offset : Nat} {p q : Progress} {c : Condition}
    (h : wordCondition name offset p = .ok (c, q)) : c.WellFormed env p.captures q.captures := by
  unfold wordCondition at h
  split at h
  · obtain ⟨rfl, rfl⟩ := pure_inv h
    exact rfl
  split at h
  · obtain ⟨rfl, rfl⟩ := pure_inv h
    exact rfl
  cases hk : Kind.ofName? name with
  | some k =>
    rw [hk] at h
    obtain ⟨rfl, rfl⟩ := pure_inv h
    exact rfl
  | none =>
    rw [hk] at h
    simp only at h
    split at h
    · cases hb : Builtin.ofName? name with
      | some b =>
        rw [hb] at h
        obtain ⟨rfl, rfl⟩ := pure_inv h
        exact rfl
      | none =>
        rw [hb] at h
        exact (fail_ne_ok h).elim
    · exact (fail_ne_ok h).elim

theorem eq_of_argument {t : Placed} {p q : Progress} {a : Argument}
    (h : argument t p = .ok (a, q)) : q = p := by
  unfold argument at h
  cases ht : t.token <;> rw [ht] at h <;>
    first
    | exact (pure_inv h).2
    | exact (fail_ne_ok h).elim

theorem captures_argument? {opening : Nat} {p q : Progress} {o : Option Argument}
    (h : argument? opening p = .ok (o, q)) : q.captures = p.captures := by
  replace h := peek_bind_inv h
  cases ht : p.tokens.head? with
  | none =>
    rw [ht] at h
    exact (fail_ne_ok h).elim
  | some t =>
    rw [ht] at h
    replace h := skip_bind_inv h
    split at h
    · rw [(pure_inv h).2]
    · obtain ⟨a, ha, -⟩ := map_inv h
      rw [eq_of_argument ha]

theorem captures_arguments {opening limit : Nat} {p q : Progress} {args : List Argument}
    (h : collect (argument? opening) limit p = .ok (args, q)) : p.captures = q.captures := by
  refine collect_inv (fun _ lo hi => lo = hi) ?_ ?_ ?_ h
  · intro p q hx
    exact (captures_argument? hx).symm
  · intro k
    rfl
  · intro p m a as k hx hk
    rw [← hk, captures_argument? hx]

theorem wellFormed_externalCondition {name : String} {t : Placed} {p q : Progress} {c : Condition}
    (h : externalCondition env name t p = .ok (c, q)) :
    c.WellFormed env p.captures q.captures := by
  unfold externalCondition at h
  split at h
  · exact (fail_ne_ok h).elim
  next hknown =>
  have hsome : (env.predicate? name).isSome := by
    cases hp : env.predicate? name with
    | none => rw [hp] at hknown; exact absurd rfl hknown
    | some _ => rfl
  have hbare : ∀ {c q}, (pure (.external name []) : Compile Condition) p = .ok (c, q) →
      c.WellFormed env p.captures q.captures := by
    intro c q h
    obtain ⟨rfl, rfl⟩ := pure_inv h
    exact ⟨rfl, hsome⟩
  replace h := peek_bind_inv h
  cases ht : p.tokens.head? with
  | none =>
    rw [ht] at h
    exact hbare h
  | some u =>
    rw [ht] at h
    obtain ⟨tok, start, stop⟩ := u
    cases tok with
    | openParen =>
      simp only at h
      split at h
      · replace h := get_bind_inv (skip_bind_inv h)
        obtain ⟨args, m, hargs, h⟩ := bind_inv h
        obtain ⟨rfl, rfl⟩ := pure_inv h
        have hcap := captures_arguments hargs
        exact ⟨hcap, hsome⟩
      · exact hbare h
    | _ => exact hbare h

variable {term : Compile Condition}

theorem wellFormed_elementBehind (hterm : MakesWellFormed env term) {slot : Option Nat} {lo : Nat}
    {p q : Progress} {e : Element} (hslot : NextSlot slot lo p.captures)
    (h : elementBehind term slot p = .ok (e, q)) : e.WellFormed env lo q.captures := by
  unfold elementBehind at h
  obtain ⟨dots, m, hdots, h⟩ := bind_inv h
  rw [← captures_accept hdots] at hslot
  split at h
  · obtain ⟨rfl, rfl⟩ := pure_inv h
    exact ⟨q.captures, hslot, rfl⟩
  obtain ⟨c, k, hc, h⟩ := bind_inv h
  replace hc := hterm m c k hc
  replace h := peek_bind_inv h
  cases ha : k.tokens.head?.bind fun t => arity? t.token with
  | some arity =>
    rw [ha] at h
    replace h := skip_bind_inv h
    obtain ⟨rfl, rfl⟩ := pure_inv h
    exact ⟨m.captures, hslot, hc⟩
  | none =>
    rw [ha] at h
    obtain ⟨rfl, rfl⟩ := pure_inv h
    cases slot with
    | none =>
      have hsame : m.captures = lo := hslot
      rw [hsame] at hc
      exact hc
    | some j =>
      obtain ⟨hj, hsucc⟩ := hslot
      rw [hsucc] at hc
      exact ⟨hj, hc⟩

theorem wellFormed_element (hterm : MakesWellFormed env term) {p q : Progress} {e : Element}
    (h : element term p = .ok (e, q)) : e.WellFormed env p.captures q.captures := by
  obtain ⟨dollar, m, hd, h⟩ := bind_inv h
  rw [← captures_accept hd]
  split at h
  · obtain ⟨slot, k, hk, h⟩ := bind_inv h
    have hslot : NextSlot (some slot) m.captures k.captures := newSlot_inv hk
    exact wellFormed_elementBehind hterm hslot h
  · have hslot : NextSlot none m.captures m.captures := rfl
    exact wellFormed_elementBehind hterm hslot h

theorem Elements.WellFormed.add {es es' : Elements} {e : Element} {offset lo m hi : Nat}
    {p q : Progress} (hes : es.WellFormed env lo m) (he : e.WellFormed env m hi)
    (h : es.add offset e p = .ok (es', q)) : es'.WellFormed env lo hi ∧ q = p := by
  obtain ⟨front, middle, back⟩ := es
  cases middle with
  | none =>
    obtain ⟨rfl, hf⟩ := hes
    cases e with
    | one c =>
      obtain ⟨rfl, rfl⟩ := pure_inv h
      refine ⟨⟨rfl, ?_⟩, rfl⟩
      rw [List.reverse_cons, wellFormedEach_append]
      exact ⟨m, hf, wellFormedEach_singleton.2 he⟩
    | several c arity slot =>
      obtain ⟨rfl, rfl⟩ := pure_inv h
      obtain ⟨k, hs, hc⟩ := he
      exact ⟨⟨m, k, hi, hf, hs, hc, rfl⟩, rfl⟩
  | some taker =>
    obtain ⟨a, b, d, hf, hs, hm, hb⟩ := hes
    cases e with
    | one c =>
      obtain ⟨rfl, rfl⟩ := pure_inv h
      refine ⟨⟨a, b, d, hf, hs, hm, ?_⟩, rfl⟩
      rw [List.reverse_cons, wellFormedEach_append]
      exact ⟨m, hb, wellFormedEach_singleton.2 he⟩
    | several c arity slot => exact (fail_ne_ok h).elim

theorem wellFormed_elements (hterm : MakesWellFormed env term) {opening limit lo : Nat}
    {es es' : Elements} {p q : Progress} (hes : es.WellFormed env lo p.captures)
    (h : elements term opening limit es p = .ok (es', q)) : es'.WellFormed env lo q.captures := by
  induction limit generalizing es p with
  | zero => exact (fail_ne_ok h).elim
  | succ limit ih =>
    unfold elements at h
    replace h := peek_bind_inv h
    cases ht : p.tokens.head? with
    | none =>
      rw [ht] at h
      exact (fail_ne_ok h).elim
    | some t =>
      rw [ht] at h
      simp only at h
      split at h
      · replace h := skip_bind_inv h
        obtain ⟨rfl, rfl⟩ := pure_inv h
        exact hes
      · obtain ⟨e, m, he, h⟩ := bind_inv h
        obtain ⟨es₁, m₁, hadd, h⟩ := bind_inv h
        obtain ⟨hes₁, hm⟩ := hes.add (wellFormed_element hterm he) hadd
        rw [hm] at h
        exact ih hes₁ h

theorem Elements.WellFormed.toCondition {head : Condition} {es : Elements} {lo m hi : Nat}
    (hh : head.WellFormed env lo m) (hes : es.WellFormed env m hi) :
    (es.toCondition head).WellFormed env lo hi := by
  obtain ⟨front, middle, back⟩ := es
  cases middle with
  | none => exact ⟨m, hh, hes.2⟩
  | some taker =>
    obtain ⟨a, b, c, hf, hs, hm, hb⟩ := hes
    exact ⟨m, a, b, c, hh, hf, hs, hm, hb⟩

theorem wellFormed_sequence {head : Compile Condition} (hhead : MakesWellFormed env head)
    (hterm : MakesWellFormed env term) {opening : Nat} :
    MakesWellFormed env (sequence head term opening) := by
  intro p c q h
  replace h := peek_bind_inv h
  cases ht : p.tokens.head? with
  | none =>
    rw [ht] at h
    exact (fail_ne_ok h).elim
  | some t =>
    rw [ht] at h
    simp only at h
    split at h
    · exact (fail_ne_ok h).elim
    · obtain ⟨hd, p₁, hhd, h⟩ := bind_inv h
      replace h := get_bind_inv h
      obtain ⟨es, p₂, hes, h⟩ := bind_inv h
      obtain ⟨rfl, rfl⟩ := pure_inv h
      have hempty : (⟨[], none, []⟩ : Elements).WellFormed env p₁.captures p₁.captures := ⟨rfl, rfl⟩
      exact (wellFormed_elements hterm hempty hes).toCondition (hhead p hd p₁ hhd)

theorem wellFormed_intersection (hterm : MakesWellFormed env term) {t : Placed} :
    MakesWellFormed env (intersection term t) := by
  intro p c q h
  replace h := get_bind_inv h
  obtain ⟨terms, m, hterms, h⟩ := bind_inv h
  split at h
  · exact (fail_ne_ok h).elim
  obtain ⟨rfl, rfl⟩ := pure_inv h
  have hstep : ∀ {p q : Progress} {o : Option Condition},
      intersectionTerm? term t.start p = .ok (o, q) →
      (o = none → p.captures = q.captures) ∧
      ∀ c, o = some c → c.WellFormed env p.captures q.captures := by
    intro p q o h
    replace h := peek_bind_inv h
    cases ht : p.tokens.head? with
    | none =>
      rw [ht] at h
      exact (fail_ne_ok h).elim
    | some u =>
      rw [ht] at h
      simp only at h
      split at h
      · replace h := skip_bind_inv h
        obtain ⟨rfl, rfl⟩ := pure_inv h
        exact ⟨fun _ => rfl, fun c hc => absurd hc (by simp)⟩
      · obtain ⟨c, hc, rfl⟩ := map_inv h
        refine ⟨fun hn => absurd hn (by simp), fun c' hc' => ?_⟩
        obtain rfl := Option.some.inj hc'
        exact hterm p c q hc
  refine collect_inv (WellFormedEach env) ?_ ?_ ?_ hterms
  · intro p q hx
    exact (hstep hx).1 rfl
  · intro k
    rfl
  · intro p m a as k hx hk
    exact ⟨m.captures, (hstep hx).2 a rfl, hk⟩

/-- All branches start at the same slot, and each has as many captures as the first. -/
theorem wellFormed_branches (hterm : MakesWellFormed env term) {opening base limit : Nat}
    {expected : Option Nat} {bs : List Condition} {p q : Progress}
    (h : branches term opening base limit expected p = .ok (bs, q)) :
    ∃ k, expected.getD k = k ∧ q.captures = base + k ∧ WellFormedAlike env bs base (base + k) := by
  induction limit generalizing expected bs p with
  | zero => exact (fail_ne_ok h).elim
  | succ limit ih =>
    unfold branches at h
    replace h := peek_bind_inv h
    cases ht : p.tokens.head? with
    | none =>
      rw [ht] at h
      exact (fail_ne_ok h).elim
    | some t =>
      rw [ht] at h
      simp only at h
      split at h
      · replace h := modify_bind_inv (skip_bind_inv h)
        obtain ⟨rfl, rfl⟩ := pure_inv h
        refine ⟨expected.getD 0, ?_, rfl, trivial⟩
        cases expected <;> rfl
      · replace h := modify_bind_inv h
        obtain ⟨c, m, hc, h⟩ := bind_inv h
        replace h := get_bind_inv h
        replace hc : c.WellFormed env base m.captures := hterm _ c m hc
        split at h
        · exact (fail_ne_ok h).elim
        next hcount =>
        obtain ⟨rest, m', hrest, h⟩ := bind_inv h
        obtain ⟨rfl, rfl⟩ := pure_inv h
        obtain ⟨k, hk, hq, hall⟩ := ih hrest
        obtain rfl : m.captures - base = k := hk
        have hm : base + (m.captures - base) = m.captures := by
          have := hc.le
          omega
        refine ⟨m.captures - base, Decidable.not_not.1 hcount, hq, ?_, hall⟩
        rw [hm]
        exact hc

theorem wellFormed_union (hterm : MakesWellFormed env term) {opening : Nat} :
    MakesWellFormed env (union term opening) := by
  intro p c q h
  replace h := get_bind_inv h
  obtain ⟨bs, m, hbs, h⟩ := bind_inv h
  split at h
  · exact (fail_ne_ok h).elim
  next hne =>
  obtain ⟨rfl, rfl⟩ := pure_inv h
  obtain ⟨k, -, hq, hall⟩ := wellFormed_branches hterm hbs
  rw [hq]
  refine ⟨?_, hall⟩
  rintro rfl
  exact hne rfl

theorem wellFormed_termBehind {reader : Bool → Compile Condition}
    (hreader : ∀ isHead, MakesWellFormed env (reader isHead)) {isHead : Bool} {t : Placed} :
    MakesWellFormed env (termBehind env reader isHead t) := by
  intro p c q h
  unfold termBehind at h
  cases ht : t.token <;> rw [ht] at h
  case openParen => exact wellFormed_sequence (hreader true) (hreader false) p c q h
  case openBrace => exact wellFormed_union (hreader isHead) p c q h
  case openBracket => exact wellFormed_intersection (hreader isHead) p c q h
  case bang =>
    replace h := get_bind_inv h
    obtain ⟨inner, m, hi, h⟩ := bind_inv h
    replace h := get_bind_inv h
    split at h
    · exact (fail_ne_ok h).elim
    next hsame =>
    obtain ⟨rfl, rfl⟩ := pure_inv h
    exact ⟨(Decidable.not_not.1 hsame).symm, hreader isHead p inner q hi⟩
  case dollar =>
    obtain ⟨slot, m, hs, h⟩ := bind_inv h
    replace h := peek_bind_inv h
    split at h
    · exact (fail_ne_ok h).elim
    obtain ⟨inner, k, hi, h⟩ := bind_inv h
    obtain ⟨rfl, rfl⟩ := pure_inv h
    obtain ⟨hslot, hsucc⟩ := newSlot_inv hs
    refine ⟨hslot, ?_⟩
    rw [← hsucc]
    exact hreader isHead m inner q hi
  case caret =>
    obtain ⟨inner, hi, rfl⟩ := map_inv h
    exact hreader false p inner q hi
  case backquote =>
    obtain ⟨inner, hi, rfl⟩ := map_inv h
    exact hreader false p inner q hi
  case word name => exact wellFormed_wordCondition h
  case external name => exact wellFormed_externalCondition h
  case set name stop =>
    simp only at h
    cases hs : env.set? name with
    | some symbols =>
      rw [hs] at h
      obtain ⟨rfl, rfl⟩ := pure_inv h
      exact rfl
    | none =>
      rw [hs] at h
      exact (fail_ne_ok h).elim
  case nilWord =>
    obtain ⟨rfl, rfl⟩ := pure_inv h
    cases isHead <;> exact rfl
  -- the other tokens are literals, which have no slots, or no term starts with them
  all_goals
    first
    | exact (fail_ne_ok h).elim
    | obtain ⟨rfl, rfl⟩ := pure_inv h
      exact rfl

theorem wellFormed_of_term {stop depth : Nat} {isHead : Bool} :
    MakesWellFormed env (Pattern.term env stop depth isHead) := by
  induction depth generalizing isHead with
  | zero =>
    intro p c q h
    exact (fail_ne_ok h).elim
  | succ depth ih =>
    intro p c q h
    replace h := peek_bind_inv h
    cases ht : p.tokens.head? with
    | none =>
      rw [ht] at h
      exact (fail_ne_ok h).elim
    | some t =>
      rw [ht] at h
      replace h := skip_bind_inv h
      have hreader : ∀ isHead, MakesWellFormed env (Pattern.term env stop depth isHead) :=
        fun _ => ih
      exact wellFormed_termBehind hreader { p with tokens := p.tokens.drop 1 } c q h

theorem wellFormed_of_whole {stop : Nat} {p q : Progress} {c : Condition}
    (h : whole env stop p = .ok (c, q)) : c.WellFormed env p.captures q.captures := by
  replace h := get_bind_inv h
  split at h
  · exact (fail_ne_ok h).elim
  obtain ⟨c', m, hc, h⟩ := bind_inv h
  replace h := peek_bind_inv h
  cases ht : m.tokens.head? with
  | some t =>
    rw [ht] at h
    exact (fail_ne_ok h).elim
  | none =>
    rw [ht] at h
    obtain ⟨rfl, rfl⟩ := pure_inv h
    exact wellFormed_of_term p c q hc

/-- The captures of a compiled pattern have the slots below their number. -/
theorem wellFormed_of_compile {source : String} {p : Pattern}
    (h : compile source env = .ok p) :
    p.environment = env ∧ p.condition.WellFormed env 0 p.captureCount := by
  obtain ⟨⟨c, q⟩, hr, h⟩ := ok_of_bind h
  obtain ⟨tokens, -, hw⟩ := ok_of_bind hr
  cases h
  exact ⟨rfl, wellFormed_of_whole hw⟩

end

end RubyLint.Pattern
