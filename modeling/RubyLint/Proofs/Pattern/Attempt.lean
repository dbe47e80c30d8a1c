import RubyLint.Proofs.Pattern.Numbering

/-!
# What an attempt decides

`Attempt.Reads` says what an attempt makes of the log of bindings: it adds to the end, only slots that
it may bind; if it succeeds, what it adds is bound along a derivation, and if it fails, there is
nothing that would have succeeded.  Each way of putting attempts together has a lemma, and
`reads_attempt` follows the condition.  What a failing alternative adds is cut off by `firstOf`; what
a failing condition under a negation adds is nothing, since a negation has no captures.

* `reads_attempt`   an attempt decides its condition;
* `isSome_matchChild_iff`   a pattern matches exactly what its condition says.
-/

namespace RubyLint.Pattern

namespace Attempt

variable {t : SyntaxTree}

/-- If the attempt succeeds, what it adds to the log satisfies `binds`; if it fails, `holds` does not
hold; and in any case it adds bindings of the given slots only. -/
def Reads (a : Attempt t) (slots : List Nat) (holds : Prop) (binds : List (Binding t) → Prop) :
    Prop :=
  ∀ log b log', a log = .ok (b, log') → ∃ bs, log' = log ++ bs ∧ (∀ x ∈ bs, x.slot ∈ slots) ∧
    (b = true → binds bs) ∧ (b = false → ¬ holds)

variable {a a' : Attempt t} {slots slots' : List Nat} {holds holds' : Prop}
  {binds binds' : List (Binding t) → Prop}

theorem Reads.imp (h : a.Reads slots holds binds) (hs : ∀ k ∈ slots, k ∈ slots')
    (hh : holds' → holds) (hb : ∀ bs, binds bs → binds' bs) : a.Reads slots' holds' binds' := by
  intro log b log' ha
  obtain ⟨bs, hlog, hslots, htrue, hfalse⟩ := h log b log' ha
  exact ⟨bs, hlog, fun x hx => hs _ (hslots x hx), fun hb' => hb bs (htrue hb'),
    fun hb' hh' => hfalse hb' (hh hh')⟩

theorem reads_ofBool {b : Bool} (ht : b = true → binds []) (hf : b = false → ¬ holds) :
    (ofBool b : Attempt t).Reads slots holds binds := by
  intro log b' log' h
  cases h
  exact ⟨[], (List.append_nil log).symm, fun _ hx => absurd hx List.not_mem_nil, ht, hf⟩

theorem reads_ofAnswer {answer : Except PredicateError Bool} (ht : answer = .ok true → binds [])
    (hf : answer = .ok false → ¬ holds) :
    (ofAnswer answer : Attempt t).Reads slots holds binds := by
  intro log b log' h
  cases answer with
  | error e => cases h
  | ok b' =>
    cases h
    exact ⟨[], (List.append_nil log).symm, fun _ hx => absurd hx List.not_mem_nil,
      fun hb => ht (by rw [hb]), fun hb => hf (by rw [hb])⟩

theorem reads_bind {slot : Nat} {capture : Capture t} (hb : binds [⟨slot, capture⟩]) :
    (bind slot capture).Reads [slot] holds binds := by
  intro log b log' h
  cases h
  refine ⟨[⟨slot, capture⟩], rfl, ?_, fun _ => hb, fun h => absurd h (by simp)⟩
  intro x hx
  rw [List.mem_singleton.1 hx]
  exact List.mem_singleton.2 rfl

theorem Reads.both (h : a.Reads slots holds binds) (h' : a'.Reads slots' holds' binds') :
    (both a a').Reads (slots ++ slots') (holds ∧ holds')
      (fun bs => ∃ xs ys, bs = xs ++ ys ∧ binds xs ∧ binds' ys) := by
  intro log b log' hab
  cases ha : a log with
  | error e => rw [Attempt.both, ha] at hab; cases hab
  | ok r =>
    obtain ⟨b₁, log₁⟩ := r
    obtain ⟨xs, rfl, hxs, htrue, hfalse⟩ := h log b₁ log₁ ha
    rw [Attempt.both, ha] at hab
    cases b₁ with
    | false =>
      cases hab
      exact ⟨xs, rfl, fun x hx => List.mem_append_left _ (hxs x hx), fun hb => absurd hb (by simp),
        fun hb hh => hfalse hb hh.1⟩
    | true =>
      obtain ⟨ys, rfl, hys, htrue', hfalse'⟩ := h' _ b log' hab
      refine ⟨xs ++ ys, List.append_assoc log xs ys, ?_, fun hb => ⟨xs, ys, rfl, htrue rfl, htrue' hb⟩,
        fun hb hh => hfalse' hb hh.2⟩
      intro x hx
      rcases List.mem_append.1 hx with hx | hx
      · exact List.mem_append_left _ (hxs x hx)
      · exact List.mem_append_right _ (hys x hx)

/-- A negation of what has no captures; what it negates holds whenever it binds something. -/
theorem Reads.negate (h : a.Reads [] holds binds) (hb : ∀ bs, binds bs → holds) :
    a.negate.Reads slots (¬ holds) (fun bs => bs = [] ∧ ¬ holds) := by
  intro log b log' hn
  cases ha : a log with
  | error e => rw [Attempt.negate, ha] at hn; cases hn
  | ok r =>
    obtain ⟨b₁, log₁⟩ := r
    obtain ⟨bs, rfl, hslots, htrue, hfalse⟩ := h log b₁ log₁ ha
    rw [Attempt.negate, ha] at hn
    cases hn
    obtain rfl : bs = [] := by
      cases bs with
      | nil => rfl
      | cons x bs => exact absurd (hslots x List.mem_cons_self) List.not_mem_nil
    refine ⟨[], rfl, fun _ hx => absurd hx List.not_mem_nil, fun hb₁ => ⟨rfl, hfalse ?_⟩,
      fun hb₁ hn => hn (hb [] (htrue ?_))⟩
    · simpa using hb₁
    · simpa using hb₁

/-- The bindings of the elements that fail are gone; those of the first that succeeds stay. -/
theorem reads_firstOf {α : Type} {f : α → Attempt t} {l : List α} {holds : α → Prop}
    {binds : α → List (Binding t) → Prop} (h : ∀ x ∈ l, (f x).Reads slots (holds x) (binds x))
    (hb : ∀ x ∈ l, ∀ bs, binds x bs → holds x) :
    Reads (fun log => firstOf f log.length l log) slots (∃ x ∈ l, holds x)
      (fun bs => ∃ x, First holds l x ∧ binds x bs) := by
  intro log b log' hf
  induction l with
  | nil =>
    cases hf
    refine ⟨[], (List.append_nil log).symm, fun _ hx => absurd hx List.not_mem_nil,
      fun hb => absurd hb (by simp), fun _ => ?_⟩
    rintro ⟨x, hx, _⟩
    exact absurd hx List.not_mem_nil
  | cons x l ih =>
    have hx := h x List.mem_cons_self
    simp only [firstOf, orElseFrom] at hf
    cases ha : f x log with
    | error e => rw [ha] at hf; cases hf
    | ok r =>
      obtain ⟨b₁, log₁⟩ := r
      obtain ⟨bs, rfl, hslots, htrue, hfalse⟩ := hx log b₁ log₁ ha
      rw [ha] at hf
      cases b₁ with
      | true =>
        cases hf
        have hbs := htrue rfl
        exact ⟨bs, rfl, hslots, fun _ => ⟨x, .here (hb x List.mem_cons_self bs hbs), hbs⟩,
          fun h => absurd h (by simp)⟩
      | false =>
        -- the log is what it was before the first was tried
        simp only [List.take_left] at hf
        obtain ⟨bs', hlog, hslots', htrue', hfalse'⟩ :=
          ih (fun y hy => h y (List.mem_cons_of_mem _ hy))
            (fun y hy => hb y (List.mem_cons_of_mem _ hy)) hf
        refine ⟨bs', hlog, hslots', fun hb => ?_, fun hb => ?_⟩
        · obtain ⟨y, hy, hbs⟩ := htrue' hb
          exact ⟨y, .later (hfalse rfl) hy, hbs⟩
        · rintro ⟨y, hy, hh⟩
          rcases List.mem_cons.1 hy with rfl | hy
          · exact hfalse rfl hh
          · exact hfalse' hb ⟨y, hy, hh⟩

/-! ### an element that takes several children -/

section
variable {cs : List (NodeChild t)} {before behind : Nat} {arity : Arity} {slot : Option Nat}
  {front back : List (NodeChild t) → Attempt t} {middle : NodeChild t → Attempt t}

theorem around_of_misfit
    (h : ¬ (before + behind ≤ cs.length ∧ arity.allows (cs.length - (before + behind)) = true)) :
    around before behind arity slot front middle back cs = ofBool false := by
  unfold around
  refine if_pos ?_
  rw [Bool.or_eq_true, decide_eq_true_eq, Bool.not_eq_true']
  by_cases hfixed : cs.length < before + behind
  · exact Or.inl hfixed
  · refine Or.inr ?_
    rw [not_and] at h
    exact eq_false_of_ne_true (h (Nat.le_of_not_lt hfixed))

theorem around_of_fit (hfixed : before + behind ≤ cs.length)
    (harity : arity.allows (cs.length - (before + behind)) = true) :
    around before behind arity slot front middle back cs =
      both (front cs)
        (both (back ((cs.drop before).drop (cs.length - (before + behind))))
          (both (forAll middle ((cs.drop before).take (cs.length - (before + behind))))
            (bindTaken slot ((cs.drop before).take (cs.length - (before + behind)))))) := by
  unfold around
  refine if_neg ?_
  rw [harity, Bool.not_true, Bool.or_false, decide_eq_true_eq]
  exact Nat.not_lt.2 hfixed

end

theorem reads_bindTaken (slot : Option Nat) (ys : List (NodeChild t)) :
    (bindTaken slot ys).Reads slot.toList True
      (fun bs => bs = slot.toList.map fun k => ⟨k, .many ys⟩) := by
  cases slot with
  | some k => exact reads_bind rfl
  | none => exact reads_ofBool (fun _ => rfl) (fun hb => absurd hb (by simp))

end Attempt

namespace Condition

variable {s : Setting} {t : SyntaxTree} {env : Environment}

open Attempt Pattern.Derivation

/-- On every child, the attempt decides the condition; the bindings are those of the derivation. -/
def Decided (s : Setting) (t : SyntaxTree) (p : Condition) : Prop :=
  ∀ c : NodeChild t, (attempt s p c).Reads p.slots (p.Holds s c)
    (fun bs => ∃ d, Derives s p c d ∧ d.bindings = bs)

/-! ## conditions on several children -/

theorem reads_attemptEach {ps : List Condition} (h : ∀ p ∈ ps, Decided s t p)
    (cs : List (NodeChild t)) :
    (attemptEach s ps cs).Reads (slotsEach ps) (HoldEach s ps (cs.take ps.length))
      (fun bs => ∃ ds, DerivesEach s ps (cs.take ps.length) ds ∧ bindingsEach ds = bs) := by
  induction ps generalizing cs with
  | nil =>
    rw [attemptEach]
    exact reads_ofBool (fun _ => ⟨[], .nil, rfl⟩) (fun hb => absurd hb (by simp))
  | cons p ps ih =>
    cases cs with
    | nil =>
      rw [attemptEach]
      refine reads_ofBool (fun hb => absurd hb (by simp)) fun _ hh => ?_
      exact absurd (length_of_holdEach hh) (by simp)
    | cons c cs =>
      rw [attemptEach]
      have hrest := ih (fun q hq => h q (List.mem_cons_of_mem _ hq)) cs
      refine ((h p List.mem_cons_self c).both hrest).imp (fun k hk => hk) holdEach_cons.1 ?_
      intro bs hbs
      obtain ⟨xs, ys, rfl, ⟨d, hd, rfl⟩, ds, hds, rfl⟩ := hbs
      exact ⟨d :: ds, .cons hd hds, rfl⟩

theorem attemptAll_eq (ps : List Condition) (c : NodeChild t) :
    attemptAll s ps c = attemptEach s ps (ps.map fun _ => c) := by
  induction ps with
  | nil => rw [attemptAll, attemptEach]
  | cons p ps ih => rw [attemptAll, ih, List.map_cons, attemptEach]

theorem forAll_eq (p : Condition) (cs : List (NodeChild t)) :
    forAll (fun c => attempt s p c) cs = attemptEach s (cs.map fun _ => p) cs := by
  induction cs with
  | nil => rw [forAll, List.map_nil, attemptEach]
  | cons c cs ih => rw [forAll, ih, List.map_cons, attemptEach]

theorem attemptAny_eq (ps : List Condition) (c : NodeChild t) (mark : Nat) :
    attemptAny s ps c mark = firstOf (fun p => attempt s p c) mark ps := by
  induction ps with
  | nil => rw [attemptAny, firstOf]
  | cons p ps ih => rw [attemptAny, ih, firstOf]

/-- Conditions that stand one behind the other and take one child each. -/
theorem reads_exact {ps : List Condition} (h : ∀ p ∈ ps, Decided s t p)
    {cs : List (NodeChild t)} (hlen : cs.length = ps.length) :
    (attemptEach s ps cs).Reads (slotsEach ps) (HoldEach s ps cs)
      (fun bs => ∃ ds, DerivesEach s ps cs ds ∧ bindingsEach ds = bs) := by
  have hr := reads_attemptEach h cs
  rw [List.take_of_length_le (Nat.le_of_eq hlen)] at hr
  exact hr

/-! ## a sequence with an element that takes several children -/

/-- One condition, on each of several children. -/
theorem reads_forAll {p : Condition} (h : Decided s t p) (ys : List (NodeChild t)) :
    (forAll (fun c => attempt s p c) ys).Reads p.slots (∀ c ∈ ys, p.Holds s c)
      (fun bs => ∃ ds, DerivesEach s (ys.map fun _ => p) ys ds ∧ bindingsEach ds = bs) := by
  have hp : ∀ q ∈ ys.map fun _ => p, q = p := by
    intro q hq
    obtain ⟨_, _, rfl⟩ := List.mem_map.1 hq
    rfl
  have hlen : ys.length = (ys.map fun _ => p).length := by rw [List.length_map]
  rw [forAll_eq]
  refine (reads_exact (fun q hq => ?_) hlen).imp ?_ holdEach_repeat_iff.2 fun bs hbs => hbs
  · rw [hp q hq]
    exact h
  · intro k hk
    rw [slotsEach_eq, List.mem_flatMap] at hk
    obtain ⟨q, hq, hk⟩ := hk
    rw [← hp q hq]
    exact hk

theorem reads_around {front back : List Condition} {middle : Condition}
    (hf : ∀ p ∈ front, Decided s t p) (hm : Decided s t middle) (hb : ∀ p ∈ back, Decided s t p)
    (arity : Arity) (slot : Option Nat) (cs : List (NodeChild t)) :
    (Attempt.around front.length back.length arity slot (fun cs => attemptEach s front cs)
        (fun d => attempt s middle d) (fun cs => attemptEach s back cs) cs).Reads
      (slotsEach front ++ (slotsEach back ++ (middle.slots ++ slot.toList)))
      (∃ xs ys zs, cs = xs ++ ys ++ zs ∧ HoldEach s front xs ∧ HoldEach s back zs ∧
        arity.allows ys.length = true ∧ ∀ d ∈ ys, middle.Holds s d)
      (fun bs => ∃ xs ys zs fs ks ms, cs = xs ++ ys ++ zs ∧ DerivesEach s front xs fs ∧
        DerivesEach s back zs ks ∧ arity.allows ys.length = true ∧
        DerivesEach s (ys.map fun _ => middle) ys ms ∧
        bs = bindingsEach fs ++ (bindingsEach ks ++ (Derivation.taken middle slot ys ms).bindings)) := by
  by_cases hfit : front.length + back.length ≤ cs.length ∧
      arity.allows (cs.length - (front.length + back.length)) = true
  · obtain ⟨hfixed, harity⟩ := hfit
    have hback : ((cs.drop front.length).drop (cs.length - (front.length + back.length))).length =
        back.length := by
      rw [List.length_drop, List.length_drop]
      omega
    have htaken : ((cs.drop front.length).take (cs.length - (front.length + back.length))).length =
        cs.length - (front.length + back.length) := by
      rw [List.length_take, List.length_drop]
      omega
    rw [around_of_fit hfixed harity]
    refine ((reads_attemptEach hf cs).both ((reads_exact hb hback).both
      ((reads_forAll hm _).both (reads_bindTaken slot _)))).imp (fun k hk => hk) ?_ ?_
    · rintro ⟨xs, ys, zs, hcut, hfront, hbk, _, hall⟩
      obtain ⟨rfl, rfl, rfl⟩ := cut_unique hcut (length_of_holdEach hfront) (length_of_holdEach hbk)
      exact ⟨hfront, hbk, hall, trivial⟩
    · intro bs hbs
      obtain ⟨_, _, rfl, ⟨fs, hfs, rfl⟩, _, _, rfl, ⟨ks, hks, rfl⟩, _, _, rfl, ⟨ms, hms, rfl⟩, rfl⟩ := hbs
      refine ⟨_, _, _, fs, ks, ms, cut_eq cs front.length _, hfs, hks, ?_, hms, rfl⟩
      rw [htaken]
      exact harity
  · -- no cut suits, since the lengths of its parts would
    rw [around_of_misfit hfit]
    refine reads_ofBool (fun hb => absurd hb (by simp)) fun _ => ?_
    rintro ⟨xs, ys, zs, hcut, hfront, hbk, harity, _⟩
    have hx := length_of_holdEach hfront
    have hz := length_of_holdEach hbk
    have hlen : cs.length = xs.length + ys.length + zs.length := by
      rw [hcut, List.length_append, List.length_append]
    have hy : cs.length - (front.length + back.length) = ys.length := by omega
    exact hfit ⟨by omega, by rw [hy]; exact harity⟩

/-! ## the whole condition -/

theorem reads_ofBool_plain {p : Condition} (hp : p.IsPlain) {c : NodeChild t} {b : Bool}
    (h : p.Holds s c ↔ b = true) :
    (ofBool b).Reads p.slots (p.Holds s c) (fun bs => ∃ d, Derives s p c d ∧ d.bindings = bs) := by
  refine reads_ofBool (fun hb => ⟨.plain, .plain hp (h.2 hb), rfl⟩) fun hb hh => ?_
  rw [h.1 hh] at hb
  exact absurd hb (by simp)

theorem reads_ofAnswer_plain {p : Condition} (hp : p.IsPlain) {c : NodeChild t}
    {answer : Except PredicateError Bool} (h : p.Holds s c ↔ answer = .ok true) :
    (ofAnswer answer).Reads p.slots (p.Holds s c)
      (fun bs => ∃ d, Derives s p c d ∧ d.bindings = bs) := by
  refine reads_ofAnswer (fun hb => ⟨.plain, .plain hp (h.2 hb), rfl⟩) fun hb hh => ?_
  rw [h.1 hh] at hb
  exact absurd hb (by simp)

theorem isOneOf_iff {symbols : List String} {c : NodeChild t} :
    (∃ x ∈ symbols, c = .value (.sym x) ∨ c = .value (.str x)) ↔ isOneOf symbols c = true := by
  unfold isOneOf
  constructor
  · rintro ⟨x, hx, rfl | rfl⟩
    · exact List.contains_iff_mem.2 hx
    · exact List.contains_iff_mem.2 hx
  · intro h
    split at h
    · exact ⟨_, List.contains_iff_mem.1 h, Or.inl rfl⟩
    · exact ⟨_, List.contains_iff_mem.1 h, Or.inr rfl⟩
    · exact absurd h (by simp)

theorem decided_plain {p : Condition} (hp : p.IsPlain) : Decided s t p := by
  intro c
  cases p with
  | wildcard =>
    rw [attempt]
    exact reads_ofBool_plain hp (by simp [Holds])
  | kind k =>
    rw [attempt]
    refine reads_ofBool_plain hp ?_
    cases c <;> simp [Holds, NodeChild.asNode?]
  | kindIn kinds =>
    rw [attempt]
    refine reads_ofBool_plain hp ?_
    cases c <;> simp [Holds, NodeChild.asNode?]
  | literal v =>
    rw [attempt]
    refine reads_ofBool_plain hp ?_
    cases c <;> simp [Holds, NodeChild.asValue?]
  | builtin question =>
    rw [attempt]
    exact reads_ofBool_plain hp (by rw [Holds])
  | external name arguments =>
    rw [attempt]
    exact reads_ofAnswer_plain hp (by rw [Holds])
  | oneOf symbols =>
    rw [attempt]
    refine reads_ofBool_plain hp ?_
    rw [Holds]
    exact isOneOf_iff
  | param number =>
    rw [attempt]
    refine reads_ofAnswer_plain hp ?_
    rw [Holds]
    cases s.param number with
    | error e => simp [Except.map]
    | ok q => simp [Except.map]
  | _ => exact hp.elim

/-- An attempt decides its condition, on whatever log it starts. -/
theorem decided_of_wellFormed {p : Condition} {lo hi : Nat} (h : p.WellFormed env lo hi) :
    Decided s t p := by
  induction p using Condition.ind generalizing lo hi with
  | plain p hp => exact decided_plain hp
  | capture slot inner ih =>
    intro c
    rw [attempt, Holds]
    refine ((ih h.2 c).both (reads_bind rfl)).imp (fun k hk => ?_) (fun hh => ⟨hh, trivial⟩) ?_
    · rw [slots, List.mem_cons]
      rcases List.mem_append.1 hk with hk | hk
      · exact Or.inr hk
      · exact Or.inl (List.mem_singleton.1 hk)
    · intro bs hbs
      obtain ⟨_, _, rfl, ⟨d, hd, rfl⟩, rfl⟩ := hbs
      exact ⟨_, .capture hd, rfl⟩
  | exactly head elements ihh ihe =>
    obtain ⟨a, hh, he⟩ := h
    have hall : ∀ p ∈ elements, Decided s t p := he.forall ihe
    intro c
    cases c with
    | value v =>
      rw [attempt, Holds]
      refine reads_ofBool (fun hb => absurd hb (by simp)) fun _ => ?_
      rintro ⟨n, hn, _⟩
      cases hn
    | node n =>
      rw [attempt, holds_exactly_node]
      by_cases hlen : n.childCount = elements.length
      · rw [if_pos hlen]
        refine ((ihh hh (.node n)).both (reads_exact hall hlen)).imp (fun k hk => hk)
          (fun hh => hh) ?_
        intro bs hbs
        obtain ⟨_, _, rfl, ⟨d, hd, rfl⟩, ds, hds, rfl⟩ := hbs
        exact ⟨_, .exactly hd hds, rfl⟩
      · rw [if_neg hlen]
        have hmiss : (ofBool false : Attempt t).Reads (slotsEach elements)
            (HoldEach s elements n.children) (fun _ => False) :=
          reads_ofBool (fun hb => absurd hb (by simp)) fun _ hh => hlen (length_of_holdEach hh)
        refine ((ihh hh (.node n)).both hmiss).imp (fun k hk => hk) (fun hh => hh) ?_
        intro bs hbs
        obtain ⟨_, _, _, _, hno⟩ := hbs
        exact hno.elim
  | around head front middle arity slot back ihh ihf ihm ihb =>
    obtain ⟨_, _, _, _, hh, hf, _, hm, hb⟩ := h
    have hfront : ∀ p ∈ front, Decided s t p := hf.forall ihf
    have hback : ∀ p ∈ back, Decided s t p := hb.forall ihb
    intro c
    cases c with
    | value v =>
      rw [attempt, Holds]
      refine reads_ofBool (fun hb => absurd hb (by simp)) fun _ => ?_
      rintro ⟨n, hn, _⟩
      cases hn
    | node n =>
      rw [attempt, holds_around_node]
      refine ((ihh hh (.node n)).both
        (reads_around hfront (ihm hm) hback arity slot n.children)).imp (fun k hk => ?_)
        (fun hh => hh) ?_
      · simp only [slots, List.mem_append] at hk ⊢
        rcases hk with hk | hk | hk | hk | hk <;> simp only [hk, true_or, or_true]
      · intro bs hbs
        obtain ⟨_, _, rfl, ⟨d, hd, rfl⟩, xs, ys, zs, fs, ks, ms, hcut, hfs, hks, ha, hms, rfl⟩ := hbs
        refine ⟨_, .around hd hcut hfs hks ha hms, ?_⟩
        rw [bindings_around, List.append_assoc]
  | union branches ih =>
    obtain ⟨_, halike⟩ := h
    rw [wellFormedAlike_iff] at halike
    intro c
    have hbranch : ∀ p ∈ branches, (attempt s p c).Reads (slots (.union branches)) (p.Holds s c)
        (fun bs => ∃ d, Derives s p c d ∧ d.bindings = bs) := by
      intro p hp
      refine (ih p hp (halike p hp) c).imp (fun k hk => ?_) (fun hh => hh) fun bs hbs => hbs
      rw [slots, slotsEach_eq]
      exact List.mem_flatMap.2 ⟨p, hp, hk⟩
    rw [attempt, Holds]
    simp only [attemptAny_eq]
    refine (reads_firstOf hbranch ?_).imp (fun k hk => hk) holdSome_iff.1 ?_
    · intro p _ bs hbs
      obtain ⟨d, hd, _⟩ := hbs
      exact hd.holds
    · intro bs hbs
      obtain ⟨p, hp, d, hd, rfl⟩ := hbs
      exact ⟨d, .union hp hd, rfl⟩
  | intersection terms ih =>
    have hall : ∀ p ∈ terms, Decided s t p := WellFormedEach.forall h ih
    intro c
    rw [attempt, Holds, attemptAll_eq, holdAll_iff, ← holdEach_same_iff]
    refine (reads_exact hall (by rw [List.length_map])).imp (fun k hk => hk) (fun hh => hh) ?_
    intro bs hbs
    obtain ⟨ds, hds, rfl⟩ := hbs
    exact ⟨_, .intersection hds, rfl⟩
  | negation inner ih =>
    obtain ⟨rfl, hinner⟩ := h
    intro c
    have hr := ih hinner c
    rw [hinner.slots_eq_nil] at hr
    rw [attempt, Holds]
    refine (hr.negate ?_).imp (fun k hk => hk) (fun hh => hh) ?_
    · intro bs hbs
      obtain ⟨d, hd, _⟩ := hbs
      exact hd.holds
    · intro bs hbs
      obtain ⟨rfl, hno⟩ := hbs
      exact ⟨_, .negation hno, rfl⟩
  | parent inner ih =>
    intro c
    rw [attempt, Holds]
    cases hp : c.asNode?.bind Node.parent? with
    | none =>
      refine reads_ofBool (fun hb => absurd hb (by simp)) fun _ => ?_
      rintro ⟨n, p, rfl, hnp, _⟩
      rw [show (NodeChild.node n).asNode?.bind Node.parent? = n.parent? from rfl, hnp] at hp
      cases hp
    | some p =>
      obtain ⟨n, hn, hnp⟩ := Option.bind_eq_some_iff.1 hp
      obtain rfl : c = .node n := by
        cases c with
        | node m => cases hn; rfl
        | value v => cases hn
      refine (ih h (.node p)).imp (fun k hk => hk) ?_ ?_
      · rintro ⟨m, q, hm, hq, hh⟩
        obtain rfl := NodeChild.node.inj hm
        obtain rfl := Option.some.inj (hnp.symm.trans hq)
        exact hh
      · intro bs hbs
        obtain ⟨d, hd, rfl⟩ := hbs
        exact ⟨d, .parent hnp hd, rfl⟩
  | descendant inner ih =>
    intro c
    cases c with
    | value v =>
      rw [attempt, Holds]
      refine (ih h (.value v)).imp (fun k hk => hk) (fun hh => hh) ?_
      intro bs hbs
      obtain ⟨d, hd, rfl⟩ := hbs
      exact ⟨d, .itself hd, rfl⟩
    | node n =>
      rw [attempt, Holds]
      refine (reads_firstOf (fun m _ => ih h (.node m)) ?_).imp (fun k hk => hk) ?_ ?_
      · intro m _ bs hbs
        obtain ⟨d, hd, _⟩ := hbs
        exact hd.holds
      · rintro ⟨m, hm, hh⟩
        exact ⟨m, Node.mem_descendants.2 hm, hh⟩
      · intro bs hbs
        obtain ⟨m, hm, d, hd, rfl⟩ := hbs
        exact ⟨d, .descendant hm hd, rfl⟩

end Condition

end RubyLint.Pattern
