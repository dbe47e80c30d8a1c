import RubyLint.Proofs.Pattern.Match

/-!
# What the captures of a match hold

The captures of a match are read off the preferred derivation: the last binding of a slot wins, and a
slot that nothing binds is one that the derivation passes over.  The second half needs the numbering:
the captures of the parts of a condition have slots of their own, so what one part leaves unbound no
other part binds (`Fills.append`).

* `fills_of_derives`   along a derivation every slot of the condition is bound or passed over;
* `exists_derivation_of_matchChild`   the captures of a match are those of its derivation.
-/

namespace RubyLint.Pattern

/-! ## slots that are bound or passed over -/

section
variable {t : SyntaxTree}

/-- The bindings are of slots in the range, and those of the range that they leave out are exactly
those that are passed over. -/
structure Fills (bs : List (Binding t)) (passed : Nat → Prop) (range : Nat → Prop) : Prop where
  range_of_mem : ∀ b ∈ bs, range b.slot
  passed_iff : ∀ k, passed k ↔ range k ∧ ∀ b ∈ bs, b.slot ≠ k

namespace Fills

variable {bs bs' : List (Binding t)} {passed passed' range range' : Nat → Prop}

theorem congr (h : Fills bs passed range) (hp : ∀ k, passed' k ↔ passed k)
    (hr : ∀ k, range' k ↔ range k) : Fills bs passed' range' := by
  refine ⟨fun b hb => (hr b.slot).2 (h.range_of_mem b hb), fun k => ?_⟩
  rw [hp, hr]
  exact h.passed_iff k

theorem nil (hr : ∀ k, ¬ range k) : Fills ([] : List (Binding t)) (fun _ => False) range := by
  refine ⟨fun b hb => absurd hb List.not_mem_nil, fun k => ?_⟩
  constructor
  · exact fun h => h.elim
  · exact fun h => hr k h.1

theorem single (slot : Nat) (capture : Capture t) :
    Fills [⟨slot, capture⟩] (fun _ => False) (fun k => k = slot) := by
  refine ⟨fun b hb => ?_, fun k => ?_⟩
  · rw [List.mem_singleton.1 hb]
  · constructor
    · exact fun h => h.elim
    · rintro ⟨rfl, h⟩
      exact h _ (List.mem_singleton.2 rfl) rfl

/-- Two parts with slots of their own. -/
theorem append (h : Fills bs passed range) (h' : Fills bs' passed' range')
    (hd : ∀ k, range k → ¬ range' k) :
    Fills (bs ++ bs') (fun k => passed k ∨ passed' k) (fun k => range k ∨ range' k) := by
  refine ⟨fun b hb => ?_, fun k => ?_⟩
  · rcases List.mem_append.1 hb with hb | hb
    · exact Or.inl (h.range_of_mem b hb)
    · exact Or.inr (h'.range_of_mem b hb)
  · rw [h.passed_iff, h'.passed_iff]
    constructor
    · rintro (⟨hk, hne⟩ | ⟨hk, hne⟩)
      · refine ⟨Or.inl hk, fun b hb => ?_⟩
        rcases List.mem_append.1 hb with hb | hb
        · exact hne b hb
        · intro hbk
          exact hd k hk (hbk ▸ h'.range_of_mem b hb)
      · refine ⟨Or.inr hk, fun b hb => ?_⟩
        rcases List.mem_append.1 hb with hb | hb
        · intro hbk
          exact hd k (hbk ▸ h.range_of_mem b hb) hk
        · exact hne b hb
    · rintro ⟨hk | hk, hne⟩
      · exact Or.inl ⟨hk, fun b hb => hne b (List.mem_append_left _ hb)⟩
      · exact Or.inr ⟨hk, fun b hb => hne b (List.mem_append_right _ hb)⟩

end Fills

end

/-! ## a derivation binds or passes over every slot -/

namespace Derivation

variable {t : SyntaxTree} {k : Nat}

theorem not_passesOver_plain : ¬ (plain : Derivation t).PassesOver k := by
  intro h
  cases h

theorem passesOver_captured {d : Derivation t} {slot : Nat} {c : NodeChild t} :
    (captured d slot c).PassesOver k ↔ d.PassesOver k := by
  constructor
  · intro h
    cases h with
    | inner h => exact h
  · exact .inner

theorem passesOver_parts {ds : List (Derivation t)} :
    (parts ds).PassesOver k ↔ ∃ d ∈ ds, d.PassesOver k := by
  constructor
  · intro h
    cases h with
    | part hd h => exact ⟨_, hd, h⟩
  · rintro ⟨d, hd, h⟩
    exact .part hd h

theorem passesOver_taken {p : Condition} {slot : Option Nat} {cs : List (NodeChild t)}
    {ds : List (Derivation t)} :
    (taken p slot cs ds).PassesOver k ↔ k ∈ p.slots ∧ ∀ d ∈ ds, d.PassesOver k := by
  constructor
  · intro h
    cases h with
    | taken hw h => exact ⟨hw, h⟩
  · rintro ⟨hw, h⟩
    exact .taken hw h

end Derivation

namespace Condition

open Pattern.Derivation

variable {s : Setting} {t : SyntaxTree} {env : Environment}

/-- Along every derivation of the condition, each of its slots is bound or passed over. -/
def Covered (env : Environment) (s : Setting) (t : SyntaxTree) (p : Condition) : Prop :=
  ∀ (c : NodeChild t) (d : Derivation t) (lo hi : Nat), p.WellFormed env lo hi → Derives s p c d →
    Fills d.bindings d.PassesOver fun k => lo ≤ k ∧ k < hi

theorem fills_each {ps : List Condition} {cs : List (NodeChild t)} {ds : List (Derivation t)}
    {lo hi : Nat} (h : ∀ p ∈ ps, Covered env s t p) (hw : WellFormedEach env ps lo hi)
    (hd : DerivesEach s ps cs ds) :
    Fills (bindingsEach ds) (fun k => ∃ d ∈ ds, d.PassesOver k) fun k => lo ≤ k ∧ k < hi := by
  induction ps generalizing cs ds lo with
  | nil =>
    obtain ⟨rfl, rfl⟩ := hd.nil_inv
    obtain rfl : lo = hi := hw
    refine (Fills.nil fun k hk => ?_).congr ?_ fun k => Iff.rfl
    · have := hk.2
      omega
    · simp
  | cons p ps ih =>
    obtain ⟨c, rest, e, es, rfl, rfl, hp, hs⟩ := hd.cons_inv
    obtain ⟨m, hwp, hws⟩ := hw
    have hle := hwp.le
    have hle' := hws.le
    have hfirst := h p List.mem_cons_self c e lo m hwp hp
    have hrest := ih (fun q hq => h q (List.mem_cons_of_mem _ hq)) hws hs
    refine (hfirst.append hrest fun k hk hk' => by omega).congr (fun k => ?_) fun k => by omega
    simp only [List.mem_cons, exists_eq_or_imp]

/-- Each of the derivations on the children that an element takes. -/
theorem fills_of_repeat {p : Condition} {cs : List (NodeChild t)} {ds : List (Derivation t)}
    {lo hi : Nat} (h : Covered env s t p) (hw : p.WellFormed env lo hi)
    (hd : DerivesEach s (cs.map fun _ => p) cs ds) :
    ∀ e ∈ ds, Fills e.bindings e.PassesOver fun k => lo ≤ k ∧ k < hi := by
  induction cs generalizing ds with
  | nil =>
    obtain ⟨_, rfl⟩ := hd.nil_inv
    exact fun e he => absurd he List.not_mem_nil
  | cons x cs ih =>
    obtain ⟨c, rest, e, es, hc, rfl, hx, hxs⟩ := hd.cons_inv
    obtain ⟨rfl, rfl⟩ := List.cons.inj hc
    intro e' he'
    rcases List.mem_cons.1 he' with rfl | he'
    · exact h x _ lo hi hw hx
    · exact ih hxs e' he'

/-- An element passes over a slot of its condition if it does so on every child that it takes. -/
theorem fills_taken {p : Condition} {slot : Option Nat} {cs : List (NodeChild t)}
    {ds : List (Derivation t)} {a b hi : Nat} (h : Covered env s t p) (hs : NextSlot slot a b)
    (hw : p.WellFormed env b hi) (hd : DerivesEach s (cs.map fun _ => p) cs ds) :
    Fills (taken p slot cs ds).bindings (taken p slot cs ds).PassesOver fun k => a ≤ k ∧ k < hi := by
  have hle := hs.le
  have hle' := hw.le
  have heach := fills_of_repeat h hw hd
  have hinner : Fills (bindingsEach ds) (fun k => k ∈ p.slots ∧ ∀ e ∈ ds, e.PassesOver k)
      fun k => b ≤ k ∧ k < hi := by
    refine ⟨fun x hx => ?_, fun k => ?_⟩
    · obtain ⟨e, he, hx⟩ := mem_bindingsEach.1 hx
      exact (heach e he).range_of_mem x hx
    · rw [hw.mem_slots_iff]
      refine ⟨fun hk => ⟨hk.1, fun x hx => ?_⟩, fun hk => ⟨hk.1, fun e he => ?_⟩⟩
      · obtain ⟨e, he, hx⟩ := mem_bindingsEach.1 hx
        exact (((heach e he).passed_iff k).1 (hk.2 e he)).2 x hx
      · refine ((heach e he).passed_iff k).2 ⟨hk.1, fun x hx => ?_⟩
        exact hk.2 x (mem_bindingsEach.2 ⟨e, he, hx⟩)
  have hown : Fills (slot.toList.map fun k => (⟨k, .many cs⟩ : Binding t)) (fun _ => False)
      fun k => a ≤ k ∧ k < b := by
    cases slot with
    | none =>
      obtain rfl : b = a := hs
      exact Fills.nil fun k hk => by omega
    | some j =>
      obtain ⟨rfl, rfl⟩ := hs
      exact (Fills.single j (.many cs)).congr (fun k => Iff.rfl) fun k => by omega
  refine (hinner.append hown fun k hk hk' => by omega).congr (fun k => ?_) fun k => by omega
  rw [passesOver_taken, or_false]

theorem fills_plain (k : Nat) :
    Fills (plain : Derivation t).bindings (plain : Derivation t).PassesOver
      fun j => k ≤ j ∧ j < k := by
  refine (Fills.nil fun j hj => ?_).congr (fun j => ?_) fun j => Iff.rfl
  · have := hj.1
    omega
  · exact iff_of_false not_passesOver_plain id

theorem fills_of_derives (p : Condition) : Covered env s t p := by
  induction p using Condition.ind with
  | plain p hp =>
    intro c d lo hi hw hd
    obtain rfl := eq_of_isPlain hp hw
    obtain ⟨_, rfl⟩ := hd.plain_inv hp
    exact fills_plain lo
  | capture slot inner ih =>
    intro c d lo hi hw hd
    obtain ⟨rfl, hw⟩ := hw
    obtain ⟨e, he, rfl⟩ := hd.capture_inv
    have hle := hw.le
    have hinner := ih c e (slot + 1) hi hw he
    refine (hinner.append (Fills.single slot (.single c)) fun k hk hk' => by omega).congr
      (fun k => ?_) fun k => by omega
    rw [passesOver_captured, or_false]
  | exactly head elements ihh ihe =>
    intro c d lo hi hw hd
    obtain ⟨n, e, ds, rfl, hh, hds, rfl⟩ := hd.exactly_inv
    have hall : ∀ p ∈ head :: elements, Covered env s t p := List.forall_mem_cons.2 ⟨ihh, ihe⟩
    have hwf : WellFormedEach env (head :: elements) lo hi := hw
    exact (fills_each hall hwf (.cons hh hds)).congr (fun k => passesOver_parts) fun k => Iff.rfl
  | around head front middle arity slot back ihh ihf ihm ihb =>
    intro c d lo hi hw hd
    obtain ⟨a, b, m, m', hwh, hwf, hs, hwm, hwb⟩ := hw
    obtain ⟨n, xs, ys, zs, e, fs, bs, ms, rfl, _, hh, hf, hb, _, hm, rfl⟩ := hd.around_inv
    have hle₁ := hwh.le
    have hle₂ := hwf.le
    have hle₃ := hs.le
    have hle₄ := hwm.le
    have hle₅ := hwb.le
    have hhead := ihh (.node n) e lo a hwh hh
    have hfront := fills_each ihf hwf hf
    have hback := fills_each ihb hwb hb
    have htaken := fills_taken ihm hs hwm hm
    have hrest := (hfront.append hback fun k hk hk' => by omega).append htaken
      fun k hk hk' => by omega
    rw [bindings_around]
    refine (hhead.append hrest fun k hk hk' => by omega).congr (fun k => ?_) fun k => ?_
    · rw [passesOver_parts]
      simp only [List.mem_cons, List.mem_append, List.not_mem_nil, or_false,
        or_and_right, exists_or, exists_eq_left]
    · show lo ≤ k ∧ k < hi ↔
        lo ≤ k ∧ k < a ∨ (a ≤ k ∧ k < b ∨ m' ≤ k ∧ k < hi) ∨ b ≤ k ∧ k < m'
      omega
  | union branches ih =>
    intro c d lo hi hw hd
    obtain ⟨_, halike⟩ := hw
    obtain ⟨p, hp, hd⟩ := hd.union_inv
    exact ih p hp.mem c d lo hi (wellFormedAlike_iff.1 halike p hp.mem) hd
  | intersection terms ih =>
    intro c d lo hi hw hd
    obtain ⟨ds, hds, rfl⟩ := hd.intersection_inv
    exact (fills_each ih hw hds).congr (fun k => passesOver_parts) fun k => Iff.rfl
  | negation inner ih =>
    intro c d lo hi hw hd
    obtain ⟨rfl, _⟩ := hw
    obtain ⟨_, rfl⟩ := hd.negation_inv
    exact fills_plain lo
  | parent inner ih =>
    intro c d lo hi hw hd
    obtain ⟨n, p, _, _, hd⟩ := hd.parent_inv
    exact ih (.node p) d lo hi hw hd
  | descendant inner ih =>
    intro c d lo hi hw hd
    cases c with
    | node n =>
      obtain ⟨m, _, hd⟩ := hd.descendant_inv
      exact ih (.node m) d lo hi hw hd
    | value v => exact ih (.value v) d lo hi hw hd.itself_inv

end Condition

/-! ## captures -/

namespace Captures

variable {t : SyntaxTree} {bs : List (Binding t)} {slot : Nat}

theorem lastOf_eq_some_iff {x : Capture t} :
    lastOf bs slot = some x ↔
      ∃ before after, bs = before ++ ⟨slot, x⟩ :: after ∧ ∀ b ∈ after, b.slot ≠ slot := by
  unfold lastOf
  rw [Option.map_eq_some_iff]
  constructor
  · intro h
    obtain ⟨b, hfind, rfl⟩ := h
    obtain ⟨hb, after, before, hrev, hafter⟩ := List.find?_eq_some_iff_append.1 hfind
    refine ⟨before.reverse, after.reverse, ?_, fun b' hb' => ?_⟩
    · rw [← List.reverse_reverse bs, hrev, List.reverse_append, List.reverse_cons,
        List.append_assoc, ← beq_iff_eq.1 hb]
      rfl
    · have := hafter b' (List.mem_reverse.1 hb')
      simpa using this
  · intro h
    obtain ⟨before, after, rfl, hafter⟩ := h
    refine ⟨⟨slot, x⟩, List.find?_eq_some_iff_append.2 ⟨beq_self_eq_true slot, ?_⟩, rfl⟩
    refine ⟨after.reverse, before.reverse, ?_, fun b hb => ?_⟩
    · rw [List.reverse_append, List.reverse_cons, List.append_assoc]
      rfl
    · have := hafter b (List.mem_reverse.1 hb)
      simpa using this

theorem lastOf_eq_none_iff : lastOf bs slot = none ↔ ∀ b ∈ bs, b.slot ≠ slot := by
  unfold lastOf
  rw [Option.map_eq_none_iff, List.find?_eq_none]
  simp only [List.mem_reverse, beq_iff_eq]

theorem get?_ofBindings {count : Nat} {names : List (String × Nat)} (h : slot < count) :
    (ofBindings count names bs).get? slot = lastOf bs slot := by
  unfold get? ofBindings
  rw [List.getElem?_map, List.getElem?_range h]
  rfl

theorem get?_ofBindings_of_le {count : Nat} {names : List (String × Nat)} (h : count ≤ slot) :
    (ofBindings count names bs).get? slot = none := by
  unfold get? ofBindings
  rw [List.getElem?_map, List.getElem?_eq_none (by rw [List.length_range]; exact h)]
  rfl

/-- The captures are those of a derivation: there is a place for each slot, the last binding of a slot
wins, and a slot is unbound exactly if the derivation passes over its capture. -/
structure AreThoseOf (caps : Captures t) (d : Derivation t) (count : Nat) : Prop where
  length_values : caps.values.length = count
  get?_eq_some_iff : ∀ slot x, caps.get? slot = some x ↔
    ∃ before after, d.bindings = before ++ ⟨slot, x⟩ :: after ∧ ∀ b ∈ after, b.slot ≠ slot
  get?_eq_none_iff : ∀ slot, slot < count → (caps.get? slot = none ↔ d.PassesOver slot)

/-- Nothing but the bindings along a derivation that binds or passes over all slots. -/
theorem areThoseOf_ofBindings {d : Derivation t} {count : Nat} (names : List (String × Nat))
    (h : Fills d.bindings d.PassesOver fun k => 0 ≤ k ∧ k < count) :
    (ofBindings count names d.bindings).AreThoseOf d count := by
  refine ⟨?_, fun slot x => ?_, fun slot hslot => ?_⟩
  · show ((List.range count).map _).length = count
    rw [List.length_map, List.length_range]
  · by_cases hslot : slot < count
    · rw [get?_ofBindings hslot, lastOf_eq_some_iff]
    · rw [get?_ofBindings_of_le (Nat.le_of_not_lt hslot)]
      constructor
      · intro hx
        cases hx
      · intro hx
        obtain ⟨before, after, hbs, _⟩ := hx
        have hmem : (⟨slot, x⟩ : Binding t) ∈ d.bindings := by
          rw [hbs]
          exact List.mem_append_right _ List.mem_cons_self
        exact absurd (h.range_of_mem _ hmem).2 hslot
  · rw [get?_ofBindings hslot, lastOf_eq_none_iff, h.passed_iff]
    constructor
    · exact fun hne => ⟨⟨Nat.zero_le slot, hslot⟩, hne⟩
    · exact fun hk => hk.2

end Captures

/-- **The captures of a match are those of the preferred derivation**, of which there is one only. -/
theorem exists_derivation_of_matchChild {source : String} {env : Environment} {p : Pattern}
    (h : compile source env = .ok p) {params : List Param} {t : SyntaxTree} {c : NodeChild t}
    {caps : Captures t} (hm : p.matchChild params c = some caps) :
    ∃ d, p.condition.Derives ⟨env, params⟩ c d ∧
      (∀ d', p.condition.Derives ⟨env, params⟩ c d' → d' = d) ∧ caps.AreThoseOf d p.captureCount := by
  obtain ⟨rfl, hwf⟩ := wellFormed_of_compile h
  obtain ⟨log, ha, rfl⟩ := attempt_of_matchChild hm
  obtain ⟨bs, hlog, -, htrue, -⟩ := Condition.decided_of_wellFormed hwf c [] true log ha
  obtain ⟨d, hd, hbs⟩ := htrue rfl
  obtain rfl : log = d.bindings := by rw [hlog, hbs, List.nil_append]
  refine ⟨d, hd, fun d' hd' => Condition.derives_unique hd' hd, ?_⟩
  exact Captures.areThoseOf_ofBindings p.names
    (Condition.fills_of_derives p.condition c d 0 p.captureCount hwf hd)

/-- the call has no arguments, so the capture inside the starred element is passed over -/
theorem bareCall_captures : ∃ p caps,
    compile "(send $#absent? %1 {(int $_) (str $_)}*)" absentOnly = .ok p ∧
    p.matchChild [.value (.sym "puts")] (.node bareCall.rootNode) = some caps ∧
    ∃ d, caps.AreThoseOf d p.captureCount ∧ d.PassesOver 1 := by
  obtain ⟨p, hp, hcheck⟩ : ∃ p,
      compile "(send $#absent? %1 {(int $_) (str $_)}*)" absentOnly = .ok p ∧
      (decide (1 < p.captureCount) &&
        (p.matchChild [.value (.sym "puts")] (.node bareCall.rootNode)).any fun caps =>
          (caps.get? 1).isNone) = true :=
    exists_compile (fun p => decide (1 < p.captureCount) &&
      (p.matchChild [.value (.sym "puts")] (.node bareCall.rootNode)).any fun caps =>
        (caps.get? 1).isNone) (by decide +kernel)
  rw [Bool.and_eq_true, decide_eq_true_eq, Option.any_eq_true] at hcheck
  obtain ⟨hcount, caps, hm, hnone⟩ := hcheck
  obtain ⟨d, -, -, hcaps⟩ := exists_derivation_of_matchChild hp hm
  exact ⟨p, caps, hp, hm, d, hcaps,
    (hcaps.get?_eq_none_iff 1 hcount).1 (Option.isNone_iff_eq_none.1 hnone)⟩

end RubyLint.Pattern
