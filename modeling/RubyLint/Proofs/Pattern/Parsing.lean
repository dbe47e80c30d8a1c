import RubyLint.Proofs.Pattern.Completeness
import RubyLint.Proofs.Pattern.Numbering

/-!
# Compiling is parsing

A text compiles if its tokens are those of an admissible phrase, and then the pattern has the
condition of that phrase, which is the only one that the tokens spell.  Its captures have the slots
below their number, and the branches of a union have the same ones, without a gap.

* `Condition.WellFormed.exists_block`   the slots of the branches of a union, wherever it stands;
* `exists_compile_iff`                  which texts compile, and to what.
-/

namespace RubyLint.Pattern

namespace Condition

/-- The conditions that stand directly in a condition. -/
def direct : Condition → List Condition
  | .capture _ inner => [inner]
  | .exactly head elements => head :: elements
  | .around head front middle _ _ back => head :: (front ++ middle :: back)
  | .union branches => branches
  | .intersection terms => terms
  | .negation inner => [inner]
  | .parent inner => [inner]
  | .descendant inner => [inner]
  | _ => []

/-- `q.Within p`: the condition `q` is `p` or stands in it. -/
inductive Within (q : Condition) : Condition → Prop
  | self : Within q q
  | inside {r p : Condition} (hr : r ∈ p.direct) (h : Within q r) : Within q p

variable {env : Environment} {p r : Condition} {ps : List Condition} {lo hi : Nat}

theorem WellFormedEach.exists_of_mem (h : WellFormedEach env ps lo hi) :
    ∀ r ∈ ps, ∃ lo hi, r.WellFormed env lo hi :=
  h.forall fun _ _ _ _ hr => ⟨_, _, hr⟩

theorem WellFormed.exists_of_mem_direct (h : p.WellFormed env lo hi) (hr : r ∈ p.direct) :
    ∃ lo hi, r.WellFormed env lo hi := by
  cases p with
  | capture slot inner =>
    obtain rfl := List.mem_singleton.1 hr
    exact ⟨_, _, h.2⟩
  | exactly head elements =>
    obtain ⟨a, hh, he⟩ := h
    rcases List.mem_cons.1 hr with rfl | hr
    · exact ⟨_, _, hh⟩
    · exact he.exists_of_mem r hr
  | around head front middle arity slot back =>
    obtain ⟨a, b, c, d, hh, hf, -, hm, hb⟩ := h
    rcases List.mem_cons.1 hr with rfl | hr
    · exact ⟨_, _, hh⟩
    rcases List.mem_append.1 hr with hr | hr
    · exact hf.exists_of_mem r hr
    rcases List.mem_cons.1 hr with rfl | hr
    · exact ⟨_, _, hm⟩
    · exact hb.exists_of_mem r hr
  | union branches => exact ⟨_, _, wellFormedAlike_iff.1 h.2 r hr⟩
  | intersection terms => exact WellFormedEach.exists_of_mem h r hr
  | negation inner =>
    obtain rfl := List.mem_singleton.1 hr
    exact ⟨_, _, h.2⟩
  | parent inner =>
    obtain rfl := List.mem_singleton.1 hr
    exact ⟨_, _, h⟩
  | descendant inner =>
    obtain rfl := List.mem_singleton.1 hr
    exact ⟨_, _, h⟩
  | _ => exact absurd hr List.not_mem_nil

/-- The branches of a union have the same slots, and these have no gap. -/
theorem WellFormed.exists_block {branches : List Condition} (h : p.WellFormed env lo hi)
    (hw : Within (.union branches) p) :
    ∃ a b, ∀ r ∈ branches, ∀ k, k ∈ r.slots ↔ a ≤ k ∧ k < b := by
  induction hw generalizing lo hi with
  | self => exact ⟨lo, hi, fun r hr k => (wellFormedAlike_iff.1 h.2 r hr).mem_slots_iff⟩
  | inside hr _ ih =>
    obtain ⟨lo', hi', h'⟩ := h.exists_of_mem_direct hr
    exact ih h'

end Condition

section
variable {source : String} {tokens : List Placed}

/-- A text compiles if its tokens are those of an admissible phrase, and only then.  The pattern has
the condition of that phrase, which is the only one that the tokens spell; its captures have the
slots below their number, the branches of each union the same ones without a gap. -/
theorem exists_compile_iff (env : Environment) (hs : Token.scan source.toList = .ok tokens) :
    ((∃ p, compile source env = .ok p) ↔ ∃ d : Phrase, Spells d tokens [] ∧ d.Admissible env) ∧
    ∀ p, compile source env = .ok p →
      (∃ d : Phrase, Spells d tokens [] ∧ (∀ d', Spells d' tokens [] → d' = d) ∧
        p.condition = d.toCondition env false 0 ∧ p.captureCount = d.captures) ∧
      (∀ k ∈ p.condition.slots, k < p.captureCount) ∧
      ∀ branches, Condition.Within (.union branches) p.condition →
        ∃ a b, ∀ r ∈ branches, ∀ k, k ∈ r.slots ↔ a ≤ k ∧ k < b := by
  refine ⟨⟨?_, ?_⟩, fun p hp => ?_⟩
  · rintro ⟨p, hp⟩
    obtain ⟨d, hd, hadm, -⟩ := exists_spells_of_compile hs hp
    exact ⟨d, hd, hadm⟩
  · rintro ⟨d, hd, hadm⟩
    exact exists_compile_of_spells hs hd hadm
  · obtain ⟨d, hd, -, hcondition, hcaptures⟩ := exists_spells_of_compile hs hp
    have hwell := (wellFormed_of_compile hp).2
    exact ⟨⟨d, hd, fun d' hd' => (spells_unique hd' hd).1, hcondition, hcaptures⟩,
      fun k hk => (hwell.mem_slots_iff.1 hk).2, fun branches hw => hwell.exists_block hw⟩

/-- The characters of a text decide whether it has tokens. -/
theorem exists_scan {cs : List Char} (h : (Token.scan cs).isOk = true) :
    ∃ tokens, Token.scan (String.ofList cs).toList = .ok tokens := by
  rw [String.toList_ofList]
  cases hs : Token.scan cs with
  | ok tokens => exact ⟨tokens, rfl⟩
  | error e => rw [hs] at h; cases h

theorem sharedSlot_derivation : ∃ tokens p d,
    Token.scan "{(send $_ :puts) [str (_ $...)]}".toList = .ok tokens ∧
    compile "{(send $_ :puts) [str (_ $...)]}" .empty = .ok p ∧
    Spells d tokens [] ∧ d.Admissible .empty ∧ p.condition = d.toCondition .empty false 0 ∧
    p.captureCount = 1 := by
  obtain ⟨tokens, hs⟩ : ∃ tokens,
      Token.scan "{(send $_ :puts) [str (_ $...)]}".toList = .ok tokens :=
    exists_scan (by decide +kernel)
  obtain ⟨p, hp, hcount⟩ : ∃ p, compile "{(send $_ :puts) [str (_ $...)]}" .empty = .ok p ∧
      decide (p.captureCount = 1) = true :=
    exists_compile (fun p => decide (p.captureCount = 1)) (by decide +kernel)
  obtain ⟨hiff, hall⟩ := exists_compile_iff .empty hs
  obtain ⟨d, hd, hadm⟩ := hiff.1 ⟨p, hp⟩
  obtain ⟨⟨d', _, honly, hcondition, -⟩, -⟩ := hall p hp
  obtain rfl := honly d hd
  exact ⟨tokens, p, d, hs, hp, hd, hadm, hcondition, of_decide_eq_true hcount⟩

end

end RubyLint.Pattern
