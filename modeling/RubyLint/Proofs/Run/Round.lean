import RubyLint.Proofs.Run.Merge
import RubyLint.Run.Correction

/-!
# One round of a correcting run

* `Runner.offensesOf?`      the offenses of a text, whenever it is looked at;
* `Runner.Turn`             how a round can end or go on, and on what condition;
* `round_turn`              every round is one of these;
* `Runner.Trail`            the texts from the first one to the current one, pass by pass;
* `Runner.Consistent`       what holds between two rounds: `Consistent.start` at the beginning,
                            `Consistent.pass` after one more round;
* `exists_endsAfter`        the number of rounds.
-/

namespace RubyLint

namespace Runner

/-! ## inspecting -/

theorem preorder_ne_nil (t : SyntaxTree) : t.preorder ≠ [] := by
  rw [SyntaxTree.preorder, Node.descendants, Node.walk]
  simp

/-- an inspection comes to its end only in a run that has not been abandoned before -/
theorem not_cancelled_of_inspect {r : Runner} {t : SyntaxTree} {c : Bool} {os : List Offense}
    (h : (r.inspect t c).offenses? = some os) : c = false := by
  cases c with
  | false => rfl
  | true =>
    unfold inspect at h
    cases hp : t.preorder with
    | nil => exact absurd hp (preorder_ne_nil t)
    | cons n rest =>
      rw [hp] at h
      cases h

section
variable (r : Runner) (parse : Parser)

/-- the offenses of a text, unless it does not parse or a rule abandons the inspection -/
def offensesOf? (text : String) : Option (List Offense) :=
  match parse text with
  | .ok tree => (r.inspect tree false).offenses?
  | .error _ => none

theorem offensesOf?_of_inspect {text : String} {tree : SyntaxTree} {c : Bool} {os : List Offense}
    (hparse : parse text = .ok tree) (h : (r.inspect tree c).offenses? = some os) :
    r.offensesOf? parse text = some os := by
  obtain rfl := not_cancelled_of_inspect h
  rw [offensesOf?, hparse]
  exact h

theorem inspect_of_offensesOf? {text : String} {os : List Offense}
    (h : r.offensesOf? parse text = some os) :
    ∃ tree, parse text = .ok tree ∧ (r.inspect tree false).offenses? = some os := by
  unfold offensesOf? at h
  split at h
  · next tree hparse => exact ⟨tree, hparse, h⟩
  · cases h

/-! ## turns -/

/-- how a round can end or go on -/
inductive Turn (p : Progress) : Round → Prop
  | nothingLeft (hm : (Merge.ofOffenses p.pending).edits.isEmpty = true) :
      Turn p (.ended p.done)
  | usedUp (hm : (Merge.ofOffenses p.pending).edits.isEmpty = false)
      (hmax : r.config.maxIterations ≤ p.passes) :
      Turn p (.ended (p.warn (.passesUsedUp r.config.maxIterations)).done)
  | failed (run : Run) (e : RunError) (he : run.result = .error e) : Turn p (.ended run)
  | cycle (text : String) (tree : SyntaxTree)
      (hm : (Merge.ofOffenses p.pending).edits.isEmpty = false)
      (hmax : p.passes < r.config.maxIterations)
      (happly : (Merge.ofOffenses p.pending).edits.apply p.current = .ok text)
      (hparse : parse text = .ok tree) (hseen : r.fingerprint text ∈ p.seen) :
      Turn p (.ended ((p.advance text (r.fingerprint text)
        (Merge.ofOffenses p.pending).taken).warn (.cycle (p.passes + 1))).done)
  | pass (text : String) (tree : SyntaxTree) (pending : List Offense)
      (hm : (Merge.ofOffenses p.pending).edits.isEmpty = false)
      (hmax : p.passes < r.config.maxIterations)
      (happly : (Merge.ofOffenses p.pending).edits.apply p.current = .ok text)
      (hparse : parse text = .ok tree) (hseen : r.fingerprint text ∉ p.seen)
      (hinspect : (r.inspect tree p.cancelled).offenses? = some pending) :
      Turn p (.goesOn { p.advance text (r.fingerprint text) (Merge.ofOffenses p.pending).taken with
        pending, cancelled := (r.inspect tree p.cancelled).cancelled })

theorem round_turn (p : Progress) : r.Turn parse p (r.round parse p) := by
  unfold round
  cases hm : (Merge.ofOffenses p.pending).edits.isEmpty with
  | true =>
    simp only [if_true, hm]
    exact .nothingLeft hm
  | false =>
    simp only [hm, Bool.false_eq_true, if_false]
    split
    · next hmax => exact .usedUp hm hmax
    next hmax =>
    replace hmax : p.passes < r.config.maxIterations := Nat.lt_of_not_le hmax
    split
    · next e _ => exact .failed _ (.edit e) rfl
    next text happly =>
    split
    · next e _ => exact .failed _ (.reparse _ e) rfl
    next tree hparse =>
    split
    · next hseen => exact .cycle text tree hm hmax happly hparse (List.contains_iff_mem.1 hseen)
    next hseen =>
    replace hseen : r.fingerprint text ∉ p.seen := fun h => hseen (List.contains_iff_mem.2 h)
    split
    · exact .failed _ .cancelled rfl
    · next pending hinspect => exact .pass text tree pending hm hmax happly hparse hseen hinspect

theorem Turn.exists_pass {p q : Progress} (h : r.Turn parse p (.goesOn q)) :
    ∃ text tree pending, (Merge.ofOffenses p.pending).edits.isEmpty = false ∧
      p.passes < r.config.maxIterations ∧
      (Merge.ofOffenses p.pending).edits.apply p.current = .ok text ∧
      parse text = .ok tree ∧ r.fingerprint text ∉ p.seen ∧
      (r.inspect tree p.cancelled).offenses? = some pending ∧
      q = { p.advance text (r.fingerprint text) (Merge.ofOffenses p.pending).taken with
        pending, cancelled := (r.inspect tree p.cancelled).cancelled } := by
  generalize hnext : Round.goesOn q = next at h
  cases h with
  | nothingLeft | usedUp | failed | cycle => cases hnext
  | pass text tree pending hm hmax happly hparse hseen hinspect =>
    exact ⟨text, tree, pending, hm, hmax, happly, hparse, hseen, hinspect,
      Round.goesOn.inj hnext⟩

theorem turn_of_round {p : Progress} {next : Round} (h : r.round parse p = next) :
    r.Turn parse p next :=
  h ▸ r.round_turn parse p

theorem round_of_isEmpty {p : Progress}
    (hm : (Merge.ofOffenses p.pending).edits.isEmpty = true) :
    r.round parse p = .ended p.done := by
  simp only [round, hm, if_true]

theorem round_of_usedUp {p : Progress}
    (hm : (Merge.ofOffenses p.pending).edits.isEmpty = false)
    (hmax : r.config.maxIterations ≤ p.passes) :
    r.round parse p = .ended (p.warn (.passesUsedUp r.config.maxIterations)).done := by
  simp only [round, hm, Bool.false_eq_true, if_false, if_pos hmax]

theorem round_of_pass {p : Progress} {text : String} {tree : SyntaxTree} {pending : List Offense}
    (hm : (Merge.ofOffenses p.pending).edits.isEmpty = false)
    (hmax : p.passes < r.config.maxIterations)
    (happly : (Merge.ofOffenses p.pending).edits.apply p.current = .ok text)
    (hparse : parse text = .ok tree) (hseen : r.fingerprint text ∉ p.seen)
    (hinspect : (r.inspect tree p.cancelled).offenses? = some pending) :
    r.round parse p =
      .goesOn { p.advance text (r.fingerprint text) (Merge.ofOffenses p.pending).taken with
        pending, cancelled := (r.inspect tree p.cancelled).cancelled } := by
  have hnew : ¬ p.seen.contains (r.fingerprint text) = true := fun h =>
    hseen (List.contains_iff_mem.1 h)
  simp only [round, hm, Bool.false_eq_true, if_false, if_neg (Nat.not_le_of_lt hmax), happly,
    hparse, if_neg hnew, hinspect]

/-! ## what a run does with a round -/

theorem correctFrom_of_ended {p : Progress} {run : Run} (h : r.round parse p = .ended run) :
    r.correctFrom parse p = run := by
  rw [correctFrom]
  split
  · next run' hrun =>
    rw [h, Round.ended.injEq] at hrun
    exact hrun.symm
  · next q hq =>
    rw [h] at hq
    cases hq

theorem correctFrom_of_goesOn {p q : Progress} (h : r.round parse p = .goesOn q) :
    r.correctFrom parse p = r.correctFrom parse q := by
  rw [correctFrom]
  split
  · next run hrun =>
    rw [h] at hrun
    cases hrun
  · next q' hq =>
    rw [h, Round.goesOn.injEq] at hq
    rw [hq]

/-! ## the number of rounds -/

/-- the run ends that way after so many rounds -/
inductive EndsAfter : Nat → Progress → Run → Prop
  | last {p : Progress} {run : Run} (h : r.round parse p = .ended run) : EndsAfter 1 p run
  | more {n : Nat} {p q : Progress} {run : Run} (h : r.round parse p = .goesOn q)
      (hn : EndsAfter n q run) : EndsAfter (n + 1) p run

/-- each round but the last uses up a pass -/
theorem exists_endsAfter (p : Progress) :
    ∃ n, n ≤ r.config.maxIterations - p.passes + 1 ∧
      r.EndsAfter parse n p (r.correctFrom parse p) := by
  fun_induction r.correctFrom parse p with
  | case1 p run h => exact ⟨1, by omega, .last h⟩
  | case2 p q h ih =>
    obtain ⟨n, hn, hends⟩ := ih
    have := passes_of_round h
    exact ⟨n + 1, by omega, .more h hends⟩

/-! ## what holds between two rounds -/

def Corrects (text next : String) : Prop :=
  ∃ os, r.offensesOf? parse text = some os ∧
    (Merge.ofOffenses os).edits.isEmpty = false ∧
    (Merge.ofOffenses os).edits.apply text = .ok next ∧ ∃ tree, parse next = .ok tree

/-- the texts before the current one, each corrected into the next -/
inductive Trail (source : String) : List String → String → Prop
  | start : Trail source [] source
  | pass {earlier : List String} {text next : String} (h : Trail source earlier text)
      (hc : r.Corrects parse text next) : Trail source (earlier ++ [text]) next

theorem Trail.eq_of_nil {source text : String} (h : r.Trail parse source [] text) :
    text = source := by
  generalize he : ([] : List String) = earlier at h
  cases h with
  | start => rfl
  | pass h hc => simp at he

/-- the current text is the source or has been made by a pass, so it parses -/
theorem Trail.parses {source text : String} {earlier : List String}
    (hsource : ∃ tree, parse source = .ok tree) (h : r.Trail parse source earlier text) :
    ∃ tree, parse text = .ok tree := by
  cases h with
  | start => exact hsource
  | pass h hc =>
    obtain ⟨os, -, -, -, hparse⟩ := hc
    exact hparse

/-- what a run that was given `source` has counted and kept, after any number of passes -/
structure Traced (source : String) (earlier : List String) (p : Progress) : Prop where
  offenses_eq : r.offensesOf? parse source = some p.offenses
  trail : r.Trail parse source earlier p.current
  texts_eq : p.texts = earlier ++ [p.current]
  passes_eq : p.passes = earlier.length
  passes_le : p.passes ≤ r.config.maxIterations
  passes_le_applied : p.passes ≤ p.applied

/-- what holds between two rounds -/
structure Consistent (source : String) (earlier : List String) (p : Progress) : Prop
    extends r.Traced parse source earlier p where
  pending_eq : r.offensesOf? parse p.current = some p.pending
  seen_eq : p.seen = p.texts.map r.fingerprint
  nodup_seen : p.seen.Nodup
  warnings_eq : p.warnings = []

variable {r parse} {source : String} {earlier : List String} {p : Progress}

theorem Consistent.start {os : List Offense} (c : Bool)
    (h : r.offensesOf? parse source = some os) :
    r.Consistent parse source [] (r.start source os c) where
  offenses_eq := h
  trail := .start
  texts_eq := rfl
  passes_eq := rfl
  passes_le := Nat.zero_le _
  passes_le_applied := Nat.le_refl _
  pending_eq := h
  seen_eq := rfl
  nodup_seen := List.pairwise_singleton _ _
  warnings_eq := rfl

theorem Traced.current_of_no_pass (h : r.Traced parse source earlier p) (h0 : p.passes = 0) :
    p.current = source := by
  have hearlier : earlier = [] := by
    rw [← List.length_eq_zero_iff, ← h.passes_eq, h0]
  exact Trail.eq_of_nil r parse (hearlier ▸ h.trail)

theorem Traced.parses (h : r.Traced parse source earlier p) :
    ∃ tree, parse p.current = .ok tree := by
  obtain ⟨tree, hparse, -⟩ := r.inspect_of_offensesOf? parse h.offenses_eq
  exact h.trail.parses r parse ⟨tree, hparse⟩

theorem Consistent.fingerprint_mem (h : r.Consistent parse source earlier p) :
    r.fingerprint p.current ∈ p.seen := by
  rw [h.seen_eq, h.texts_eq]
  exact List.mem_map_of_mem (List.mem_append_right _ (List.mem_singleton.2 rfl))

theorem Consistent.fingerprint_notMem (h : r.Consistent parse source earlier p) :
    r.fingerprint p.current ∉ earlier.map r.fingerprint := by
  have hnodup := h.nodup_seen
  rw [h.seen_eq, h.texts_eq, List.map_append, List.nodup_append] at hnodup
  intro hmem
  exact hnodup.2.2 _ hmem _ (by simp) rfl

theorem Consistent.advance (h : r.Consistent parse source earlier p) {text : String}
    {tree : SyntaxTree} (hm : (Merge.ofOffenses p.pending).edits.isEmpty = false)
    (hmax : p.passes < r.config.maxIterations)
    (happly : (Merge.ofOffenses p.pending).edits.apply p.current = .ok text)
    (hparse : parse text = .ok tree) :
    r.Traced parse source (earlier ++ [p.current])
      (p.advance text (r.fingerprint text) (Merge.ofOffenses p.pending).taken) where
  offenses_eq := h.offenses_eq
  trail := .pass h.trail ⟨p.pending, h.pending_eq, hm, happly, tree, hparse⟩
  texts_eq := by
    show p.texts ++ [text] = earlier ++ [p.current] ++ [text]
    rw [h.texts_eq]
  passes_eq := by
    show p.passes + 1 = (earlier ++ [p.current]).length
    rw [h.passes_eq, List.length_append, List.length_singleton]
  passes_le := hmax
  passes_le_applied := by
    have htaken := Merge.taken_pos hm
    have hle := h.passes_le_applied
    show p.passes + 1 ≤ p.applied + (Merge.ofOffenses p.pending).taken
    omega

theorem Consistent.pass {q : Progress} (h : r.Consistent parse source earlier p)
    (hq : r.Turn parse p (.goesOn q)) :
    r.Consistent parse source (earlier ++ [p.current]) q := by
  obtain ⟨text, tree, pending, hm, hmax, happly, hparse, hseen, hinspect, rfl⟩ :=
    hq.exists_pass r parse
  have htraced := h.advance hm hmax happly hparse
  exact {
    offenses_eq := htraced.offenses_eq
    trail := htraced.trail
    texts_eq := htraced.texts_eq
    passes_eq := htraced.passes_eq
    passes_le := htraced.passes_le
    passes_le_applied := htraced.passes_le_applied
    pending_eq := r.offensesOf?_of_inspect parse hparse hinspect
    seen_eq := by
      show p.seen ++ [r.fingerprint text] = (p.texts ++ [text]).map r.fingerprint
      rw [h.seen_eq, List.map_append, List.map_singleton]
    nodup_seen := by
      show (p.seen ++ [r.fingerprint text]).Nodup
      rw [List.nodup_append]
      refine ⟨h.nodup_seen, List.pairwise_singleton _ _, ?_⟩
      rintro a ha b hb rfl
      rw [List.mem_singleton] at hb
      exact hseen (hb ▸ ha)
    warnings_eq := h.warnings_eq }

end

end Runner

end RubyLint
