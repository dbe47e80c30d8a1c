import RubyLint.Proofs.Edit.Order
import RubyLint.Run.Merge

/-!
# What a pass takes

* `Offense.CannotMend`      the offense brings no edit that could be made;
* `isEmpty_ofOffenses_iff`  a merge is empty exactly when this is so for every offense;
* `taken_pos`               a merge with edits has taken a correction;
* `ordered_ofOffenses`, `exists_offense_of_mem`  its edits are in order, and each is that of an
                            offense.
-/

namespace RubyLint

/-- no correction, one without edits, or one whose edits conflict with each other -/
def Offense.CannotMend (o : Offense) : Prop :=
  o.correction = none ∨
    ∃ c, o.correction = some c ∧ (c.edits = [] ∨ ¬ Edit.Compatible c.edits)

namespace Merge

theorem add_none {m : Merge} {o : Offense} (h : o.correction = none) : m.add o = m := by
  simp only [add, h]

theorem add_ok {m : Merge} {o : Offense} {c : Correction} {s : EditSet}
    (h : o.correction = some c) (hs : m.edits.addAll c.edits = .ok s) :
    m.add o = ⟨s, addOnce m.rules o.rule, m.taken + 1⟩ := by
  simp only [add, h, hs]

theorem add_error {m : Merge} {o : Offense} {c : Correction} {e : EditError}
    (h : o.correction = some c) (hs : m.edits.addAll c.edits = .error e) : m.add o = m := by
  simp only [add, h, hs]

/-- what an offense does to a merge: nothing, or its correction is taken as a whole -/
theorem add_cases (m : Merge) (o : Offense) :
    m.add o = m ∨ ∃ c s, o.correction = some c ∧ m.edits.addAll c.edits = .ok s ∧
      m.add o = ⟨s, addOnce m.rules o.rule, m.taken + 1⟩ := by
  cases h : o.correction with
  | none => exact Or.inl (add_none h)
  | some c =>
    cases hs : m.edits.addAll c.edits with
    | error e => exact Or.inl (add_error h hs)
    | ok s => exact Or.inr ⟨c, s, rfl, hs, add_ok h hs⟩

theorem isEmpty_iff (m : Merge) : m.edits.isEmpty = true ↔ m.edits.edits = [] := by
  simp [EditSet.isEmpty]

/-- nothing gets into an empty merge exactly when the offense cannot be mended -/
theorem isEmpty_add_iff (m : Merge) (o : Offense) :
    (m.add o).edits.isEmpty = true ↔ m.edits.isEmpty = true ∧ o.CannotMend := by
  cases h : o.correction with
  | none =>
    rw [add_none h]
    exact ⟨fun he => ⟨he, Or.inl h⟩, fun he => he.1⟩
  | some c =>
    have hmend : o.CannotMend ↔ c.edits = [] ∨ ¬ Edit.Compatible c.edits := by
      simp [Offense.CannotMend, h]
    rw [hmend, isEmpty_iff, isEmpty_iff]
    cases hs : m.edits.addAll c.edits with
    | error e =>
      rw [add_error h hs]
      refine ⟨fun he => ⟨he, Or.inr fun hc => ?_⟩, fun he => he.1⟩
      -- into an empty set, compatible edits always go
      obtain ⟨s, hok⟩ := (EditSet.addAll_isOk_iff m.edits c.edits).2 ⟨hc, by simp [he]⟩
      rw [hok] at hs
      cases hs
    | ok s =>
      rw [add_ok h hs]
      have hc : Edit.Compatible c.edits := ((EditSet.addAll_isOk_iff _ _).1 ⟨s, hs⟩).1
      have hmem := EditSet.mem_addAll hs
      simp only [List.eq_nil_iff_forall_not_mem, hmem]
      constructor
      · exact fun he => ⟨fun f hf => he f (Or.inl hf), Or.inl fun f hf => he f (Or.inr hf)⟩
      · rintro ⟨hm, hedits | hconflict⟩ f (hf | hf)
        · exact hm f hf
        · exact hedits f hf
        · exact hm f hf
        · exact hconflict hc

theorem isEmpty_foldl_iff (os : List Offense) (m : Merge) :
    (os.foldl add m).edits.isEmpty = true ↔
      m.edits.isEmpty = true ∧ ∀ o ∈ os, o.CannotMend := by
  induction os generalizing m with
  | nil => simp
  | cons o os ih =>
    rw [List.foldl_cons, ih, isEmpty_add_iff, List.forall_mem_cons, and_assoc]

theorem isEmpty_ofOffenses_iff (os : List Offense) :
    (ofOffenses os).edits.isEmpty = true ↔ ∀ o ∈ os, o.CannotMend := by
  rw [ofOffenses, isEmpty_foldl_iff]
  simp [empty, EditSet.empty, EditSet.isEmpty]

theorem taken_pos_add {m : Merge} (o : Offense)
    (h : m.edits.isEmpty = false → 0 < m.taken) (he : (m.add o).edits.isEmpty = false) :
    0 < (m.add o).taken := by
  rcases add_cases m o with hm | ⟨c, s, -, -, hm⟩
  · rw [hm] at he ⊢
    exact h he
  · rw [hm]
    exact Nat.succ_pos _

theorem taken_pos_foldl (os : List Offense) (m : Merge)
    (h : m.edits.isEmpty = false → 0 < m.taken)
    (he : (os.foldl add m).edits.isEmpty = false) : 0 < (os.foldl add m).taken := by
  induction os generalizing m with
  | nil => exact h he
  | cons o os ih => exact ih (m.add o) (taken_pos_add o h) he

/-- a merge with edits has taken a correction -/
theorem taken_pos {os : List Offense} (he : (ofOffenses os).edits.isEmpty = false) :
    0 < (ofOffenses os).taken :=
  taken_pos_foldl os empty (by simp [empty, EditSet.empty, EditSet.isEmpty]) he

theorem ordered_add {m : Merge} (o : Offense) (h : m.edits.Ordered) :
    (m.add o).edits.Ordered := by
  rcases add_cases m o with hm | ⟨c, s, -, hs, hm⟩
  · rw [hm]
    exact h
  · rw [hm]
    exact h.addAll hs

theorem ordered_foldl (os : List Offense) (m : Merge) (h : m.edits.Ordered) :
    (os.foldl add m).edits.Ordered := by
  induction os generalizing m with
  | nil => exact h
  | cons o os ih => exact ih (m.add o) (ordered_add o h)

theorem ordered_ofOffenses (os : List Offense) : (ofOffenses os).edits.Ordered :=
  ordered_foldl os empty EditSet.ordered_empty

theorem exists_offense_of_mem_foldl {os : List Offense} {m : Merge} {e : Edit}
    (he : e ∈ (os.foldl add m).edits.edits) :
    e ∈ m.edits.edits ∨ ∃ o ∈ os, ∃ c, o.correction = some c ∧ e ∈ c.edits := by
  induction os generalizing m with
  | nil => exact Or.inl he
  | cons o os ih =>
    rcases ih he with he | ⟨o', ho', hc⟩
    · rcases add_cases m o with hm | ⟨c, s, hc, hs, hm⟩
      · rw [hm] at he
        exact Or.inl he
      · rw [hm] at he
        rcases (EditSet.mem_addAll hs e).1 he with he | he
        · exact Or.inl he
        · exact Or.inr ⟨o, List.mem_cons_self, c, hc, he⟩
    · exact Or.inr ⟨o', List.mem_cons_of_mem o ho', hc⟩

/-- every edit of a merge is part of the correction of an offense -/
theorem exists_offense_of_mem {os : List Offense} {e : Edit}
    (he : e ∈ (ofOffenses os).edits.edits) :
    ∃ o ∈ os, ∃ c, o.correction = some c ∧ e ∈ c.edits := by
  rcases exists_offense_of_mem_foldl he with he | h
  · exact absurd he List.not_mem_nil
  · exact h

end Merge

end RubyLint
