import RubyLint.Edit.Set

/-!
# What is in a set of edits

`Edit.Compatible` says that the edits of a list can all be made together.

* `mem_addAll`          the set holds what it held before and what was added, nothing else;
* `addAll_isOk_iff`     adding fails only where two edits conflict.
-/

namespace RubyLint

/-- no two of the edits conflict -/
def Edit.Compatible (es : List Edit) : Prop := es.Pairwise fun e f => e.conflicts f = false

namespace EditSet

theorem mem_insertSorted (e f : Edit) (es : List Edit) :
    f ∈ insertSorted e es ↔ f = e ∨ f ∈ es := by
  have hsplit : f ∈ es ↔ f ∈ es.takeWhile (fun g => g.span.notAfter e.span) ∨
      f ∈ es.dropWhile (fun g => g.span.notAfter e.span) := by
    rw [← List.mem_append, List.takeWhile_append_dropWhile]
  rw [hsplit]
  simp only [insertSorted, List.mem_append, List.mem_cons]
  constructor
  · rintro (h | h | h)
    · exact Or.inr (Or.inl h)
    · exact Or.inl h
    · exact Or.inr (Or.inr h)
  · rintro (h | h | h)
    · exact Or.inr (Or.inl h)
    · exact Or.inl h
    · exact Or.inr (Or.inr h)

theorem add_eq_ok_iff (s s' : EditSet) (e : Edit) :
    s.add e = .ok s' ↔
      (∀ f ∈ s.edits, f.conflicts e = false) ∧ s' = ⟨insertSorted e s.edits⟩ := by
  unfold add
  cases h : s.edits.find? fun f => f.conflicts e with
  | none =>
    have hnone : ∀ f ∈ s.edits, f.conflicts e = false := fun f hf => by
      simpa using List.find?_eq_none.1 h f hf
    constructor
    · intro hs
      cases hs
      exact ⟨hnone, rfl⟩
    · rintro ⟨-, rfl⟩
      rfl
  | some f =>
    have hf : f.conflicts e = true := List.find?_some (p := fun f : Edit => f.conflicts e) h
    constructor
    · intro hs
      cases hs
    · rintro ⟨hnone, -⟩
      rw [hnone f (List.mem_of_find?_eq_some h)] at hf
      cases hf

theorem addAll_cons_ok {s s' : EditSet} {e : Edit} {es : List Edit}
    (h : s.addAll (e :: es) = .ok s') : ∃ s₁, s.add e = .ok s₁ ∧ s₁.addAll es = .ok s' := by
  unfold addAll at h
  split at h
  · next s₁ hs => exact ⟨s₁, hs, h⟩
  · cases h

theorem mem_addAll {s s' : EditSet} {es : List Edit} (h : s.addAll es = .ok s') (f : Edit) :
    f ∈ s'.edits ↔ f ∈ s.edits ∨ f ∈ es := by
  induction es generalizing s with
  | nil =>
    cases h
    simp
  | cons e es ih =>
    obtain ⟨s₁, h₁, h₂⟩ := addAll_cons_ok h
    obtain ⟨-, rfl⟩ := (add_eq_ok_iff s s₁ e).1 h₁
    rw [ih h₂, mem_insertSorted, List.mem_cons]
    constructor
    · rintro ((h | h) | h)
      · exact Or.inr (Or.inl h)
      · exact Or.inl h
      · exact Or.inr (Or.inr h)
    · rintro (h | h | h)
      · exact Or.inl (Or.inr h)
      · exact Or.inl (Or.inl h)
      · exact Or.inr h

/-- edits are added exactly when they conflict neither with each other nor with what is there -/
theorem addAll_isOk_iff (s : EditSet) (es : List Edit) :
    (∃ s', s.addAll es = .ok s') ↔
      Edit.Compatible es ∧ ∀ e ∈ es, ∀ f ∈ s.edits, f.conflicts e = false := by
  induction es generalizing s with
  | nil => exact ⟨fun _ => ⟨List.Pairwise.nil, by simp⟩, fun _ => ⟨s, rfl⟩⟩
  | cons e es ih =>
    constructor
    · rintro ⟨s', h⟩
      obtain ⟨s₁, h₁, h₂⟩ := addAll_cons_ok h
      obtain ⟨hold, rfl⟩ := (add_eq_ok_iff s s₁ e).1 h₁
      obtain ⟨hes, hall⟩ := (ih _).1 ⟨s', h₂⟩
      refine ⟨List.pairwise_cons.2 ⟨fun f hf => ?_, hes⟩, fun f hf g hg => ?_⟩
      · exact hall f hf e ((mem_insertSorted e e _).2 (Or.inl rfl))
      · rcases List.mem_cons.1 hf with rfl | hf
        · exact hold g hg
        · exact hall f hf g ((mem_insertSorted e g _).2 (Or.inr hg))
    · rintro ⟨hes, hall⟩
      obtain ⟨hfirst, hrest⟩ := List.pairwise_cons.1 hes
      have hadd : s.add e = .ok ⟨insertSorted e s.edits⟩ :=
        (add_eq_ok_iff s _ e).2 ⟨hall e List.mem_cons_self, rfl⟩
      have hnext : ∀ f ∈ es, ∀ g ∈ insertSorted e s.edits, g.conflicts f = false := by
        intro f hf g hg
        rcases (mem_insertSorted e g _).1 hg with rfl | hg
        · exact hfirst f hf
        · exact hall f (List.mem_cons_of_mem _ hf) g hg
      obtain ⟨s', hs'⟩ := (ih ⟨insertSorted e s.edits⟩).2 ⟨hrest, hnext⟩
      exact ⟨s', by rw [addAll, hadd]; exact hs'⟩

end EditSet

end RubyLint
