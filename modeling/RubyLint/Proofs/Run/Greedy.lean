import Mathlib.Data.List.Induction
import RubyLint.Proofs.Edit.AnyOrder
import RubyLint.Proofs.Run.Merge

/-!
# First come, first served

What a pass takes is a greedy selection: the correction of an offense is taken exactly if its edits
conflict neither with each other nor with those of an offense in front of it that has been taken.
Corrections are taken as a whole or not at all.

* `Takes`, `accepted`      what has been taken, offense by offense;
* `IsGreedy`               the greedy choice, said of any choice of offenses;
* `takes_append`           what comes later changes nothing of what has been taken;
* `isGreedy_takes`, `IsGreedy.unique`  the pass makes that choice, and it is the only one;
* `accepted_concat_of_free`, `accepted_append_of_blocked`   one more is taken if it is in nobody's way,
                           and none if each is in the way of one that has been taken;
* `perm_edits`, `taken_eq`, `rules_eq`  the edits, the count and the rules are those of the
                           offenses that have been taken.
-/

namespace RubyLint

open Edit (Compatible)

/-- the edits that an offense asks for -/
def Offense.edits (o : Offense) : List Edit := (o.correction.map Correction.edits).getD []

theorem Offense.edits_eq {o : Offense} {c : Correction} (h : o.correction = some c) :
    o.edits = c.edits := by
  rw [edits, h]
  rfl

namespace Merge

/-- the correction of the offense at a place is taken when it comes to it -/
def Takes (os : List Offense) (i : Nat) : Prop :=
  (ofOffenses (os.take i)).taken < (ofOffenses (os.take (i + 1))).taken

instance (os : List Offense) (i : Nat) : Decidable (Takes os i) :=
  inferInstanceAs (Decidable (_ < _))

/-- the offenses whose corrections are taken, in their order -/
def accepted (os : List Offense) : List Offense :=
  (os.zipIdx.filter fun x => decide (Takes os x.2)).map Prod.fst

/-- The choice is made first come, first served: of the offenses, those are picked whose edits
conflict neither with each other nor with those of one in front that has been picked. -/
def IsGreedy (os : List Offense) (picked : Nat → Prop) : Prop :=
  ∀ i, picked i ↔ ∃ o c, os[i]? = some o ∧ o.correction = some c ∧ Compatible c.edits ∧
    ∀ j < i, picked j → ∀ o', os[j]? = some o' →
      ∀ e ∈ c.edits, ∀ f ∈ o'.edits, f.conflicts e = false

/-! ## one offense more -/

section
variable {os : List Offense} {i : Nat}

theorem ofOffenses_concat (os : List Offense) (o : Offense) :
    ofOffenses (os ++ [o]) = (ofOffenses os).add o := by
  rw [ofOffenses, List.foldl_append]
  rfl

theorem ofOffenses_take_succ {o : Offense} (h : os[i]? = some o) :
    ofOffenses (os.take (i + 1)) = (ofOffenses (os.take i)).add o := by
  rw [List.take_add_one, h]
  exact ofOffenses_concat _ o

theorem takes_iff : Takes os i ↔ ∃ o c s, os[i]? = some o ∧ o.correction = some c ∧
    (ofOffenses (os.take i)).edits.addAll c.edits = .ok s := by
  unfold Takes
  cases ho : os[i]? with
  | none =>
    have hsame : os.take (i + 1) = os.take i := by
      rw [List.take_add_one, ho]
      exact List.append_nil _
    simp [hsame]
  | some o =>
    rw [ofOffenses_take_succ ho]
    constructor
    · intro hlt
      rcases add_cases (ofOffenses (os.take i)) o with hm | ⟨c, s, hc, hs, -⟩
      · rw [hm] at hlt
        exact absurd hlt (Nat.lt_irrefl _)
      · exact ⟨o, c, s, rfl, hc, hs⟩
    · rintro ⟨o', c, s, ho', hc, hs⟩
      obtain rfl := Option.some.inj ho'
      rw [add_ok hc hs]
      exact Nat.lt_succ_self _

/-- what comes later changes nothing of what has been taken -/
theorem takes_append (more : List Offense) (h : i < os.length) :
    Takes (os ++ more) i ↔ Takes os i := by
  unfold Takes
  rw [List.take_append_of_le_length (Nat.le_of_lt h), List.take_append_of_le_length h]

theorem accepted_append (os more : List Offense) :
    accepted (os ++ more) = accepted os ++
      ((more.zipIdx os.length).filter fun x => decide (Takes (os ++ more) x.2)).map Prod.fst := by
  have hfront : (os.zipIdx.filter fun x => decide (Takes (os ++ more) x.2)) =
      os.zipIdx.filter fun x => decide (Takes os x.2) :=
    List.filter_congr fun x hx =>
      decide_eq_decide.2 (takes_append more (List.snd_lt_of_mem_zipIdx hx))
  rw [accepted, List.zipIdx_append, List.filter_append, List.map_append, hfront, Nat.zero_add]
  rfl

theorem concat_cases (os : List Offense) (o : Offense) :
    (∃ c s, o.correction = some c ∧ (ofOffenses os).edits.addAll c.edits = .ok s ∧
      ofOffenses (os ++ [o]) =
        ⟨s, addOnce (ofOffenses os).rules o.rule, (ofOffenses os).taken + 1⟩ ∧
      accepted (os ++ [o]) = accepted os ++ [o]) ∨
    (ofOffenses (os ++ [o]) = ofOffenses os ∧ accepted (os ++ [o]) = accepted os) := by
  have haccepted : accepted (os ++ [o]) =
      accepted os ++ if Takes (os ++ [o]) os.length then [o] else [] := by
    rw [accepted_append, List.zipIdx_singleton, List.filter_cons, List.filter_nil]
    by_cases ht : Takes (os ++ [o]) os.length <;> simp [ht]
  have hlast : (os ++ [o])[os.length]? = some o := List.getElem?_concat_length
  by_cases ht : Takes (os ++ [o]) os.length
  · obtain ⟨o', c, s, ho', hc, hs⟩ := takes_iff.1 ht
    obtain rfl := Option.some.inj (hlast.symm.trans ho')
    rw [List.take_left] at hs
    rw [if_pos ht] at haccepted
    exact Or.inl ⟨c, s, hc, hs, (ofOffenses_concat os o).trans (add_ok hc hs), haccepted⟩
  · rw [if_neg ht, List.append_nil] at haccepted
    refine Or.inr ⟨?_, haccepted⟩
    rw [ofOffenses_concat]
    rcases add_cases (ofOffenses os) o with hm | ⟨c, s, hc, hs, -⟩
    · exact hm
    · exact absurd (takes_iff.2 ⟨o, c, s, hlast, hc, by rw [List.take_left]; exact hs⟩) ht

/-! ## the choice -/

theorem mem_edits_take {f : Edit} : f ∈ (ofOffenses (os.take i)).edits.edits ↔
    ∃ j < i, Takes os j ∧ ∃ o, os[j]? = some o ∧ f ∈ o.edits := by
  induction i with
  | zero => exact iff_of_false List.not_mem_nil fun ⟨j, hj, _⟩ => absurd hj (Nat.not_lt_zero j)
  | succ i ih =>
    have hsplit : (∃ j < i + 1, Takes os j ∧ ∃ o, os[j]? = some o ∧ f ∈ o.edits) ↔
        (∃ j < i, Takes os j ∧ ∃ o, os[j]? = some o ∧ f ∈ o.edits) ∨
          Takes os i ∧ ∃ o, os[i]? = some o ∧ f ∈ o.edits := Nat.exists_lt_succ_right
    rw [hsplit, ← ih]
    by_cases ht : Takes os i
    · obtain ⟨o, c, s, ho, hc, hs⟩ := takes_iff.1 ht
      rw [ofOffenses_take_succ ho, add_ok hc hs, EditSet.mem_addAll hs, ← Offense.edits_eq hc]
      simp [ht, ho]
    · have hsame : (ofOffenses (os.take (i + 1))).edits = (ofOffenses (os.take i)).edits := by
        cases ho : os[i]? with
        | none => rw [List.take_add_one, ho, Option.toList_none, List.append_nil]
        | some o =>
          rw [ofOffenses_take_succ ho]
          rcases add_cases (ofOffenses (os.take i)) o with hm | ⟨c, s, hc, hs, -⟩
          · rw [hm]
          · exact absurd (takes_iff.2 ⟨o, c, s, ho, hc, hs⟩) ht
      simp [ht, hsame]

theorem isGreedy_takes (os : List Offense) : IsGreedy os (Takes os) := by
  intro i
  rw [takes_iff]
  constructor
  · rintro ⟨o, c, s, ho, hc, hs⟩
    obtain ⟨hown, hfree⟩ := (EditSet.addAll_isOk_iff _ c.edits).1 ⟨s, hs⟩
    refine ⟨o, c, ho, hc, hown, fun j hj ht o' ho' e he f hf => hfree e he f ?_⟩
    exact mem_edits_take.2 ⟨j, hj, ht, o', ho', hf⟩
  · rintro ⟨o, c, ho, hc, hown, hfree⟩
    obtain ⟨s, hs⟩ := (EditSet.addAll_isOk_iff (ofOffenses (os.take i)).edits c.edits).2
      ⟨hown, fun e he f hf => by
        obtain ⟨j, hj, ht, o', ho', hf'⟩ := mem_edits_take.1 hf
        exact hfree j hj ht o' ho' e he f hf'⟩
    exact ⟨o, c, s, ho, hc, hs⟩

/-- a greedy choice is made from the front, and there is no other -/
theorem IsGreedy.unique {picked picked' : Nat → Prop} (h : IsGreedy os picked)
    (h' : IsGreedy os picked') (i : Nat) : picked i ↔ picked' i := by
  induction i using Nat.strongRecOn with
  | ind i ih =>
    rw [h i, h' i]
    constructor
    · rintro ⟨o, c, ho, hc, hown, hfree⟩
      exact ⟨o, c, ho, hc, hown, fun j hj hp => hfree j hj ((ih j hj).2 hp)⟩
    · rintro ⟨o, c, ho, hc, hown, hfree⟩
      exact ⟨o, c, ho, hc, hown, fun j hj hp => hfree j hj ((ih j hj).1 hp)⟩

theorem takes_of_first {o : Offense} {c : Correction} (ho : os[i]? = some o)
    (hc : o.correction = some c) (hown : Compatible c.edits)
    (hfront : ∀ j < i, ∀ o', os[j]? = some o' → o'.CannotMend) : Takes os i := by
  refine (isGreedy_takes os i).2 ⟨o, c, ho, hc, hown, fun j hj ht o' ho' e _ f hf => ?_⟩
  obtain ⟨o'', c', ho'', hc', hown', -⟩ := (isGreedy_takes os j).1 ht
  obtain rfl := Option.some.inj (ho'.symm.trans ho'')
  rcases hfront j hj o' ho' with hnone | ⟨c'', hc'', hnil | hclash⟩
  · rw [hnone] at hc'
    cases hc'
  · rw [Offense.edits_eq hc'', hnil] at hf
    exact absurd hf List.not_mem_nil
  · obtain rfl := Option.some.inj (hc'.symm.trans hc'')
    exact absurd hown' hclash

end

/-! ## what has been taken -/

theorem perm_edits (os : List Offense) :
    (ofOffenses os).edits.edits.Perm ((accepted os).flatMap Offense.edits) := by
  induction os using List.reverseRecOn with
  | nil => exact List.Perm.refl []
  | append_singleton os o ih =>
    rcases concat_cases os o with ⟨c, s, hc, hs, hmerge, haccepted⟩ | ⟨hmerge, haccepted⟩
    · rw [hmerge, haccepted, List.flatMap_append, List.flatMap_singleton, Offense.edits_eq hc]
      exact (EditSet.perm_addAll hs).trans (ih.append_right c.edits)
    · rw [hmerge, haccepted]
      exact ih

theorem taken_eq (os : List Offense) : (ofOffenses os).taken = (accepted os).length := by
  induction os using List.reverseRecOn with
  | nil => rfl
  | append_singleton os o ih =>
    rcases concat_cases os o with ⟨c, s, -, -, hmerge, haccepted⟩ | ⟨hmerge, haccepted⟩
    · rw [hmerge, haccepted, List.length_append, ← ih]
      rfl
    · rw [hmerge, haccepted, ih]

theorem eraseDups_concat (rules : List String) (rule : String) :
    (rules ++ [rule]).eraseDups = addOnce rules.eraseDups rule := by
  have hknown : rules.eraseDups.contains rule = true ↔ rule ∈ rules := by
    rw [List.contains_iff_mem, List.mem_eraseDups]
  rw [List.eraseDups_append, addOnce]
  by_cases hr : rule ∈ rules
  · rw [if_pos (hknown.2 hr)]
    simp [List.removeAll, hr]
  · have hnew : [rule].removeAll rules = [rule] := by simp [List.removeAll, hr]
    rw [if_neg (mt hknown.1 hr), hnew]
    rfl

theorem rules_eq (os : List Offense) :
    (ofOffenses os).rules = ((accepted os).map Offense.rule).eraseDups := by
  induction os using List.reverseRecOn with
  | nil => rfl
  | append_singleton os o ih =>
    rcases concat_cases os o with ⟨c, s, -, -, hmerge, haccepted⟩ | ⟨hmerge, haccepted⟩
    · rw [hmerge, haccepted, List.map_append, List.map_singleton, eraseDups_concat, ← ih]
    · rw [hmerge, haccepted, ih]

theorem mem_of_mem_accepted {os : List Offense} {o : Offense} (h : o ∈ accepted os) : o ∈ os := by
  obtain ⟨x, hx, rfl⟩ := List.mem_map.1 h
  exact List.fst_mem_of_mem_zipIdx (List.mem_filter.1 hx).1

theorem mem_accepted_append {os more : List Offense} {o : Offense}
    (h : o ∈ accepted (os ++ more)) : o ∈ accepted os ∨ o ∈ more := by
  rw [accepted_append] at h
  rcases List.mem_append.1 h with h | h
  · exact .inl h
  · obtain ⟨x, hx, rfl⟩ := List.mem_map.1 h
    exact .inr (List.fst_mem_of_mem_zipIdx (List.mem_filter.1 hx).1)

/-- an offense that is in nobody's way is taken -/
theorem accepted_concat_of_free {os : List Offense} {o : Offense} {c : Correction}
    (hc : o.correction = some c) (hown : Compatible c.edits)
    (hfree : ∀ a ∈ accepted os, ∀ f ∈ a.edits, ∀ e ∈ c.edits, f.conflicts e = false) :
    accepted (os ++ [o]) = accepted os ++ [o] := by
  obtain ⟨s, hs⟩ := (EditSet.addAll_isOk_iff (ofOffenses os).edits c.edits).2
    ⟨hown, fun e he f hf => by
      obtain ⟨a, ha, hf⟩ := List.mem_flatMap.1 ((perm_edits os).mem_iff.1 hf)
      exact hfree a ha f hf e he⟩
  rcases concat_cases os o with ⟨-, -, -, -, -, h⟩ | ⟨h, -⟩
  · exact h
  · rw [ofOffenses_concat, add_ok hc hs] at h
    exact absurd (congrArg taken h) (Nat.succ_ne_self _)

/-- offenses that are each in the way of one that has been taken change nothing -/
theorem accepted_append_of_blocked {os more : List Offense}
    (h : ∀ o ∈ more, ∃ e ∈ o.edits, ∃ a ∈ accepted os, ∃ f ∈ a.edits, f.conflicts e = true) :
    accepted (os ++ more) = accepted os := by
  induction more using List.reverseRecOn with
  | nil => rw [List.append_nil]
  | append_singleton more o ih =>
    have hmore := ih fun o ho => h o (List.mem_append_left _ ho)
    obtain ⟨e, he, a, ha, f, hf, hconflict⟩ := h o (List.mem_append_right _ List.mem_cons_self)
    rw [← List.append_assoc]
    rcases concat_cases (os ++ more) o with ⟨c, s, hc, hs, -, -⟩ | ⟨-, haccepted⟩
    · have hmem : f ∈ (ofOffenses (os ++ more)).edits.edits :=
        (perm_edits _).mem_iff.2 (List.mem_flatMap.2 ⟨a, hmore ▸ ha, hf⟩)
      have hfree := ((EditSet.addAll_isOk_iff _ c.edits).1 ⟨s, hs⟩).2 e
        (Offense.edits_eq hc ▸ he) f hmem
      rw [hconflict] at hfree
      cases hfree
    · rw [haccepted, hmore]

/-- **What a pass takes is the greedy selection.**  The choice is the only one in which the edits of
each correction that is taken conflict neither with each other nor with those of one in front, and
in which nothing is left out without such a reason.  The edits are those of the corrections that are
taken, which are counted, and their rules are named once, where they come first.  Offenses that come
later change nothing of the choice; the first that can be mended is taken; and if there is one, the
pass has something to do. -/
theorem ofOffenses_greedy (os : List Offense) :
    IsGreedy os (Takes os) ∧ (∀ picked, IsGreedy os picked → ∀ i, picked i ↔ Takes os i) ∧
    (ofOffenses os).edits.edits.Perm ((accepted os).flatMap Offense.edits) ∧
    (ofOffenses os).taken = (accepted os).length ∧
    (ofOffenses os).rules = ((accepted os).map Offense.rule).eraseDups ∧
    (∀ more, (∀ i < os.length, Takes (os ++ more) i ↔ Takes os i) ∧
      accepted os <+: accepted (os ++ more)) ∧
    (∀ i o c, os[i]? = some o → o.correction = some c → Compatible c.edits →
      (∀ j < i, ∀ o', os[j]? = some o' → o'.CannotMend) → Takes os i) ∧
    ((∃ o ∈ os, ¬ o.CannotMend) →
      (ofOffenses os).edits.isEmpty = false ∧ 0 < (ofOffenses os).taken) := by
  refine ⟨isGreedy_takes os, fun picked hp => hp.unique (isGreedy_takes os), perm_edits os,
    taken_eq os, rules_eq os, fun more => ⟨fun i hi => takes_append more hi, ?_⟩,
    fun i o c ho hc hown hfront => takes_of_first ho hc hown hfront, fun ⟨o, ho, hmend⟩ => ?_⟩
  · rw [accepted_append]
    exact List.prefix_append _ _
  · have hsome : (ofOffenses os).edits.isEmpty = false := by
      rw [← Bool.not_eq_true, isEmpty_ofOffenses_iff]
      exact fun hnone => hmend (hnone o ho)
    exact ⟨hsome, taken_pos hsome⟩

def asking (rule : String) (edits : List Edit) : Offense :=
  ⟨rule, .warning, "", ⟨0, 9⟩, ⟨1, 1⟩, some ⟨edits⟩⟩

/-- the second asks for what the first changes, and so misses what the last gets -/
def overlapping : List Offense :=
  [asking "Test/First" [⟨⟨0, 4⟩, "a"⟩], asking "Test/Second" [⟨⟨2, 6⟩, "b"⟩, ⟨⟨8, 9⟩, "b"⟩],
    asking "Test/First" [⟨⟨6, 7⟩, "c"⟩], asking "Test/Third" [⟨⟨8, 9⟩, "d"⟩]]

theorem overlapping_greedy :
    Takes overlapping 0 ∧ ¬ Takes overlapping 1 ∧ (ofOffenses overlapping).taken = 3 ∧
    (ofOffenses overlapping).rules = ["Test/First", "Test/Third"] ∧
    (ofOffenses overlapping).edits.isEmpty = false ∧ Takes (overlapping ++ overlapping) 3 := by
  obtain ⟨-, -, -, hcount, hrules, hmore, hfirst, hsome⟩ := ofOffenses_greedy overlapping
  have hzero : Takes overlapping 0 :=
    hfirst 0 _ _ rfl rfl (List.pairwise_singleton _ _) fun j hj => absurd hj (Nat.not_lt_zero j)
  have hmend : ∃ o ∈ overlapping, ¬ o.CannotMend := by
    refine ⟨_, List.mem_cons_self, ?_⟩
    simp [asking, Offense.CannotMend, Compatible]
  refine ⟨hzero, by decide +kernel, hcount.trans (by decide +kernel),
    hrules.trans (by decide +kernel), (hsome hmend).1, ?_⟩
  exact ((hmore overlapping).1 3 (by decide +kernel)).2 (by decide +kernel)

end Merge

end RubyLint
