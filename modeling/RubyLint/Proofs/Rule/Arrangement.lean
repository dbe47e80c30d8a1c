import Mathlib.Data.List.Basic
import Mathlib.Data.List.Induction
import Mathlib.Data.List.Perm.Basic
import Mathlib.Order.Monotone.Basic

/-!
# Operands that change places

A list of operands, some of which are cheap, in which an operand that is not cheap and a cheap one
behind it may change places if there are only cheap ones between them.  `Settles` says what one pass
does, seen from the last operand: a cheap operand changes places with the next one in front of it that
is not, and what stands between them stays where it is.

* `misplaced_append`    the pairs to be sorted, counted in two parts of a list;
* `Settles.perm`, `Settles.misplaced_lt`   a pass loses no operand, and there are fewer pairs after it;
* `exists_settles`      there is a pass for every list;
* `Settles.eq_map`      an operand comes to the place of the one that it is exchanged with;
* `exists_rests`, `exists_rests_le`, `rests_of_eq`   where each pass leaves fewer pairs or everything as
                        it is, passes end, soon enough, and nothing comes back.
-/

namespace RubyLint.Rule

section
variable {α : Type} (cheap : α → Bool)

/-- in front of a cheap operand there are only cheap ones -/
def CheapFirst (es : List α) : Prop := es.Pairwise fun e e' => cheap e' = true → cheap e = true

instance (es : List α) : Decidable (CheapFirst cheap es) :=
  inferInstanceAs (Decidable (es.Pairwise _))

/-- the number of the pairs of an operand that is not cheap and a cheap one behind it -/
def misplaced : List α → Nat
  | [] => 0
  | e :: es => (if cheap e then 0 else es.countP cheap) + misplaced es

/-- the operand, which is not cheap, stands behind the ones in front, and behind it there are only cheap
ones -/
def LastDear (es front : List α) (dear : α) : Prop :=
  cheap dear = false ∧ ∃ between, es = front ++ dear :: between ∧ ∀ e ∈ between, cheap e = true

/-- the last operand that is not cheap; the first operand only if it is the only one -/
def Waits (es : List α) (dear : α) : Prop :=
  ∃ front, LastDear cheap es front dear ∧ (front = [] → es = [dear])

/-- a pass over a list of operands: the pairs that change places, the last one first, and the list that
comes of it -/
inductive Settles : List α → List (α × α) → List α → Prop
  | nil : Settles [] [] []
  | keep {es after : List α} {pairs : List (α × α)} {e : α}
      (hkeep : cheap e = true → ∀ dear, ¬ Waits cheap es dear) (h : Settles es pairs after) :
      Settles (es ++ [e]) pairs (after ++ [e])
  | exchange {front between after : List α} {pairs : List (α × α)} {dear e : α}
      (he : cheap e = true) (hdear : cheap dear = false)
      (hbetween : ∀ e ∈ between, cheap e = true) (hfirst : front = [] → between = [])
      (h : Settles front pairs after) :
      Settles (front ++ dear :: (between ++ [e])) ((dear, e) :: pairs)
        (after ++ e :: (between ++ [dear]))

def Exchanged (pairs : List (α × α)) (e e' : α) : Prop := (e, e') ∈ pairs ∨ (e', e) ∈ pairs

end

section
variable {α : Type} {cheap : α → Bool} {es front after : List α} {pairs : List (α × α)} {e dear : α}

theorem Exchanged.symm {e' : α} (h : Exchanged pairs e e') : Exchanged pairs e' e := Or.symm h

/-! ## cheap operands first -/

theorem misplaced_append (es es' : List α) : misplaced cheap (es ++ es') =
    misplaced cheap es + es.countP (fun e => !cheap e) * es'.countP cheap + misplaced cheap es' := by
  induction es with
  | nil => simp [misplaced]
  | cons e es ih =>
    rw [List.cons_append, misplaced, misplaced, ih, List.countP_append, List.countP_cons]
    cases cheap e with
    | true => simp
    | false =>
      simp only [Bool.not_false, if_true, Bool.false_eq_true, if_false, Nat.add_mul, Nat.one_mul]
      omega

theorem misplaced_eq_zero_iff : misplaced cheap es = 0 ↔ CheapFirst cheap es := by
  induction es with
  | nil => exact iff_of_true rfl List.Pairwise.nil
  | cons e es ih =>
    rw [misplaced, Nat.add_eq_zero_iff, ih, CheapFirst, CheapFirst, List.pairwise_cons]
    refine and_congr_left fun _ => ?_
    cases cheap e with
    | true => simp
    | false => simp [List.countP_eq_zero]

theorem misplaced_map {β : Type} (f : β → α) (es : List β) :
    misplaced cheap (es.map f) = misplaced (fun e => cheap (f e)) es := by
  induction es with
  | nil => rfl
  | cons e es ih =>
    rw [List.map_cons, misplaced, misplaced, ih, List.countP_map]
    rfl

theorem cheapFirst_map {β : Type} (f : β → α) (es : List β) :
    CheapFirst cheap (es.map f) ↔ CheapFirst (fun e => cheap (f e)) es :=
  List.pairwise_map

theorem misplaced_of_cheap (h : ∀ e ∈ es, cheap e = true) : misplaced cheap es = 0 :=
  misplaced_eq_zero_iff.2 ((List.pairwise_iff_forall_sublist).2 fun hsub _ =>
    h _ (hsub.subset List.mem_cons_self))

theorem LastDear.mem (h : LastDear cheap es front dear) : dear ∈ es := by
  obtain ⟨-, between, rfl, -⟩ := h
  simp

theorem lastDear_concat_of_dear (he : cheap e = false) :
    LastDear cheap (es ++ [e]) front dear ↔ front = es ∧ dear = e := by
  constructor
  · rintro ⟨-, between, heq, hbetween⟩
    rcases List.eq_nil_or_concat between with rfl | ⟨between, b, rfl⟩
    · obtain ⟨rfl, hlast⟩ := List.append_inj' heq rfl
      exact ⟨rfl, (List.cons.inj hlast).1.symm⟩
    · -- the last operand would be a cheap one
      rw [List.concat_eq_append, ← List.cons_append, ← List.append_assoc] at heq
      obtain rfl := (List.cons.inj (List.append_inj' heq rfl).2).1
      have hcheap := hbetween e (by simp)
      rw [he] at hcheap
      cases hcheap
  · rintro ⟨rfl, rfl⟩
    exact ⟨he, [], rfl, fun _ h => absurd h List.not_mem_nil⟩

theorem lastDear_concat_of_cheap (he : cheap e = true) :
    LastDear cheap (es ++ [e]) front dear ↔ LastDear cheap es front dear := by
  constructor
  · rintro ⟨hdear, between, heq, hbetween⟩
    rcases List.eq_nil_or_concat between with rfl | ⟨between, b, rfl⟩
    · obtain rfl := (List.cons.inj (List.append_inj' heq rfl).2).1
      rw [he] at hdear
      cases hdear
    · rw [List.concat_eq_append, ← List.cons_append, ← List.append_assoc] at heq
      exact ⟨hdear, between, (List.append_inj' heq rfl).1, fun a ha => hbetween a (by simp [ha])⟩
  · rintro ⟨hdear, between, rfl, hbetween⟩
    refine ⟨hdear, between ++ [e], by simp, fun a ha => ?_⟩
    rcases List.mem_append.1 ha with ha | ha
    · exact hbetween a ha
    · rwa [List.mem_singleton.1 ha]

theorem LastDear.unique {front' : List α} {dear' : α} (h : LastDear cheap es front dear)
    (h' : LastDear cheap es front' dear') : dear = dear' := by
  induction es using List.reverseRecOn with
  | nil => exact absurd h.mem List.not_mem_nil
  | append_singleton es e ih =>
    cases he : cheap e with
    | false =>
      rw [lastDear_concat_of_dear he] at h h'
      exact h.2.trans h'.2.symm
    | true =>
      rw [lastDear_concat_of_cheap he] at h h'
      exact ih h h'

/-- a cheap operand at the end of a list in which the cheap ones come first: all are cheap, or the last
one waits for it -/
theorem exists_waits (hfirst : CheapFirst cheap es) (hnot : ¬ CheapFirst cheap (es ++ [e])) :
    cheap e = true ∧ ∃ dear, Waits cheap es dear := by
  have hpair : ∃ a ∈ es, cheap e = true ∧ cheap a = false := by
    by_contra hno
    refine hnot (List.pairwise_append.2 ⟨hfirst, List.pairwise_singleton _ _, fun a ha b hb he => ?_⟩)
    obtain rfl := List.mem_singleton.1 hb
    exact eq_true_of_ne_false fun h => hno ⟨a, ha, he, h⟩
  obtain ⟨a, hmem, he, ha⟩ := hpair
  refine ⟨he, ?_⟩
  rcases List.eq_nil_or_concat es with rfl | ⟨front, dear, rfl⟩
  · exact absurd hmem List.not_mem_nil
  · rw [List.concat_eq_append] at hfirst hmem ⊢
    have hdear : cheap dear = false := by
      rw [Bool.eq_false_iff]
      intro hcheap
      have hall : cheap a = true := by
        rcases List.mem_append.1 hmem with hmem | hmem
        · exact (List.pairwise_append.1 hfirst).2.2 a hmem dear List.mem_cons_self hcheap
        · rwa [List.mem_singleton.1 hmem]
      rw [ha] at hall
      cases hall
    exact ⟨dear, front, ⟨hdear, [], rfl, fun _ h => absurd h List.not_mem_nil⟩, fun h => by rw [h]; rfl⟩

theorem Waits.not_cheapFirst (h : Waits cheap es dear) (he : cheap e = true) :
    ¬ CheapFirst cheap (es ++ [e]) := by
  obtain ⟨front, ⟨hdear, between, rfl, -⟩, -⟩ := h
  intro hfirst
  have hpair := (List.pairwise_append.1 hfirst).2.2 dear (by simp) e List.mem_cons_self he
  rw [hdear] at hpair
  cases hpair

/-! ## a pass -/

section
variable {e' f : α}

theorem exchanged_cons (hdear : e ≠ dear) (hf : e ≠ f) :
    Exchanged ((dear, f) :: pairs) e e' ↔ Exchanged pairs e e' := by
  simp [Exchanged, hdear, hf]

theorem exchanged_cons_left (hold : ¬ Exchanged pairs dear e') (hne : dear ≠ f) :
    Exchanged ((dear, f) :: pairs) dear e' ↔ e' = f := by
  simp only [Exchanged, not_or] at hold
  simp [Exchanged, hold, hne]

theorem exchanged_cons_right (hold : ¬ Exchanged pairs f e') (hne : dear ≠ f) :
    Exchanged ((dear, f) :: pairs) f e' ↔ e' = dear := by
  simp only [Exchanged, not_or] at hold
  simp [Exchanged, hold, hne.symm]

end

namespace Settles

theorem perm (h : Settles cheap es pairs after) : after.Perm es := by
  induction h with
  | nil => exact .nil
  | keep _ _ ih => exact ih.append_right _
  | @exchange front between after pairs dear e _ _ _ _ _ ih =>
    refine ih.append ?_
    calc e :: (between ++ [dear])
      _ |>.Perm (e :: dear :: between) := (List.perm_append_singleton dear between).cons e
      _ |>.Perm (dear :: e :: between) := .swap dear e between
      _ |>.Perm (dear :: (between ++ [e])) := (List.perm_append_singleton e between).symm.cons dear

/-- Nothing changes places only where the cheap operands come first. -/
theorem pairs_eq_nil_iff (h : Settles cheap es pairs after) : pairs = [] ↔ CheapFirst cheap es := by
  induction h with
  | nil => exact iff_of_true rfl List.Pairwise.nil
  | @keep es after pairs e hkeep _ ih =>
    rw [ih]
    constructor
    · intro hfirst
      by_contra hnot
      obtain ⟨he, dear, hdear⟩ := exists_waits hfirst hnot
      exact hkeep he dear hdear
    · exact fun hfirst => (List.pairwise_append.1 hfirst).1
  | @exchange front between after pairs dear e he hdear hbetween hfirst _ _ =>
    have hwaits : Waits cheap (front ++ dear :: between) dear :=
      ⟨front, ⟨hdear, between, rfl, hbetween⟩, fun h => by rw [h, hfirst h]; rfl⟩
    have hlist : front ++ dear :: (between ++ [e]) = (front ++ dear :: between) ++ [e] := by simp
    rw [hlist]
    exact iff_of_false (List.cons_ne_nil _ _) (hwaits.not_cheapFirst he)

theorem eq_of_pairs_eq_nil (h : Settles cheap es pairs after) (hnil : pairs = []) : after = es := by
  induction h with
  | nil => rfl
  | keep _ _ ih => rw [ih hnil]
  | exchange => cases hnil

/-- Where a pair changes places, there are fewer pairs to be sorted afterwards. -/
theorem misplaced_lt (h : Settles cheap es pairs after) :
    misplaced cheap after ≤ misplaced cheap es ∧
      (pairs ≠ [] → misplaced cheap after < misplaced cheap es) := by
  induction h with
  | nil => exact ⟨Nat.le_refl _, fun h => absurd rfl h⟩
  | @keep es after pairs e _ h ih =>
    have hcount := h.perm.countP_eq fun e => !cheap e
    simp only [misplaced_append, hcount]
    exact ⟨by omega, fun hne => by have hlt := ih.2 hne; omega⟩
  | @exchange front between after pairs dear e he hdear hbetween _ h ih =>
    have hdears := h.perm.countP_eq fun e => !cheap e
    have hzero : misplaced cheap between = 0 := misplaced_of_cheap hbetween
    have hall : between.countP cheap = between.length := List.countP_eq_length.2 hbetween
    have hnone : between.countP (fun e => !cheap e) = 0 :=
      List.countP_eq_zero.2 fun e he => by simp [hbetween e he]
    have hold : misplaced cheap (dear :: (between ++ [e])) = between.length + 1 := by
      simp [misplaced, misplaced_append, hzero, hall, hnone, he, hdear]
    have hnew : misplaced cheap (e :: (between ++ [dear])) = 0 := by
      simp [misplaced, misplaced_append, hzero, hnone, he, hdear]
    have hcheap : (e :: (between ++ [dear])).countP cheap =
        (dear :: (between ++ [e])).countP cheap := by
      simp [List.countP_append, he, hdear]
    have hlt : misplaced cheap (after ++ e :: (between ++ [dear])) <
        misplaced cheap (front ++ dear :: (between ++ [e])) := by
      rw [misplaced_append, misplaced_append, hold, hnew, hdears, hcheap]
      omega
    exact ⟨Nat.le_of_lt hlt, fun _ => hlt⟩

theorem mem_of_exchanged (h : Settles cheap es pairs after) {e' : α} (he : Exchanged pairs e e') :
    e ∈ es := by
  induction h with
  | nil => exact absurd he (by simp [Exchanged])
  | keep _ _ ih => exact List.mem_append_left _ (ih he)
  | @exchange front between after pairs dear f _ _ _ _ _ ih =>
    by_cases hpair : e = dear ∨ e = f
    · rcases hpair with rfl | rfl <;> simp
    · rw [not_or] at hpair
      exact List.mem_append_left _ (ih ((exchanged_cons hpair.1 hpair.2).1 he))

theorem exchanged_unique (h : Settles cheap es pairs after) (hnodup : es.Nodup) {e' e'' : α}
    (he' : Exchanged pairs e e') (he'' : Exchanged pairs e e'') : e' = e'' := by
  induction h with
  | nil => exact absurd he' (by simp [Exchanged])
  | keep _ _ ih => exact ih (List.nodup_append.1 hnodup).1 he' he''
  | @exchange front between after pairs dear f _ _ _ _ h ih =>
    obtain ⟨hfront, hback, hapart⟩ := List.nodup_append.1 hnodup
    have hne : dear ≠ f := fun heq => (List.nodup_cons.1 hback).1 (by simp [heq])
    have hdear : ∀ {a}, ¬ Exchanged pairs dear a := fun ha =>
      hapart _ (h.mem_of_exchanged ha) dear List.mem_cons_self rfl
    have hf : ∀ {a}, ¬ Exchanged pairs f a := fun ha =>
      hapart _ (h.mem_of_exchanged ha) f (by simp) rfl
    by_cases hed : e = dear
    · subst hed
      exact ((exchanged_cons_left hdear hne).1 he').trans ((exchanged_cons_left hdear hne).1 he'').symm
    by_cases hef : e = f
    · subst hef
      exact ((exchanged_cons_right hf hne).1 he').trans ((exchanged_cons_right hf hne).1 he'').symm
    · exact ih hfront ((exchanged_cons hed hef).1 he') ((exchanged_cons hed hef).1 he'')

/-- The list that comes of a pass has in each place the operand that is exchanged with the one there,
or the one there if it is not exchanged. -/
theorem eq_map (h : Settles cheap es pairs after) (hnodup : es.Nodup) {place : α → α}
    (hmoved : ∀ e e', Exchanged pairs e e' → place e = e')
    (hkept : ∀ e ∈ es, (∀ e', ¬ Exchanged pairs e e') → place e = e) : after = es.map place := by
  induction h with
  | nil => rfl
  | @keep es after pairs e _ h ih =>
    obtain ⟨hes, -, hapart⟩ := List.nodup_append.1 hnodup
    have he : place e = e := hkept e (by simp) fun e' he =>
      hapart e (h.mem_of_exchanged he) e List.mem_cons_self rfl
    rw [List.map_append, List.map_singleton, he,
      ih hes hmoved fun a ha => hkept a (List.mem_append_left _ ha)]
  | @exchange front between after pairs dear f _ _ _ _ h ih =>
    obtain ⟨hfront, hback, hapart⟩ := List.nodup_append.1 hnodup
    obtain ⟨hdear, hbetween⟩ := List.nodup_cons.1 hback
    have hstays : ∀ e ∈ front ++ between, (∀ e', ¬ Exchanged pairs e e') → place e = e := by
      intro e he hno
      have hne : e ≠ dear ∧ e ≠ f := by
        rcases List.mem_append.1 he with he | he
        · exact ⟨hapart e he dear List.mem_cons_self, hapart e he f (by simp)⟩
        · exact ⟨fun heq => hdear (heq ▸ List.mem_append_left _ he),
            (List.nodup_append.1 hbetween).2.2 e he f List.mem_cons_self⟩
      refine hkept e ?_ fun e' he' => hno e' ((exchanged_cons hne.1 hne.2).1 he')
      rcases List.mem_append.1 he with he | he <;> simp [he]
    have hrest : between.map place = between := by
      refine (List.map_congr_left (g := id) fun e he => ?_).trans (List.map_id between)
      exact hstays e (List.mem_append_right _ he) fun e' he' =>
        hapart e (h.mem_of_exchanged he') e (by simp [he]) rfl
    have hafter := ih hfront (fun e e' he => hmoved e e' (he.imp (List.mem_cons_of_mem _)
      (List.mem_cons_of_mem _))) fun e he => hstays e (List.mem_append_left _ he)
    rw [List.map_append, List.map_cons, List.map_append, List.map_singleton, hrest, ← hafter,
      hmoved dear f (.inl List.mem_cons_self), hmoved f dear (.inr List.mem_cons_self)]

end Settles

theorem exists_settles (cheap : α → Bool) (es : List α) :
    ∃ pairs after, Settles cheap es pairs after := by
  induction hlength : es.length using Nat.strongRecOn generalizing es with
  | ind n ih =>
    rcases List.eq_nil_or_concat es with rfl | ⟨es, e, rfl⟩
    · exact ⟨[], [], .nil⟩
    rw [List.concat_eq_append] at hlength ⊢
    have hlt : es.length < n := by simp [← hlength]
    by_cases hwaits : cheap e = true ∧ ∃ dear, Waits cheap es dear
    · obtain ⟨he, dear, front, ⟨hdear, between, rfl, hbetween⟩, honly⟩ := hwaits
      have hfirst : front = [] → between = [] := fun h => by
        have heq := honly h
        rw [h] at heq
        exact (List.cons.inj heq).2
      rw [List.length_append] at hlt
      obtain ⟨pairs, after, h⟩ := ih front.length (by omega) front rfl
      rw [List.append_assoc, List.cons_append]
      exact ⟨_, _, .exchange he hdear hbetween hfirst h⟩
    · obtain ⟨pairs, after, h⟩ := ih es.length hlt es rfl
      exact ⟨_, _, .keep (fun he dear hdear => hwaits ⟨he, dear, hdear⟩) h⟩

/-! ## pass after pass -/

section
variable {run : Nat → List α} {rests : Nat → Prop}

theorem misplaced_antitone
    (hdown : ∀ i, ¬ rests i → misplaced cheap (run (i + 1)) < misplaced cheap (run i))
    (hrest : ∀ i, rests i → run (i + 1) = run i) : Antitone fun i => misplaced cheap (run i) := by
  refine antitone_nat_of_succ_le fun i => ?_
  by_cases h : rests i
  · rw [hrest i h]
  · exact Nat.le_of_lt (hdown i h)

/-- Where a pass leaves fewer pairs to be sorted or everything as it is, nothing changes in the end. -/
theorem exists_rests
    (hdown : ∀ i, ¬ rests i → misplaced cheap (run (i + 1)) < misplaced cheap (run i))
    (hrest : ∀ i, rests i → run (i + 1) = run i) : ∃ last, ∀ i, last ≤ i → rests i := by
  -- by the pairs that there are at the start
  induction hm : misplaced cheap (run 0) using Nat.strongRecOn generalizing run rests with
  | ind m ih =>
    by_cases hall : ∀ i, rests i
    · exact ⟨0, fun i _ => hall i⟩
    obtain ⟨k, hk⟩ := not_forall.1 hall
    have hlt : misplaced cheap (run (k + 1)) < m :=
      Nat.lt_of_lt_of_le (hdown k hk) (hm ▸ misplaced_antitone hdown hrest (Nat.zero_le k))
    have hlater : ∃ last, ∀ i, last ≤ i → rests (k + 1 + i) :=
      @ih _ hlt (fun i => run (k + 1 + i)) (fun i => rests (k + 1 + i))
        (fun i => hdown (k + 1 + i)) (fun i => hrest (k + 1 + i)) rfl
    obtain ⟨last, hlast⟩ := hlater
    refine ⟨k + 1 + last, fun i hi => ?_⟩
    have hi' := hlast (i - (k + 1)) (by omega)
    rwa [show k + 1 + (i - (k + 1)) = i by omega] at hi'

/-- It takes as many passes as there are pairs, unless one of them changes nothing. -/
theorem exists_rests_le
    (hdown : ∀ i, ¬ rests i → misplaced cheap (run (i + 1)) < misplaced cheap (run i))
    {n : Nat} (hn : misplaced cheap (run 0) ≤ n) : ∃ i ≤ n, rests i := by
  by_contra hno
  have hall : ∀ i ≤ n + 1, misplaced cheap (run i) + i ≤ misplaced cheap (run 0) := by
    intro i hi
    induction i with
    | zero => exact Nat.le_refl _
    | succ i ih =>
      have hlt := hdown i fun h => hno ⟨i, by omega, h⟩
      have hle := ih (by omega)
      omega
  have hlast := hall (n + 1) (Nat.le_refl _)
  omega

/-- No arrangement comes back, unless nothing has changed in between. -/
theorem rests_of_eq
    (hdown : ∀ i, ¬ rests i → misplaced cheap (run (i + 1)) < misplaced cheap (run i))
    (hrest : ∀ i, rests i → run (i + 1) = run i) {i j k : Nat} (heq : run i = run j) (hik : i ≤ k)
    (hkj : k < j) : rests k := by
  by_contra hnot
  have hmono := misplaced_antitone hdown hrest
  have hfirst : misplaced cheap (run k) ≤ misplaced cheap (run i) := hmono hik
  have hlast : misplaced cheap (run j) ≤ misplaced cheap (run (k + 1)) := hmono hkj
  have hlt := hdown k hnot
  rw [heq] at hfirst
  omega

end

end

end RubyLint.Rule
