import Mathlib.Data.List.Pairwise
import RubyLint.Proofs.Edit.Order

/-!
# Edits in any order

Edits that can be made together and have their ends in order never have the same span.  So an
ordered set is known by the edits in it, and how they have got there does not show:

* `Ordered.eq_of_perm`         two ordered sets with the same edits are one;
* `Ordered.addAll_eq_ok_iff`   adding edits gives *the* ordered set of the old edits and the new;
* `foldlM_answer`              requests one after the other are one request for all their edits.
-/

namespace RubyLint

namespace Edit

instance : Std.Symm fun e f : Edit => e.conflicts f = false :=
  ⟨fun e f h => by rw [conflicts_comm]; exact h⟩

theorem conflicts_of_span_eq {e f : Edit} (hspan : e.span = f.span)
    (hle : e.span.start ≤ e.span.stop) : e.conflicts f = true := by
  have hkind : e.isInsertion = f.isInsertion := by rw [isInsertion, isInsertion, hspan]
  unfold conflicts
  rw [← hkind, ← hspan]
  cases hi : e.isInsertion with
  | true => exact beq_self_eq_true _
  | false =>
    have hwide : e.span.start ≠ e.span.stop := by simpa [isInsertion, Span.isEmpty] using hi
    have hlt : e.span.start < e.span.stop := by omega
    simp [Span.overlaps, Span.isEmpty, hwide, hlt]

theorem Compatible.eq_of_span_eq {es : List Edit} (h : Compatible es) {e f : Edit} (he : e ∈ es)
    (hf : f ∈ es) (hle : e.span.start ≤ e.span.stop) (hspan : e.span = f.span) : e = f := by
  by_contra hne
  have hfree : e.conflicts f = false := List.Pairwise.forall h he hf hne
  rw [conflicts_of_span_eq hspan hle] at hfree
  cases hfree

theorem Compatible.perm {es es' : List Edit} (h : Compatible es) (hp : es.Perm es') :
    Compatible es' :=
  (hp.pairwise_iff fun {e f} hef => by rw [conflicts_comm]; exact hef).1 h

end Edit

theorem Span.notAfter_antisymm {s t : Span} (h : s.notAfter t = true) (k : t.notAfter s = true) :
    s = t := by
  obtain ⟨start, stop⟩ := s
  obtain ⟨start', stop'⟩ := t
  simp only [notAfter_iff] at h k
  obtain ⟨rfl, rfl⟩ : start = start' ∧ stop = stop' := by omega
  rfl

namespace EditSet

variable {s s' : EditSet} {es es' : List Edit}

/-! ## sets with the same edits -/

/-- **an ordered set is known by the edits in it** -/
theorem Ordered.eq_of_perm (h : s.Ordered) (h' : s'.Ordered)
    (hle : ∀ e ∈ s.edits, e.span.start ≤ e.span.stop) (hp : s.edits.Perm s'.edits) : s = s' := by
  have hedits : s.edits = s'.edits := by
    refine hp.eq_of_pairwise (fun e f he hf hef hfe => ?_) h.sorted h'.sorted
    exact h.compatible.eq_of_span_eq he (hp.mem_iff.2 hf) (hle e he)
      (Span.notAfter_antisymm hef hfe)
  obtain ⟨edits⟩ := s
  obtain ⟨edits'⟩ := s'
  obtain rfl : edits = edits' := hedits
  rfl

theorem perm_addAll (h : s.addAll es = .ok s') : s'.edits.Perm (s.edits ++ es) := by
  induction es generalizing s with
  | nil =>
    cases h
    rw [List.append_nil]
  | cons e es ih =>
    obtain ⟨s₁, hadd, hrest⟩ := addAll_cons_ok h
    obtain ⟨-, rfl⟩ := (add_eq_ok_iff s s₁ e).1 hadd
    have hfirst : (insertSorted e s.edits ++ es).Perm (e :: s.edits ++ es) :=
      (insertSorted_perm e s.edits).append_right es
    exact ((ih hrest).trans hfirst).trans List.perm_middle.symm

/-- **What comes of adding edits is the ordered set of the old edits and the new ones**, if there is
such a set. -/
theorem Ordered.addAll_eq_ok_iff (h : s.Ordered)
    (hs : ∀ e ∈ s.edits, e.span.start ≤ e.span.stop)
    (hes : ∀ e ∈ es, e.span.start ≤ e.span.stop) :
    s.addAll es = .ok s' ↔ s'.Ordered ∧ s'.edits.Perm (s.edits ++ es) := by
  constructor
  · intro ha
    exact ⟨h.addAll ha, perm_addAll ha⟩
  · rintro ⟨hs', hp⟩
    obtain ⟨-, hnew, hapart⟩ := List.pairwise_append.1 (hs'.compatible.perm hp)
    obtain ⟨s'', hs''⟩ := (addAll_isOk_iff s es).2 ⟨hnew, fun e he f hf => hapart f hf e he⟩
    have hle : ∀ e ∈ s''.edits, e.span.start ≤ e.span.stop := by
      intro e he
      rcases (mem_addAll hs'' e).1 he with he | he
      · exact hs e he
      · exact hes e he
    rw [hs'', (h.addAll hs'').eq_of_perm hs' hle ((perm_addAll hs'').trans hp.symm)]

theorem Ordered.addAll_perm (h : s.Ordered) (hs : ∀ e ∈ s.edits, e.span.start ≤ e.span.stop)
    (hes : ∀ e ∈ es, e.span.start ≤ e.span.stop) (hp : es'.Perm es) :
    s.addAll es' = .ok s' ↔ s.addAll es = .ok s' := by
  have hes' : ∀ e ∈ es', e.span.start ≤ e.span.stop := fun e he => hes e (hp.mem_iff.1 he)
  have hall : (s.edits ++ es').Perm (s.edits ++ es) := hp.append_left s.edits
  rw [h.addAll_eq_ok_iff hs hes', h.addAll_eq_ok_iff hs hes]
  exact and_congr_right fun _ => ⟨fun h => h.trans hall, fun h => h.trans hall.symm⟩

/-! ## requests one after the other -/

/-- the edits that a request asks for -/
def Request.edits : Request → List Edit
  | .add e => [e]
  | .addAll es => es

theorem addAll_append (s : EditSet) (es es' : List Edit) :
    s.addAll (es ++ es') = s.addAll es >>= fun s' => s'.addAll es' := by
  induction es generalizing s with
  | nil => rfl
  | cons e es ih =>
    rw [List.cons_append, addAll, addAll]
    cases s.add e with
    | ok s₁ => exact ih s₁
    | error err => rfl

theorem Request.answer_eq (s : EditSet) (r : Request) : r.answer s = s.addAll r.edits := by
  cases r with
  | add e =>
    show s.add e = s.addAll [e]
    rw [EditSet.addAll]
    cases s.add e <;> rfl
  | addAll es => rfl

/-- requests of which none may be refused ask for all their edits at once -/
theorem foldlM_answer (s : EditSet) (rs : List Request) :
    rs.foldlM Request.answer s = s.addAll (rs.flatMap Request.edits) := by
  induction rs generalizing s with
  | nil => rfl
  | cons r rs ih =>
    rw [List.foldlM_cons, List.flatMap_cons, addAll_append, Request.answer_eq]
    simp only [ih]

/-- **Edits are taken all or none, and in any order.**  They are taken exactly if they conflict
neither with each other nor with what is in the set; if not, the set stays as it was.  What comes of
them does not depend on their order, nor on how many requests ask for them: a sequence of requests
for the same edits gets through exactly if the one request does, and makes the same set. -/
theorem addAll_inAnyOrder (rs : List Request) (es : List Edit)
    (hrs : ∀ e ∈ (ofRequests rs).edits, e.span.start ≤ e.span.stop)
    (hes : ∀ e ∈ es, e.span.start ≤ e.span.stop) :
    ((∃ s, (ofRequests rs).addAll es = .ok s) ↔
      Edit.Compatible es ∧ ∀ e ∈ es, ∀ f ∈ (ofRequests rs).edits, f.conflicts e = false) ∧
    ((¬ ∃ s, (ofRequests rs).addAll es = .ok s) →
      (ofRequests rs).serve (.addAll es) = ofRequests rs) ∧
    ∀ (qs : List Request) (s : EditSet), (qs.flatMap Request.edits).Perm es →
      (qs.foldlM Request.answer (ofRequests rs) = .ok s ↔ (ofRequests rs).addAll es = .ok s) := by
  refine ⟨addAll_isOk_iff _ es, fun hno => ?_, fun qs s hp => ?_⟩
  · unfold serve
    cases ha : (Request.addAll es).answer (ofRequests rs) with
    | ok s => exact absurd ⟨s, ha⟩ hno
    | error err => rfl
  · rw [foldlM_answer]
    exact (ordered_ofRequests rs).addAll_perm hrs hes hp

def insertedThenReplaced : List Request := [.add ⟨⟨2, 4⟩, "XY"⟩, .add (.insert 2 "!")]

/-- the same edits, asked for one by one from the back, or the last two at once -/
theorem insertedThenReplaced_inAnyOrder :
    ∃ s, (ofRequests insertedThenReplaced).addAll [.insert 0 ">", .insert 4 "?", .remove ⟨4, 6⟩] =
        .ok s ∧
      [.add (.remove ⟨4, 6⟩), .add (.insert 4 "?"), .add (.insert 0 ">")].foldlM Request.answer
        (ofRequests insertedThenReplaced) = .ok s ∧
      [.addAll [.insert 4 "?", .remove ⟨4, 6⟩], .add (.insert 0 ">")].foldlM Request.answer
        (ofRequests insertedThenReplaced) = .ok s ∧
      (ofRequests insertedThenReplaced).serve (.addAll [.insert 0 ">", .insert 3 "?"]) =
        ofRequests insertedThenReplaced := by
  obtain ⟨hok, -, hsame⟩ := addAll_inAnyOrder insertedThenReplaced
    [.insert 0 ">", .insert 4 "?", .remove ⟨4, 6⟩] (by decide +kernel) (by decide +kernel)
  obtain ⟨hok', hback, -⟩ := addAll_inAnyOrder insertedThenReplaced [.insert 0 ">", .insert 3 "?"]
    (by decide +kernel) (by decide +kernel)
  obtain ⟨s, hs⟩ := hok.2 ⟨by unfold Edit.Compatible; decide +kernel, by decide +kernel⟩
  refine ⟨s, hs, ?_, ?_, hback fun h => ?_⟩
  · exact (hsame _ s (by decide +kernel)).2 hs
  · exact (hsame _ s (by decide +kernel)).2 hs
  · exact absurd (hok'.1 h).2 (by decide +kernel)

end EditSet

end RubyLint
