import RubyLint.Proofs.Edit.Collect

/-!
# The order of a set of edits

`EditSet.serve` is one request to put edits into a set, refused or not.  `EditSet.Ordered` is what
every request keeps, for edits with any spans, inverted ones included:

* `Ordered.add`, `Ordered.addAll`  what is added comes to its place and is free of conflicts;
* `ordered_serve`, `ordered_foldl` so it stays over any number of requests;
* `stop_le_start`                  of two edits in order, not inverted and free of conflicts, the
                                   first ends where the second starts, or before.
-/

namespace RubyLint

namespace Span

theorem notAfter_iff {s t : Span} :
    s.notAfter t = true ↔ s.start < t.start ∨ s.start = t.start ∧ s.stop ≤ t.stop := by
  simp only [notAfter, before, Bool.not_eq_true', Bool.or_eq_false_iff, Bool.and_eq_false_iff,
    decide_eq_false_iff_not, beq_eq_false_iff_ne, Nat.not_lt]
  omega

theorem notAfter_trans {s t u : Span} (h : s.notAfter t = true) (k : t.notAfter u = true) :
    s.notAfter u = true := by
  rw [notAfter_iff] at *
  omega

theorem notAfter_total {s t : Span} (h : ¬ s.notAfter t = true) : t.notAfter s = true := by
  rw [notAfter_iff] at *
  omega

end Span

namespace Edit

/-- the edits stand in the order of their spans, by start and then by end -/
def Sorted (es : List Edit) : Prop := es.Pairwise fun e f => e.span.notAfter f.span = true

/-- **of two edits in order that can be made together, the first ends before the second starts** -/
theorem stop_le_start {e f : Edit} (he : e.span.start ≤ e.span.stop)
    (hf : f.span.start ≤ f.span.stop) (horder : e.span.notAfter f.span = true)
    (hfree : e.conflicts f = false) : e.span.stop ≤ f.span.start := by
  rw [Span.notAfter_iff] at horder
  unfold conflicts at hfree
  cases hei : e.isInsertion with
  | true =>
    -- an insertion ends where it starts
    have hempty : e.span.start = e.span.stop := by simpa [isInsertion, Span.isEmpty] using hei
    omega
  | false =>
    have hwide : e.span.start ≠ e.span.stop := by simpa [isInsertion, Span.isEmpty] using hei
    cases hfi : f.isInsertion with
    | true =>
      have hempty : f.span.start = f.span.stop := by simpa [isInsertion, Span.isEmpty] using hfi
      have hnotInside : ¬ (e.span.start < f.span.start ∧ f.span.start < e.span.stop) := by
        simpa [hei, hfi, strictlyInside] using hfree
      omega
    | false =>
      have hf' : f.span.start ≠ f.span.stop := by simpa [isInsertion, Span.isEmpty] using hfi
      have hapart : ¬ (e.span.start < f.span.stop ∧ f.span.start < e.span.stop) := by
        simpa [hei, hfi, Span.overlaps, Span.isEmpty, hwide] using hfree
      omega

end Edit

namespace EditSet

/-! ## adding keeps the order -/

/-- the edits are in order, and all of them can be made together -/
structure Ordered (s : EditSet) : Prop where
  sorted : Edit.Sorted s.edits
  compatible : Edit.Compatible s.edits

theorem insertSorted_perm (e : Edit) (es : List Edit) : (insertSorted e es).Perm (e :: es) := by
  have hsplit := List.takeWhile_append_dropWhile (p := fun f : Edit => f.span.notAfter e.span)
    (l := es)
  show (es.takeWhile _ ++ e :: es.dropWhile _).Perm (e :: es)
  refine List.perm_middle.trans ?_
  rw [hsplit]

/-- behind the first edit that comes after the new one, all come after it -/
theorem notAfter_of_mem_dropWhile {e f : Edit} {es : List Edit} (h : Edit.Sorted es)
    (hf : f ∈ es.dropWhile fun g => g.span.notAfter e.span) : e.span.notAfter f.span = true := by
  induction es with
  | nil => exact absurd hf List.not_mem_nil
  | cons g es ih =>
    obtain ⟨hg, hes⟩ := List.pairwise_cons.1 h
    by_cases hstop : g.span.notAfter e.span = true
    · rw [List.dropWhile_cons, if_pos hstop] at hf
      exact ih hes hf
    · rw [List.dropWhile_cons, if_neg hstop] at hf
      have hafter : e.span.notAfter g.span = true := Span.notAfter_total hstop
      rcases List.mem_cons.1 hf with rfl | hf
      · exact hafter
      · exact Span.notAfter_trans hafter (hg f hf)

theorem sorted_insertSorted {e : Edit} {es : List Edit} (h : Edit.Sorted es) :
    Edit.Sorted (insertSorted e es) := by
  have hfront : ∀ f ∈ es.takeWhile (fun g => g.span.notAfter e.span),
      f.span.notAfter e.span = true := List.all_eq_true.1 List.all_takeWhile
  have hback : ∀ f ∈ es.dropWhile (fun g => g.span.notAfter e.span),
      e.span.notAfter f.span = true := fun f hf => notAfter_of_mem_dropWhile h hf
  refine List.pairwise_append.2 ⟨h.sublist (List.takeWhile_sublist _), ?_, ?_⟩
  · exact List.pairwise_cons.2 ⟨hback, h.sublist (List.dropWhile_sublist _)⟩
  · intro f hf g hg
    rcases List.mem_cons.1 hg with rfl | hg
    · exact hfront f hf
    · exact Span.notAfter_trans (hfront f hf) (hback g hg)

theorem compatible_insertSorted {e : Edit} {es : List Edit} (h : Edit.Compatible es)
    (hnew : ∀ f ∈ es, f.conflicts e = false) : Edit.Compatible (insertSorted e es) := by
  have hsymm : ∀ {f g : Edit}, f.conflicts g = false → g.conflicts f = false := fun {f g} hfg => by
    rw [Edit.conflicts_comm]
    exact hfg
  have hcons : Edit.Compatible (e :: es) :=
    List.pairwise_cons.2 ⟨fun f hf => hsymm (hnew f hf), h⟩
  exact ((insertSorted_perm e es).pairwise_iff hsymm).2 hcons

theorem ordered_empty : empty.Ordered := ⟨List.Pairwise.nil, List.Pairwise.nil⟩

theorem Ordered.add {s s' : EditSet} {e : Edit} (h : s.Ordered) (ha : s.add e = .ok s') :
    s'.Ordered := by
  obtain ⟨hnew, rfl⟩ := (add_eq_ok_iff s s' e).1 ha
  exact ⟨sorted_insertSorted h.sorted, compatible_insertSorted h.compatible hnew⟩

theorem Ordered.addAll {s s' : EditSet} {es : List Edit} (h : s.Ordered)
    (ha : s.addAll es = .ok s') : s'.Ordered := by
  induction es generalizing s with
  | nil =>
    cases ha
    exact h
  | cons e es ih =>
    obtain ⟨s₁, hfirst, hrest⟩ := addAll_cons_ok ha
    exact ih (h.add hfirst) hrest

/-! ## requests -/

/-- a request to put one edit, or several at once, into a set -/
inductive Request where
  | add (e : Edit)
  | addAll (es : List Edit)

def Request.answer (s : EditSet) : Request → Except EditError EditSet
  | .add e => s.add e
  | .addAll es => s.addAll es

/-- the set behind a request; if that is refused, it is as it was -/
def serve (s : EditSet) (r : Request) : EditSet :=
  match r.answer s with
  | .ok s' => s'
  | .error _ => s

/-- the set that a number of requests make of the empty one -/
def ofRequests (rs : List Request) : EditSet := rs.foldl serve empty

theorem ordered_serve {s : EditSet} (h : s.Ordered) (r : Request) : (s.serve r).Ordered := by
  unfold serve
  cases hr : r.answer s with
  | error err => exact h
  | ok s' =>
    cases r with
    | add e => exact h.add hr
    | addAll es => exact h.addAll hr

theorem ordered_foldl {s : EditSet} (h : s.Ordered) (rs : List Request) :
    (rs.foldl serve s).Ordered := by
  induction rs generalizing s with
  | nil => exact h
  | cons r rs ih => exact ih (ordered_serve h r)

theorem ordered_ofRequests (rs : List Request) : (ofRequests rs).Ordered :=
  ordered_foldl ordered_empty rs

end EditSet

end RubyLint
