import RubyLint.Proofs.Edit.Order
import RubyLint.Proofs.Text.Slice

/-!
# Making the edits of a set

* `Edit.Fits`              the edit can be made on a text, looked at by itself;
* `EditError.Blames`       the error is about one edit, and says what is wrong with it;
* `fault?_eq_findSome?`    the edits of an ordered set are at fault only one by one;
* `cutsFrom`               the slices of the text that stay between the edits;
* `isSome_slice_of_mem_cutsFrom`, `spliceFrom?_eq_some`  none of them is improper.
-/

namespace RubyLint

open Text (byteLength isBoundary slice)

namespace Edit

/-- the ends of the edit are in order, and both of them cut the text -/
def Fits (e : Edit) (cs : List Char) : Prop :=
  e.span.start ≤ e.span.stop ∧ isBoundary cs e.span.start = true ∧
    isBoundary cs e.span.stop = true

end Edit

/-- the error names an end of the edit that is out of bounds, its ends in the wrong order, or an end
inside a character; no other edit is involved -/
def EditError.Blames (cs : List Char) (e : Edit) : EditError → Prop
  | .overlap _ _ => False
  | .offsetOutOfBounds offset length =>
    (offset = e.span.start ∨ offset = e.span.stop) ∧ length = byteLength cs ∧ length < offset
  | .inverted start stop => e.span = ⟨start, stop⟩ ∧ stop < start
  | .insideCharacter offset =>
    (offset = e.span.start ∨ offset = e.span.stop) ∧ offset ≤ byteLength cs ∧
      isBoundary cs offset = false

namespace Edit

theorem fault?_eq_none_iff {e : Edit} {cs : List Char} : e.fault? cs = none ↔ e.Fits cs := by
  unfold fault? Fits
  constructor
  · intro h
    simp only at h
    split at h
    · cases h
    split at h
    · cases h
    split at h
    · cases h
    next hinverted =>
    split at h
    · cases h
    next hstart =>
    split at h
    · cases h
    next hstop =>
    exact ⟨Nat.not_lt.1 hinverted, by simpa using hstart, by simpa using hstop⟩
  · rintro ⟨hle, hstart, hstop⟩
    have hbound := Text.le_byteLength_of_isBoundary hstop
    have h₁ : ¬ byteLength cs < e.span.start := by omega
    have h₂ : ¬ byteLength cs < e.span.stop := by omega
    have h₃ : ¬ e.span.stop < e.span.start := by omega
    simp [h₁, h₂, h₃, hstart, hstop]

theorem blames_of_fault? {e : Edit} {cs : List Char} {err : EditError}
    (h : e.fault? cs = some err) : err.Blames cs e := by
  unfold fault? at h
  simp only at h
  split at h
  · next hlt =>
    cases h
    exact ⟨Or.inl rfl, rfl, hlt⟩
  next hstart =>
  split at h
  · next hlt =>
    cases h
    exact ⟨Or.inr rfl, rfl, hlt⟩
  next hstop =>
  split at h
  · next hlt =>
    cases h
    exact ⟨rfl, hlt⟩
  split at h
  · next hinside =>
    cases h
    exact ⟨Or.inl rfl, by omega, by simpa using hinside⟩
  split at h
  · next hinside =>
    cases h
    exact ⟨Or.inr rfl, by omega, by simpa using hinside⟩
  · cases h

end Edit

namespace EditSet

/-! ## faults -/

theorem faultFrom?_eq_findSome? {cs : List Char} {previous : Option Edit} {es : List Edit}
    (h : Edit.Compatible (previous.toList ++ es)) :
    faultFrom? cs previous es = es.findSome? fun e => e.fault? cs := by
  induction es generalizing previous with
  | nil => cases previous <;> rfl
  | cons e es ih =>
    have hrest : Edit.Compatible ((some e).toList ++ es) := (List.pairwise_append.1 h).2.1
    rw [List.findSome?_cons]
    cases hfault : e.fault? cs with
    | some err => cases previous <;> simp only [faultFrom?, hfault]
    | none =>
      cases previous with
      | none =>
        simp only [faultFrom?, hfault]
        exact ih hrest
      | some p =>
        have hfree : p.conflicts e = false :=
          (List.pairwise_append.1 h).2.2 p (List.mem_singleton_self p) e List.mem_cons_self
        simp only [faultFrom?, hfault, hfree, Bool.false_eq_true, if_false]
        exact ih hrest

theorem Ordered.fault?_eq_findSome? {s : EditSet} (h : s.Ordered) (cs : List Char) :
    s.fault? cs = s.edits.findSome? fun e => e.fault? cs :=
  @faultFrom?_eq_findSome? cs none s.edits h.compatible

theorem Ordered.exists_blamed {s : EditSet} (h : s.Ordered) {cs : List Char} {err : EditError}
    (hf : s.fault? cs = some err) : ∃ e ∈ s.edits, err.Blames cs e := by
  rw [h.fault?_eq_findSome?] at hf
  obtain ⟨e, he, hfault⟩ := List.exists_of_findSome?_eq_some hf
  exact ⟨e, he, Edit.blames_of_fault? hfault⟩

theorem Ordered.fault?_eq_none_iff {s : EditSet} (h : s.Ordered) {cs : List Char} :
    s.fault? cs = none ↔ ∀ e ∈ s.edits, e.Fits cs := by
  rw [h.fault?_eq_findSome?, List.findSome?_eq_none_iff]
  simp only [Edit.fault?_eq_none_iff]

theorem Ordered.pairwise_stop_le_start {s : EditSet} (h : s.Ordered) {cs : List Char}
    (hfit : ∀ e ∈ s.edits, e.Fits cs) :
    s.edits.Pairwise fun e f => e.span.stop ≤ f.span.start := by
  have hboth := List.pairwise_and_iff.2 ⟨h.sorted, h.compatible⟩
  refine hboth.imp_of_mem fun {e f} he hf hef => ?_
  exact Edit.stop_le_start (hfit e he).1 (hfit f hf).1 hef.1 hef.2

/-! ## slices -/

/-- the ends of the slices that stay between the edits, from the cursor on -/
def cutsFrom (cursor length : Nat) : List Edit → List (Nat × Nat)
  | [] => [(cursor, length)]
  | e :: es => (cursor, e.span.start) :: cutsFrom e.span.stop length es

/-- the text from the cursor on with the edits made, unless one of the slices is improper -/
def spliceFrom? (cs : List Char) (cursor : Nat) : List Edit → Option (List Char)
  | [] => slice cs cursor (byteLength cs)
  | e :: es => do
    let kept ← slice cs cursor e.span.start
    let rest ← spliceFrom? cs e.span.stop es
    return kept ++ e.replacement.toList ++ rest

theorem isSome_slice_of_mem_cutsFrom {cs : List Char} {cursor : Nat} {es : List Edit}
    (hcursor : isBoundary cs cursor = true) (hfit : ∀ e ∈ es, e.Fits cs)
    (hle : ∀ e ∈ es, cursor ≤ e.span.start)
    (hapart : es.Pairwise fun e f => e.span.stop ≤ f.span.start) :
    ∀ cut ∈ cutsFrom cursor (byteLength cs) es, (slice cs cut.1 cut.2).isSome = true := by
  induction es generalizing cursor with
  | nil =>
    intro cut hcut
    obtain rfl := List.mem_singleton.1 hcut
    exact Text.isSome_slice_iff.2 ⟨Text.le_byteLength_of_isBoundary hcursor, hcursor,
      Text.isBoundary_byteLength cs⟩
  | cons e es ih =>
    obtain ⟨hstart, hes⟩ := List.pairwise_cons.1 hapart
    obtain ⟨-, hfirst, hlast⟩ := hfit e List.mem_cons_self
    intro cut hcut
    rcases List.mem_cons.1 hcut with rfl | hcut
    · exact Text.isSome_slice_iff.2 ⟨hle e List.mem_cons_self, hcursor, hfirst⟩
    · exact ih hlast (fun f hf => hfit f (List.mem_cons_of_mem e hf)) hstart hes cut hcut

theorem between_eq_of_slice {cs part : List Char} {start stop : Nat}
    (h : slice cs start stop = some part) : between cs start stop = part := by
  rw [between, h]
  rfl

theorem spliceFrom?_eq_some {cs : List Char} {cursor : Nat} {es : List Edit}
    (h : ∀ cut ∈ cutsFrom cursor (byteLength cs) es, (slice cs cut.1 cut.2).isSome = true) :
    spliceFrom? cs cursor es = some (spliceFrom cs cursor es) := by
  induction es generalizing cursor with
  | nil =>
    obtain ⟨part, hpart⟩ := Option.isSome_iff_exists.1 (h _ List.mem_cons_self)
    rw [spliceFrom?, spliceFrom, between_eq_of_slice hpart]
    exact hpart
  | cons e es ih =>
    obtain ⟨part, hpart⟩ := Option.isSome_iff_exists.1 (h _ List.mem_cons_self)
    have hrest := ih fun cut hcut => h cut (List.mem_cons_of_mem _ hcut)
    rw [spliceFrom?, spliceFrom, between_eq_of_slice hpart, hpart, hrest]
    rfl

/-- **Whatever has been asked of it, a set holds edits in order and without conflicts.  Making them
fails only for an end of a single edit; where it does not fail, each edit ends before the next one
starts, and every slice of the text is proper.** -/
theorem ofRequests_sound (rs : List Request) (source : String) :
    Edit.Sorted (ofRequests rs).edits ∧ Edit.Compatible (ofRequests rs).edits ∧
    (∀ err, (ofRequests rs).fault? source.toList = some err →
      ∃ e ∈ (ofRequests rs).edits, err.Blames source.toList e) ∧
    ((ofRequests rs).fault? source.toList = none →
      ((ofRequests rs).edits.Pairwise fun e f => e.span.stop ≤ f.span.start) ∧
      (∀ cut ∈ cutsFrom 0 (byteLength source.toList) (ofRequests rs).edits,
        cut.1 ≤ cut.2 ∧ cut.2 ≤ byteLength source.toList ∧
          isBoundary source.toList cut.1 = true ∧ isBoundary source.toList cut.2 = true) ∧
      ∃ text, spliceFrom? source.toList 0 (ofRequests rs).edits = some text ∧
        (ofRequests rs).apply source = .ok (String.ofList text)) := by
  have hordered := ordered_ofRequests rs
  refine ⟨hordered.sorted, hordered.compatible, fun err => hordered.exists_blamed, fun hnone => ?_⟩
  have hfit := hordered.fault?_eq_none_iff.1 hnone
  have hapart := hordered.pairwise_stop_le_start hfit
  have hslices := isSome_slice_of_mem_cutsFrom (Text.isBoundary_zero source.toList) hfit
    (fun e _ => Nat.zero_le e.span.start) hapart
  refine ⟨hapart, fun cut hcut => ?_, _, spliceFrom?_eq_some hslices, ?_⟩
  · obtain ⟨hle, hstart, hstop⟩ := Text.isSome_slice_iff.1 (hslices cut hcut)
    exact ⟨hle, Text.le_byteLength_of_isBoundary hstop, hstart, hstop⟩
  · rw [apply, hnone]

/-- an insertion where a replacement starts; then a request that is refused, and one of which a part
is refused -/
def besideReplacement : List Request :=
  [.add ⟨⟨2, 4⟩, "XY"⟩, .add (.insert 2 "!"), .add ⟨⟨3, 5⟩, "Z"⟩,
    .addAll [.remove ⟨0, 1⟩, .insert 3 "?"]]

/-- an edit with its ends in the wrong order gets into a set, but cannot be made -/
def backwards : List Request := [.add ⟨⟨0, 1⟩, "x"⟩, .add ⟨⟨5, 3⟩, "y"⟩]

theorem besideReplacement_spliced :
    (ofRequests besideReplacement).apply "abcdef" = .ok "ab!XYef" ∧
    (∀ e ∈ (ofRequests besideReplacement).edits, ∀ f ∈ (ofRequests besideReplacement).edits,
      e.span.start < f.span.start → e.span.stop ≤ f.span.start) ∧
    ∃ e ∈ (ofRequests backwards).edits,
      (EditError.inverted 5 3).Blames "abcdef".toList e := by
  obtain ⟨-, -, -, hmade⟩ := ofRequests_sound besideReplacement "abcdef"
  obtain ⟨-, -, text, htext, happly⟩ := hmade (by decide +kernel)
  have hsplice : spliceFrom? "abcdef".toList 0 (ofRequests besideReplacement).edits =
      some "ab!XYef".toList := by
    decide +kernel
  obtain rfl : text = "ab!XYef".toList := Option.some.inj (htext.symm.trans hsplice)
  refine ⟨by rw [happly, String.ofList_toList], by decide +kernel, ?_⟩
  exact (ofRequests_sound backwards "abcdef").2.2.1 _ (by decide +kernel)

end EditSet

end RubyLint
