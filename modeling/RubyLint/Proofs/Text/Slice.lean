import RubyLint.Text.Bytes

/-!
# Slices of a text

An offset cuts a text if it stands between two of its characters or at one of its ends.

* `isBoundary_iff`    the text in front of such an offset is as long as the offset says;
* `slice_eq_some_iff` what the slice between two offsets is;
* `isSome_slice_iff`  there is one exactly if both cut the text and they stand in the right order;
* `slice_around`      what stands around a text does not matter to the slices of the text.
-/

namespace RubyLint.Text

theorem isBoundary_iff {cs : List Char} {n : Nat} :
    isBoundary cs n = true ↔ ∃ front back, cs = front ++ back ∧ byteLength front = n := by
  unfold isBoundary
  constructor
  · intro h
    obtain ⟨⟨front, back⟩, hsplit⟩ := Option.isSome_iff_exists.1 h
    exact ⟨front, back, splitAtByte_eq_some hsplit⟩
  · rintro ⟨front, back, rfl, rfl⟩
    rw [splitAtByte_append]
    rfl

theorem isBoundary_zero (cs : List Char) : isBoundary cs 0 = true :=
  isBoundary_iff.2 ⟨[], cs, rfl, rfl⟩

theorem isBoundary_byteLength (cs : List Char) : isBoundary cs (byteLength cs) = true :=
  isBoundary_iff.2 ⟨cs, [], (List.append_nil cs).symm, rfl⟩

theorem le_byteLength_of_isBoundary {cs : List Char} {n : Nat} (h : isBoundary cs n = true) :
    n ≤ byteLength cs := by
  obtain ⟨front, back, rfl, rfl⟩ := isBoundary_iff.1 h
  rw [byteLength_append]
  exact Nat.le_add_right _ _

theorem eq_nil_of_byteLength {cs : List Char} (h : byteLength cs = 0) : cs = [] := by
  cases cs with
  | nil => rfl
  | cons c cs =>
    have hc := c.utf8Size_pos
    rw [byteLength_cons] at h
    omega

/-- of two cuts of a text, the earlier one cuts what stands in front of the later one -/
theorem exists_append_of_byteLength_le {front back front' back' : List Char}
    (h : front ++ back = front' ++ back') (hle : byteLength front ≤ byteLength front') :
    ∃ middle, front' = front ++ middle ∧ back = middle ++ back' := by
  rcases List.append_eq_append_iff.1 h with ⟨middle, hfront, hback⟩ | ⟨extra, hfront, hback⟩
  · exact ⟨middle, hfront, hback⟩
  · rw [hfront, byteLength_append] at hle
    obtain rfl : extra = [] := eq_nil_of_byteLength (by omega)
    rw [List.append_nil] at hfront
    exact ⟨[], by rw [hfront, List.append_nil], hback.symm⟩

theorem slice_eq_some_iff {cs part : List Char} {start stop : Nat} : slice cs start stop = some part ↔
    ∃ front back, cs = front ++ (part ++ back) ∧ byteLength front = start ∧
      start + byteLength part = stop := by
  unfold slice
  constructor
  · intro h
    split at h
    · obtain ⟨⟨front, back⟩, hfront, h⟩ := Option.bind_eq_some_iff.1 h
      obtain ⟨⟨middle, rest⟩, hmiddle, h⟩ := Option.bind_eq_some_iff.1 h
      cases h
      obtain ⟨rfl, hstart⟩ := splitAtByte_eq_some hfront
      obtain ⟨rfl, hlength⟩ := splitAtByte_eq_some hmiddle
      exact ⟨front, rest, rfl, hstart, by omega⟩
    · cases h
  · rintro ⟨front, back, rfl, rfl, rfl⟩
    rw [if_pos (Nat.le_add_right _ _), splitAtByte_append, Nat.add_sub_cancel_left]
    show ((splitAtByte (part ++ back) (byteLength part)).bind fun r => some r.1) = some part
    rw [splitAtByte_append]
    rfl

theorem isSome_slice_iff {cs : List Char} {start stop : Nat} :
    (slice cs start stop).isSome = true ↔
      start ≤ stop ∧ isBoundary cs start = true ∧ isBoundary cs stop = true := by
  rw [Option.isSome_iff_exists]
  constructor
  · rintro ⟨part, hpart⟩
    obtain ⟨front, back, rfl, rfl, rfl⟩ := slice_eq_some_iff.1 hpart
    refine ⟨Nat.le_add_right _ _, isBoundary_iff.2 ⟨front, _, rfl, rfl⟩,
      isBoundary_iff.2 ⟨front ++ part, back, (List.append_assoc _ _ _).symm, ?_⟩⟩
    exact byteLength_append front part
  · rintro ⟨hle, hstart, hstop⟩
    obtain ⟨front, back, hcs, rfl⟩ := isBoundary_iff.1 hstart
    obtain ⟨front', back', hcs', rfl⟩ := isBoundary_iff.1 hstop
    obtain ⟨middle, rfl, rfl⟩ := exists_append_of_byteLength_le (hcs.symm.trans hcs') hle
    exact ⟨middle, slice_eq_some_iff.2 ⟨front, back', hcs, rfl, (byteLength_append front middle).symm⟩⟩

theorem slice_around (front back : List Char) {cs : List Char} {start stop : Nat}
    (h : stop ≤ byteLength cs) :
    slice (front ++ (cs ++ back)) (byteLength front + start) (byteLength front + stop) =
      slice cs start stop := by
  refine Option.ext fun part => ⟨fun hpart => ?_, fun hpart => ?_⟩
  · obtain ⟨before, behind, hcs, hstart, hstop⟩ := slice_eq_some_iff.1 hpart
    obtain ⟨before, rfl, hinner⟩ := exists_append_of_byteLength_le hcs (by omega)
    rw [byteLength_append] at hstart
    have hlength := byteLength_append before part
    rw [← List.append_assoc] at hinner
    obtain ⟨rest, rfl, -⟩ := exists_append_of_byteLength_le hinner.symm (by omega)
    exact slice_eq_some_iff.2 ⟨before, rest, List.append_assoc _ _ _, by omega, by omega⟩
  · obtain ⟨before, behind, rfl, rfl, rfl⟩ := slice_eq_some_iff.1 hpart
    refine slice_eq_some_iff.2 ⟨front ++ before, behind ++ back, ?_, byteLength_append _ _, ?_⟩
    · simp only [List.append_assoc]
    · exact Nat.add_assoc _ _ _

end RubyLint.Text
