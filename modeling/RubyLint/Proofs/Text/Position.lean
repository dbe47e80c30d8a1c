import Mathlib.Data.List.Induction
import RubyLint.Proofs.Suppression.Range
import RubyLint.Proofs.Text.Slice
import RubyLint.Rule.Basic

/-!
# What a position counts

A position is read off the characters that start before an offset: its line counts the line feeds among
them, its column the characters behind the last of these.

* `isBefore_foldl_after`   every character moves the position on;
* `foldl_after_first`      what has been counted behind some characters;
* `line_advance`           inside a line, also between the bytes of a character, the line stays;
* `positionOf_numbers`     positions grow with the offsets, and their lines are the numbers by which the
                           comments of the text count.
-/

namespace RubyLint.Text

/-! ## the order of positions -/

namespace Position

/-- it is on an earlier line, or on the same line at an earlier column -/
def IsBefore (p q : Position) : Prop := p.line < q.line ∨ p.line = q.line ∧ p.column < q.column

variable {p q r : Position}

theorem IsBefore.trans (h : p.IsBefore q) (h' : q.IsBefore r) : p.IsBefore r := by
  unfold IsBefore at *
  omega

theorem not_isBefore_self (p : Position) : ¬ p.IsBefore p := by
  unfold IsBefore
  omega

theorem isBefore_after (p : Position) (c : Char) : p.IsBefore (p.after c) := by
  unfold after
  split
  · exact .inl (Nat.lt_succ_self _)
  · exact .inr ⟨rfl, Nat.lt_succ_self _⟩

theorem isBefore_foldl_after (p : Position) {cs : List Char} (h : cs ≠ []) :
    p.IsBefore (cs.foldl after p) := by
  induction cs generalizing p with
  | nil => exact absurd rfl h
  | cons c cs ih =>
    have hc := p.isBefore_after c
    by_cases hcs : cs = []
    · subst hcs
      exact hc
    · exact hc.trans (ih (p.after c) hcs)

/-! ## what is counted -/

/-- the characters behind the last line feed -/
def sinceLineFeed (cs : List Char) : List Char := (cs.reverse.takeWhile (· != '\n')).reverse

theorem sinceLineFeed_concat (cs : List Char) (c : Char) :
    sinceLineFeed (cs ++ [c]) = if c = '\n' then [] else sinceLineFeed cs ++ [c] := by
  unfold sinceLineFeed
  rw [List.reverse_concat, List.takeWhile_cons]
  by_cases hc : c = '\n'
  · subst hc
    rfl
  · rw [if_neg hc, if_pos (bne_iff_ne.2 hc), List.reverse_cons]

theorem foldl_after_first (cs : List Char) :
    cs.foldl after first = ⟨1 + cs.count '\n', 1 + (sinceLineFeed cs).length⟩ := by
  induction cs using List.reverseRecOn with
  | nil => rfl
  | append_singleton cs c ih =>
    rw [List.foldl_append, List.foldl_cons, List.foldl_nil, ih, List.count_append,
      sinceLineFeed_concat, after]
    by_cases hc : c = '\n'
    · subst hc
      rfl
    · rw [if_neg hc, if_neg hc, List.count_singleton, if_neg (mt beq_iff_eq.1 hc), List.length_append]
      rfl

theorem advance_append_add (p : Position) (front back : List Char) (n : Nat) :
    p.advance (front ++ back) (byteLength front + n) = (front.foldl after p).advance back n := by
  induction front generalizing p with
  | nil => rw [List.nil_append, byteLength_nil, Nat.zero_add]; rfl
  | cons c front ih =>
    have hpos := c.utf8Size_pos
    have hne : byteLength (c :: front) + n ≠ 0 := by rw [byteLength_cons]; omega
    have hsub : byteLength (c :: front) + n - c.utf8Size = byteLength front + n := by
      rw [byteLength_cons]; omega
    rw [List.cons_append, advance, if_neg hne, hsub, ih]
    rfl

/-- the line is the same at every offset in some characters without a line feed -/
theorem line_advance {cs : List Char} (h : '\n' ∉ cs) (p : Position) (back : List Char) {n : Nat}
    (hn : n ≤ byteLength cs) : (p.advance (cs ++ back) n).line = p.line := by
  induction cs generalizing p n with
  | nil =>
    obtain rfl : n = 0 := Nat.le_zero.1 hn
    rw [advance_zero]
  | cons c cs ih =>
    rw [List.cons_append, advance]
    split
    · rfl
    · have hc : c ≠ '\n' := fun hc => h (hc ▸ List.mem_cons_self)
      have hline : (p.after c).line = p.line := by rw [after, if_neg hc]
      rw [byteLength_cons] at hn
      rw [ih (fun hmem => h (List.mem_cons_of_mem _ hmem)) _ (by omega), hline]

end Position

section
variable {cs : List Char} {m n : Nat}

theorem positionOf_append (front back : List Char) : positionOf (front ++ back) (byteLength front) =
    ⟨1 + front.count '\n', 1 + (Position.sinceLineFeed front).length⟩ := by
  rw [positionOf, Position.advance_append, Position.foldl_after_first]

theorem isBefore_positionOf (hm : isBoundary cs m = true) (hn : isBoundary cs n = true) (h : m < n) :
    (positionOf cs m).IsBefore (positionOf cs n) := by
  obtain ⟨front, back, hcs, rfl⟩ := isBoundary_iff.1 hm
  obtain ⟨front', back', hcs', rfl⟩ := isBoundary_iff.1 hn
  obtain ⟨middle, rfl, rfl⟩ := exists_append_of_byteLength_le (hcs.symm.trans hcs') (Nat.le_of_lt h)
  have hmiddle : middle ≠ [] := by
    rintro rfl
    rw [List.append_nil] at h
    exact Nat.lt_irrefl _ h
  rw [positionOf, positionOf, hcs, Position.advance_append, ← List.append_assoc,
    Position.advance_append, List.foldl_append]
  exact Position.isBefore_foldl_after _ hmiddle

theorem eq_of_positionOf_eq (hm : isBoundary cs m = true) (hn : isBoundary cs n = true)
    (h : positionOf cs m = positionOf cs n) : m = n := by
  rcases Nat.lt_trichotomy m n with hlt | heq | hlt
  · exact absurd (h ▸ isBefore_positionOf hm hn hlt) (Position.not_isBefore_self _)
  · exact heq
  · exact absurd (h ▸ isBefore_positionOf hn hm hlt) (Position.not_isBefore_self _)

end

/-! ## the lines of offenses -/

section
variable {ls before behind : List Line} {l : Line} {cs : List Char}

theorem IsLinesOf.count_whole (h : IsLinesOf ls cs) (hls : ls = before ++ l :: behind)
    (hbehind : behind ≠ []) : l.whole.count '\n' = 1 := by
  have htext : l.text.count '\n' = 0 :=
    List.count_eq_zero.2 (h.single l (hls ▸ List.mem_append_right _ List.mem_cons_self))
  rw [Line.whole, List.count_append, htext]
  obtain hending | hending | ⟨-, hnil⟩ := h.ended before l behind hls
  · rw [hending]
    rfl
  · rw [hending]
    rfl
  · exact absurd hnil hbehind

theorem IsLinesOf.count_front (h : IsLinesOf ls cs) (hls : ls = before ++ l :: behind) :
    (before.flatMap Line.whole).count '\n' = before.length := by
  have hone : ∀ l' ∈ before, l'.whole.count '\n' = 1 := by
    intro l' hmem
    obtain ⟨front, middle, rfl⟩ := List.append_of_mem hmem
    rw [List.append_assoc, List.cons_append] at hls
    exact h.count_whole hls (List.append_ne_nil_of_right_ne_nil _ (List.cons_ne_nil _ _))
  clear hls
  induction before with
  | nil => rfl
  | cons l' before ih =>
    obtain ⟨hl', hbefore⟩ := List.forall_mem_cons.1 hone
    rw [List.flatMap_cons, List.count_append, hl', ih hbefore, List.length_cons, Nat.add_comm]

theorem IsLinesOf.line_positionOf (h : IsLinesOf ls cs) (hls : ls = before ++ l :: behind) {offset : Nat}
    (hstart : byteLength (before.flatMap Line.whole) ≤ offset)
    (hstop : offset ≤ byteLength (before.flatMap Line.whole) + byteLength l.text) :
    (positionOf cs offset).line = before.length + 1 := by
  obtain ⟨n, rfl⟩ := Nat.exists_eq_add_of_le hstart
  have hcs : cs = before.flatMap Line.whole ++ (l.text ++ (l.ending ++ behind.flatMap Line.whole)) := by
    rw [← h.whole, hls, List.flatMap_append, List.flatMap_cons, Line.whole, List.append_assoc]
  have hsingle : '\n' ∉ l.text := h.single l (hls ▸ List.mem_append_right _ List.mem_cons_self)
  rw [positionOf, hcs, Position.advance_append_add, Position.line_advance hsingle _ _ (by omega),
    Position.foldl_after_first, h.count_front hls, Nat.add_comm]

end

/-- **Positions and lines.**  On the boundaries of characters positions grow with the offsets, and so
they are distinct; a position counts the line feeds in front of it and the characters behind the last of
them.  What starts inside a line of the text is reported on that line, with the number by which the
comments of the text count it, so that it is suppressed if a name that covers the rule is disabled there. -/
theorem positionOf_numbers (cs : List Char) :
    (∀ m n, isBoundary cs m = true → isBoundary cs n = true → m < n →
      (positionOf cs m).IsBefore (positionOf cs n)) ∧
    (∀ m n, isBoundary cs m = true → isBoundary cs n = true →
      positionOf cs m = positionOf cs n → m = n) ∧
    (∀ front back, cs = front ++ back → positionOf cs (byteLength front) =
      ⟨1 + front.count '\n', 1 + (Position.sinceLineFeed front).length⟩) ∧
    (∃ ls, IsLinesOf ls cs) ∧
    ∀ ls, IsLinesOf ls cs → ∀ before l behind, ls = before ++ l :: behind →
      ∀ offset, byteLength (before.flatMap Line.whole) ≤ offset →
        offset ≤ byteLength (before.flatMap Line.whole) + byteLength l.text →
        (positionOf cs offset).line = before.length + 1 ∧
        ∀ (f : Finding) (rule : String) (severity : Severity), f.span.start = offset →
          ((Suppressions.ofText cs).isSuppressed rule (f.toOffense rule severity cs).position.line =
              true ↔
            ∃ name, SuppressedRange.Covers name rule ∧
              Suppressions.IsDisabled (lines cs) name (before.length + 1)) := by
  refine ⟨fun m n => isBefore_positionOf, fun m n => eq_of_positionOf_eq, ?_, exists_isLinesOf cs, ?_⟩
  · rintro front back rfl
    exact positionOf_append front back
  · intro ls hlines before l behind hls offset hstart hstop
    have hline := hlines.line_positionOf hls hstart hstop
    refine ⟨hline, fun f rule severity hf => ?_⟩
    have hreported : (f.toOffense rule severity cs).position.line = before.length + 1 := by
      rw [Finding.toOffense, hf, hline]
    rw [hreported]
    exact (Suppressions.readFrom_ofText cs).suppresses_iff rule _

/-- a character of two bytes in front of a carriage return, an empty line, and a last line that no line
feed ends -/
def threeLines : List Char := "é\r\n\nx.size # rubocop:disable all".toList

theorem threeLines_isLinesOf : IsLinesOf
    [⟨['é'], ['\r', '\n']⟩, ⟨[], ['\n']⟩, ⟨"x.size # rubocop:disable all".toList, []⟩] threeLines where
  texts := by decide
  whole := by decide
  single := by decide
  ended before l behind h := by
    match before, h with
    | [], h =>
      cases h
      exact .inr (.inl rfl)
    | [_], h =>
      cases h
      exact .inl rfl
    | [_, _], h =>
      cases h
      exact .inr (.inr ⟨rfl, rfl⟩)
    | _ :: _ :: _ :: _, h => simp at h

/-- The third line starts behind five bytes; the offset one stands between the bytes of a character. -/
theorem threeLines_numbers :
    isBoundary threeLines 0 = true ∧ isBoundary threeLines 5 = true ∧
    (positionOf threeLines 0).IsBefore (positionOf threeLines 5) ∧
    positionOf threeLines 0 ≠ positionOf threeLines 5 ∧
    positionOf threeLines 7 = ⟨3, 3⟩ ∧ (positionOf threeLines 1).line = 1 ∧
    (Suppressions.ofText threeLines).isSuppressed "Performance/Size"
      ((Finding.plain ⟨5, 11⟩ "").toOffense "Performance/Size" .warning threeLines).position.line =
        true := by
  obtain ⟨hbefore, hdistinct, hcounts, -, hlines⟩ := positionOf_numbers threeLines
  have hzero : isBoundary threeLines 0 = true := by decide
  have hfive : isBoundary threeLines 5 = true := by decide
  refine ⟨hzero, hfive, hbefore 0 5 hzero hfive (by decide), fun heq => ?_, ?_, ?_, ?_⟩
  · exact absurd (hdistinct 0 5 hzero hfive heq) (by decide)
  · exact hcounts "é\r\n\nx.".toList "size # rubocop:disable all".toList (by decide)
  · exact (hlines _ threeLines_isLinesOf [] _ _ rfl 1 (by decide) (by decide)).1
  · obtain ⟨-, hsuppressed⟩ := hlines _ threeLines_isLinesOf [_, _] _ [] rfl 5 (by decide) (by decide)
    refine (hsuppressed _ "Performance/Size" .warning rfl).2 ⟨"all", .inl rfl, .inl ?_⟩
    refine ⟨by decide, "x.size # rubocop:disable all".toList, by decide, ?_⟩
    rw [Directive.carries_iff]
    exact ⟨⟨true, ["all"], true⟩, by decide +kernel, rfl, rfl, by decide⟩

end RubyLint.Text
