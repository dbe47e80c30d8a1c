import RubyLint.Proofs.Edit.Splice
import RubyLint.Proofs.Run.Correction
import RubyLint.Proofs.Run.Inspection

/-!
# What a misbehaving rule can do to a correcting run

A rule may answer with anything.  What lies outside the node that it was asked about is dropped, so
that its edits stay inside the text; but an edit whose ends are in the wrong order passes as lying
inside the node if its first end comes after the start of the node and its last end before the end.

* `exists_answer_of_mem`   every reported offense comes from the answer of a rule, and lies inside
                           the node;
* `apply_of_round`         a round fails over an edit only where the collected edits cannot be made;
* `run_edit_error`         the errors over edits that a run can end with;
* `run_backwards`          an edit with its ends in the wrong order makes a run fail.
-/

namespace RubyLint

open Text (byteLength)

namespace Runner

section
variable {r : Runner} {parse : Parser}

/-! ## where offenses come from -/

theorem exists_report_of_mem {s : Suppressions} {t : SyntaxTree} {c : Bool} {ns : List (Node t)}
    {os : List Offense} (h : (r.visit s c ns).offenses? = some os) {o : Offense} (ho : o ∈ os) :
    ∃ n ∈ ns, o ∈ (r.reportOn s n).offenses := by
  induction ns generalizing c os with
  | nil =>
    cases h
    exact absurd ho List.not_mem_nil
  | cons n ns ih =>
    cases c with
    | true => cases h
    | false =>
      obtain ⟨behind, hbehind, rfl⟩ := Option.map_eq_some_iff.1 h
      rcases List.mem_append.1 ho with ho | ho
      · exact ⟨n, List.mem_cons_self, ho⟩
      · obtain ⟨m, hm, hreport⟩ := ih hbehind ho
        exact ⟨m, List.mem_cons_of_mem n hm, hreport⟩

/-- the rule has answered so about the node, and the offense has got through with its correction -/
structure Answered (r : Runner) {t : SyntaxTree} (n : Node t) (o : Offense) : Prop where
  exists_answer : ∃ a ∈ r.active, ∃ answered,
    (a.rule.evaluate r.config.context n).offenses = .ok answered ∧ o ∈ answered
  isInside : o.isInside n.span = true

/-- a rule that has been asked about the node has answered so, and the offense has got through -/
theorem exists_asked_of_report {s : Suppressions} {t : SyntaxTree} {n : Node t} {o : Offense}
    (ho : o ∈ (r.reportOn s n).offenses) :
    ∃ a ∈ r.active, n.kind ∈ a.rule.kinds ∧ a.rule.concerns n = true ∧
      ∃ answered, (a.rule.evaluate r.config.context n).offenses = .ok answered ∧
        ∃ o' ∈ answered, o'.isInside n.span = true ∧ o.correction = o'.correction := by
  obtain ⟨report, hreport, ho⟩ := List.mem_flatMap.1 ho
  obtain ⟨a, ha, rfl⟩ := List.mem_map.1 hreport
  rw [r.dispatch_eq, Dispatch.rulesFor_ofRules] at ha
  obtain ⟨b, hb, ha⟩ := List.mem_flatMap.1 ha
  obtain ⟨kind, hkind, rfl⟩ := List.mem_map.1 ha
  obtain ⟨hmem, heq⟩ := List.mem_filter.1 hkind
  obtain rfl : kind = n.kind := beq_iff_eq.1 heq
  rw [ActiveRule.offenses_report] at ho
  split at ho
  · next hconcerns =>
    unfold Config.answer at ho
    split at ho
    · exact absurd ho List.not_mem_nil
    · next answered hanswered =>
      obtain ⟨o', ho', rfl⟩ := List.mem_map.1 ho
      obtain ⟨hmem', hkept⟩ := List.mem_filter.1 ho'
      rw [Bool.and_eq_true] at hkept
      exact ⟨b, hb, hmem, hconcerns, answered, hanswered, o', hmem', hkept.1, rfl⟩
  · exact absurd ho List.not_mem_nil

theorem exists_answer_of_report {s : Suppressions} {t : SyntaxTree} {n : Node t} {o : Offense}
    (ho : o ∈ (r.reportOn s n).offenses) :
    ∃ o', r.Answered n o' ∧ o.correction = o'.correction := by
  obtain ⟨a, ha, -, -, answered, hanswered, o', hmem, hinside, hsame⟩ := exists_asked_of_report ho
  exact ⟨o', ⟨⟨a, ha, answered, hanswered, hmem⟩, hinside⟩, hsame⟩

theorem exists_answer_of_mem {t : SyntaxTree} {c : Bool} {os : List Offense}
    (h : (r.inspect t c).offenses? = some os) {o : Offense} (ho : o ∈ os) :
    ∃ n ∈ t.preorder, ∃ o', r.Answered n o' ∧ o.correction = o'.correction := by
  obtain ⟨n, hn, hreport⟩ := exists_report_of_mem h ho
  exact ⟨n, hn, exists_answer_of_report hreport⟩

/-! ## errors over edits -/

/-- a run fails over an edit only where the edits collected in a round cannot be made -/
theorem apply_of_round {p : Progress} {run : Run} {err : EditError}
    (h : r.round parse p = .ended run) (he : run.result = .error (.edit err)) :
    (Merge.ofOffenses p.pending).edits.apply p.current = .error err := by
  simp only [round] at h
  split at h
  · cases h
    cases he
  split at h
  · cases h
    cases he
  split at h
  · next happly =>
    cases h
    cases he
    exact happly
  split at h
  · cases h
    cases he
  split at h
  · cases h
    cases he
  split at h
  · cases h
    cases he
  · cases h

/-- a run that fails over an edit has found the offenses of a text whose edits cannot be made -/
theorem exists_apply_of_correctFrom {source : String} {earlier : List String} {p : Progress}
    {err : EditError} (hp : r.Consistent parse source earlier p)
    (h : (r.correctFrom parse p).result = .error (.edit err)) :
    ∃ text os, r.offensesOf? parse text = some os ∧
      (Merge.ofOffenses os).edits.apply text = .error err := by
  fun_induction r.correctFrom parse p generalizing earlier with
  | case1 p run hround => exact ⟨p.current, p.pending, hp.pending_eq, apply_of_round hround h⟩
  | case2 p q hround ih =>
    have hturn := r.turn_of_round parse hround
    exact ih (hp.pass hturn) h

theorem exists_apply_of_run {source : String} {c : Bool} {err : EditError}
    (h : (r.run parse .correct source c).result = .error (.edit err)) :
    ∃ text os, r.offensesOf? parse text = some os ∧
      (Merge.ofOffenses os).edits.apply text = .error err := by
  cases hparse : parse source with
  | error e =>
    simp only [run, hparse] at h
    cases h
  | ok tree =>
    cases hos : (r.inspect tree c).offenses? with
    | none =>
      simp only [run, hparse, hos] at h
      cases h
    | some os =>
      have hstart := Consistent.start (r.inspect tree c).cancelled
        (r.offensesOf?_of_inspect parse hparse hos)
      rw [run_correct_eq hparse hos] at h
      exact exists_apply_of_correctFrom hstart h

/-- an edit that cannot be made although it ends inside the text ends inside a character -/
theorem exists_insideCharacter {cs : List Char} {e : Edit} {err : EditError}
    (h : err.Blames cs e) (hle : e.span.start ≤ e.span.stop) (hstop : e.span.stop ≤ byteLength cs) :
    ∃ offset, err = .insideCharacter offset := by
  cases err with
  | overlap => exact h.elim
  | offsetOutOfBounds offset length =>
    obtain ⟨hoffset, rfl, hlt⟩ := h
    omega
  | inverted start stop =>
    obtain ⟨hspan, hlt⟩ := h
    rw [hspan] at hle
    exact absurd hlt (Nat.not_lt.2 hle)
  | insideCharacter offset => exact ⟨offset, rfl⟩

theorem contains_of_isInside {o : Offense} {bounds : Span} {c : Correction} {e : Edit}
    (h : o.isInside bounds = true) (hc : o.correction = some c) (he : e ∈ c.edits) :
    bounds.contains e.span = true := by
  unfold Offense.isInside at h
  rw [hc, Option.all_some, Bool.and_eq_true] at h
  exact List.all_eq_true.1 h.2 e he

end

/-- about a node of a text that parses, a rule answers with an edit whose ends are in the wrong
order, and what it answers is not dropped -/
def AnswersBackwards (r : Runner) (parse : Parser) : Prop :=
  ∃ text tree, parse text = .ok tree ∧ ∃ n ∈ tree.preorder, ∃ o c, r.Answered n o ∧
    o.correction = some c ∧ ∃ e ∈ c.edits, e.span.stop < e.span.start

/-- **A run over trees whose spans stay inside the text fails over an edit for one of two reasons:
an end of the edit lies inside a character, or a rule has answered with an edit whose ends are in
the wrong order.  It never fails over two edits that overlap.** -/
theorem run_edit_error (r : Runner) (parse : Parser) (source : String) (c : Bool) (err : EditError)
    (hspans : ∀ text tree, parse text = .ok tree → ∀ n ∈ tree.preorder,
      n.span.start ≤ n.span.stop ∧ n.span.stop ≤ byteLength text.toList)
    (h : (r.run parse .correct source c).result = .error (.edit err)) :
    (∃ offset, err = .insideCharacter offset) ∨
      r.AnswersBackwards parse ∧ ∀ existing new, err ≠ .overlap existing new := by
  obtain ⟨text, os, hos, happly⟩ := exists_apply_of_run h
  obtain ⟨tree, hparse, hinspect⟩ := r.inspect_of_offensesOf? parse hos
  have hfault : (Merge.ofOffenses os).edits.fault? text.toList = some err := by
    unfold EditSet.apply at happly
    split at happly
    · next err' hfault =>
      cases happly
      exact hfault
    · cases happly
  obtain ⟨e, he, hblames⟩ := (Merge.ordered_ofOffenses os).exists_blamed hfault
  obtain ⟨o, ho, correction, hcorrection, hedit⟩ := Merge.exists_offense_of_mem he
  obtain ⟨n, hn, o', hanswered, hsame⟩ := exists_answer_of_mem hinspect ho
  rw [hsame] at hcorrection
  have hinside := Span.contains_iff.1 (contains_of_isInside hanswered.isInside hcorrection hedit)
  have hbound := (hspans text tree hparse n hn).2
  by_cases hle : e.span.start ≤ e.span.stop
  · exact Or.inl (exists_insideCharacter hblames hle (by omega))
  · refine Or.inr ⟨⟨text, tree, hparse, n, hn, o', correction, hanswered, hcorrection, e, hedit,
      by omega⟩, ?_⟩
    rintro existing new rfl
    exact hblames

/-- a text as a tree of one node, which covers all of it -/
def wholeText : Parser := fun text =>
  let node : NodeData := ⟨.int, ⟨0, byteLength text.toList⟩, [], Loc.none⟩
  .ok ((Arena.empty.push node fun _ h => absurd h List.not_mem_nil).finish 0 Nat.one_pos text)

theorem wholeText_staysInside (text : String) (tree : SyntaxTree) (h : wholeText text = .ok tree)
    (n : Node tree) : n.span.start ≤ n.span.stop ∧ n.span.stop ≤ byteLength text.toList := by
  cases h
  obtain ⟨index, hindex⟩ := n
  obtain rfl : index = 0 := Nat.lt_one_iff.1 hindex
  exact ⟨Nat.zero_le _, Nat.le_refl _⟩

/-- replaces what stands between two offsets -/
def replacingBetween (start stop : Nat) : Runner :=
  ofRules [Rule.performance "Between" "replaces a span" [.int] fun _ n =>
    .ok (some (Finding.replacing n.span "between" ⟨start, stop⟩ "x"))] Config.standard

/-- the reason for the failed run is found by the theorem: the ends of the edit -/
theorem replacingBetween_answersBackwards : (replacingBetween 4 2).AnswersBackwards wholeText := by
  have hrun : ((replacingBetween 4 2).run wholeText .correct "12345" false).result =
      .error (.edit (.inverted 4 2)) := by
    decide +kernel
  have hspans : ∀ text tree, wholeText text = .ok tree → ∀ n ∈ tree.preorder,
      n.span.start ≤ n.span.stop ∧ n.span.stop ≤ byteLength text.toList :=
    fun text tree h n _ => wholeText_staysInside text tree h n
  rcases run_edit_error (replacingBetween 4 2) wholeText "12345" false (.inverted 4 2) hspans hrun
    with ⟨offset, h⟩ | ⟨h, -⟩
  · cases h
  · exact h

/-- **An edit from 4 to 2 lies inside the node from 0 to 5 as far as it is looked at, and makes the
run fail; so does one from 9 to 2, which starts outside the text.** -/
theorem run_backwards :
    (∀ text tree, wholeText text = .ok tree → ∀ n ∈ tree.preorder,
      n.span.start ≤ n.span.stop ∧ n.span.stop ≤ byteLength text.toList) ∧
    ((replacingBetween 4 2).run wholeText .correct "12345" false).result =
      .error (.edit (.inverted 4 2)) ∧
    ((replacingBetween 9 2).run wholeText .correct "12345" false).result =
      .error (.edit (.offsetOutOfBounds 9 5)) :=
  ⟨fun text tree h n _ => wholeText_staysInside text tree h n, by decide +kernel, by decide +kernel⟩

end Runner

end RubyLint
