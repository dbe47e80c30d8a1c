import RubyLint.Proofs.Suppression.Directive

/-!
# On which lines a rule is suppressed

Reading the lines keeps closed ranges and opened names; `Suppressions.Progress.Spans` says which
lines they stand for.  `IsDisabled` says the same of the lines themselves: a name is disabled on a
line by that line, or by an earlier one with no line between them that enables the name.  A line that
is read changes both in the same way.

* `spans_readLine`, `isDisabled_concat`   what one more line changes, on either side;
* `Reading.spans_iff`                     the two are the same after any number of lines, in
                                          whatever order ranges and names are kept;
* `isSuppressed_iff`                      a rule is suppressed where a name that covers it is
                                          disabled, whatever stands behind the line.
-/

namespace RubyLint

/-! ## names that cover a rule -/

namespace SuppressedRange

/-- the name is everything, the rule's identifier, or what stands in front of its first slash -/
def Covers (name rule : String) : Prop :=
  name = Directive.everything ∨ name = rule ∨
    ∃ rest, rule.toList = name.toList ++ '/' :: rest ∧ '/' ∉ name.toList

theorem isDepartment_iff {name rule : String} :
    (rule.toList.contains '/' && String.ofList (rule.toList.takeWhile (· != '/')) == name) = true ↔
      ∃ rest, rule.toList = name.toList ++ '/' :: rest ∧ '/' ∉ name.toList := by
  rw [Bool.and_eq_true, List.contains_iff_mem, beq_iff_eq]
  constructor
  · rintro ⟨hslash, hname⟩
    obtain ⟨front, rest, hrule, hfront⟩ := List.eq_append_cons_of_mem hslash
    rw [hrule, Text.takeWhile_ne_append hfront] at hname
    subst hname
    rw [String.toList_ofList]
    exact ⟨rest, hrule, hfront⟩
  · rintro ⟨rest, hrule, hname⟩
    rw [hrule, Text.takeWhile_ne_append hname, String.ofList_toList]
    exact ⟨List.mem_append_right _ List.mem_cons_self, rfl⟩

theorem covers_iff {name rule : String} : covers name rule = true ↔ Covers name rule := by
  unfold covers Covers
  rw [Bool.or_eq_true, Bool.or_eq_true, isDepartment_iff, beq_iff_eq, beq_iff_eq, or_assoc]

/-- the line is in the range, which is of that name -/
def Spans (r : SuppressedRange) (name : String) (line : Nat) : Prop :=
  r.name = name ∧ r.first ≤ line ∧ ∀ last ∈ r.last, line ≤ last

theorem holds_iff {r : SuppressedRange} {rule : String} {line : Nat} :
    r.holds rule line = true ↔ ∃ name, Covers name rule ∧ r.Spans name line := by
  unfold holds Spans
  simp only [Bool.and_eq_true, decide_eq_true_eq, Option.all_eq_true, covers_iff]
  constructor
  · rintro ⟨⟨hfirst, hlast⟩, hcovers⟩
    exact ⟨r.name, hcovers, rfl, hfirst, hlast⟩
  · rintro ⟨name, hcovers, rfl, hfirst, hlast⟩
    exact ⟨⟨hfirst, hlast⟩, hcovers⟩

end SuppressedRange

/-! ## what a line enables -/

def Directive.Enables (line : List Char) (name : String) : Prop :=
  ∃ trailing, Carries line false trailing name ∨ Carries line false trailing everything

section
variable {line : List Char} {disables trailing : Bool} {name : String}

theorem Directive.carries_of_ofLine? {d : Directive} (h : ofLine? line = some d) :
    Carries line disables trailing name ↔
      d.disables = disables ∧ d.isTrailing = trailing ∧ name ∈ d.names := by
  rw [carries_iff, h]
  simp only [Option.some.injEq, exists_eq_left']

theorem Directive.not_carries (h : ofLine? line = none) :
    ¬ Carries line disables trailing name := by
  rw [carries_iff, h]
  rintro ⟨d, hd, -⟩
  cases hd

theorem Directive.enables_of_ofLine? {d : Directive} (h : ofLine? line = some d) :
    Enables line name ↔ d.disables = false ∧ (name ∈ d.names ∨ everything ∈ d.names) := by
  unfold Enables
  simp only [carries_of_ofLine? h]
  constructor
  · rintro ⟨t, ⟨hd, -, hn⟩ | ⟨hd, -, hn⟩⟩
    · exact ⟨hd, .inl hn⟩
    · exact ⟨hd, .inr hn⟩
  · rintro ⟨hd, hn | hn⟩
    · exact ⟨_, .inl ⟨hd, rfl, hn⟩⟩
    · exact ⟨_, .inr ⟨hd, rfl, hn⟩⟩

theorem Directive.not_enables (h : ofLine? line = none) : ¬ Enables line name := by
  rintro ⟨t, hc | hc⟩
  · exact not_carries h hc
  · exact not_carries h hc

end

namespace Suppressions

/-! ## the lines that ranges and names stand for -/

namespace Progress

/-- the line is in a closed range of the name, or the name has been opened on it or before -/
def Spans (p : Progress) (name : String) (line : Nat) : Prop :=
  (∃ r ∈ p.ranges, r.Spans name line) ∨ ∃ first, (name, first) ∈ p.opened ∧ first ≤ line

/-- the ranges end on the line or before, and the names have been opened on it or before -/
structure Within (p : Progress) (line : Nat) : Prop where
  ranges : ∀ r ∈ p.ranges, ∃ last ∈ r.last, last ≤ line
  opened : ∀ o ∈ p.opened, o.2 ≤ line

variable {p q : Progress} {number line : Nat} {name : String}

theorem Within.mono {number' : Nat} (h : p.Within number) (hle : number ≤ number') :
    p.Within number' where
  ranges r hr := by
    obtain ⟨last, hlast, hbound⟩ := h.ranges r hr
    exact ⟨last, hlast, Nat.le_trans hbound hle⟩
  opened o ho := Nat.le_trans (h.opened o ho) hle

/-! ### disabling -/

theorem Within.disable (h : p.Within number) (opens : String) :
    (p.disable number opens).Within number := by
  unfold Progress.disable
  split
  · exact h
  · refine ⟨h.ranges, fun o ho => ?_⟩
    rcases List.mem_append.1 ho with ho | ho
    · exact h.opened o ho
    · rw [List.mem_singleton.1 ho]

theorem spans_disable (h : p.Within number) (opens : String) :
    (p.disable number opens).Spans name line ↔
      p.Spans name line ∨ name = opens ∧ number ≤ line := by
  unfold Progress.disable
  split
  · next hany =>
    -- the name has been opened before, so the new range is part of the one that is open
    refine ⟨.inl, fun hspans => hspans.elim id ?_⟩
    rintro ⟨rfl, hle⟩
    obtain ⟨⟨n, first⟩, hmem, heq⟩ := List.any_eq_true.1 hany
    obtain rfl : n = name := beq_iff_eq.1 heq
    exact .inr ⟨first, hmem, Nat.le_trans (h.opened _ hmem) hle⟩
  · unfold Spans
    rw [or_assoc]
    refine or_congr_right ?_
    simp only [List.mem_append, List.mem_singleton, Prod.mk.injEq]
    constructor
    · rintro ⟨first, hmem | ⟨rfl, rfl⟩, hle⟩
      · exact .inl ⟨first, hmem, hle⟩
      · exact .inr ⟨rfl, hle⟩
    · rintro (⟨first, hmem, hle⟩ | ⟨rfl, hle⟩)
      · exact ⟨first, .inl hmem, hle⟩
      · exact ⟨number, .inr ⟨rfl, rfl⟩, hle⟩

theorem Within.foldl_disable (h : p.Within number) (names : List String) :
    (names.foldl (fun p name => p.disable number name) p).Within number := by
  induction names generalizing p with
  | nil => exact h
  | cons n names ih => exact ih (h.disable n)

theorem spans_foldl_disable (h : p.Within number) (names : List String) :
    (names.foldl (fun p name => p.disable number name) p).Spans name line ↔
      p.Spans name line ∨ name ∈ names ∧ number ≤ line := by
  induction names generalizing p with
  | nil => simp
  | cons n names ih =>
    rw [List.foldl_cons, ih (h.disable n), spans_disable h, List.mem_cons, or_assoc, or_and_right]

/-! ### a range of one line -/

def disableOn (p : Progress) (number : Nat) (names : List String) : Progress :=
  { p with ranges := p.ranges ++ names.map fun name => ⟨name, number, some number⟩ }

theorem Within.disableOn (h : p.Within number) (names : List String) :
    (p.disableOn number names).Within number := by
  refine ⟨fun r hr => ?_, h.opened⟩
  rcases List.mem_append.1 hr with hr | hr
  · exact h.ranges r hr
  · obtain ⟨n, -, rfl⟩ := List.mem_map.1 hr
    exact ⟨number, rfl, Nat.le_refl _⟩

theorem spans_disableOn (names : List String) :
    (p.disableOn number names).Spans name line ↔
      p.Spans name line ∨ name ∈ names ∧ line = number := by
  unfold disableOn Spans
  simp only [List.mem_append, List.mem_map]
  constructor
  · rintro (⟨r, hr | ⟨n, hn, rfl⟩, hspans⟩ | hopened)
    · exact .inl (.inl ⟨r, hr, hspans⟩)
    · obtain ⟨rfl, hfirst, hlast⟩ := hspans
      exact .inr ⟨hn, Nat.le_antisymm (hlast _ rfl) hfirst⟩
    · exact .inl (.inr hopened)
  · rintro ((⟨r, hr, hspans⟩ | hopened) | ⟨hn, rfl⟩)
    · exact .inl ⟨r, .inl hr, hspans⟩
    · exact .inr hopened
    · refine .inl ⟨⟨name, line, some line⟩, .inr ⟨name, hn, rfl⟩, rfl, Nat.le_refl _, ?_⟩
      intro last hlast
      exact Nat.le_of_eq (Option.some.inj hlast)

/-! ### enabling -/

theorem enable_eq (picked : String → Bool) :
    p.enable number picked =
      ⟨p.ranges ++ (p.opened.filter fun o => picked o.1).map fun o => ⟨o.1, o.2, some number⟩,
        p.opened.filter fun o => !picked o.1⟩ := by
  unfold enable
  rw [List.partition_eq_filter_filter]
  rfl

theorem Within.enable (h : p.Within number) (picked : String → Bool) :
    (p.enable number picked).Within number := by
  rw [enable_eq]
  refine ⟨fun r hr => ?_, fun o ho => h.opened o (List.mem_filter.1 ho).1⟩
  rcases List.mem_append.1 hr with hr | hr
  · exact h.ranges r hr
  · obtain ⟨o, -, rfl⟩ := List.mem_map.1 hr
    exact ⟨number, rfl, Nat.le_refl _⟩

theorem spans_enable (h : p.Within number) (picked : String → Bool) :
    (p.enable number picked).Spans name line ↔
      p.Spans name line ∧ (picked name = true → line ≤ number) := by
  rw [enable_eq]
  unfold Spans
  simp only [List.mem_append, List.mem_map, List.mem_filter]
  constructor
  · rintro (⟨r, hr | ⟨o, ⟨ho, hpicked⟩, rfl⟩, hspans⟩ | ⟨first, ⟨ho, hpicked⟩, hle⟩)
    · obtain ⟨last, hlast, hbound⟩ := h.ranges r hr
      exact ⟨.inl ⟨r, hr, hspans⟩, fun _ => Nat.le_trans (hspans.2.2 last hlast) hbound⟩
    · obtain ⟨rfl, hfirst, hlast⟩ := hspans
      exact ⟨.inr ⟨o.2, ho, hfirst⟩, fun _ => hlast _ rfl⟩
    · refine ⟨.inr ⟨first, ho, hle⟩, fun hp => ?_⟩
      rw [hp] at hpicked
      cases hpicked
  · rintro ⟨⟨r, hr, hspans⟩ | ⟨first, ho, hle⟩, hpicked⟩
    · exact .inl ⟨r, .inl hr, hspans⟩
    · cases hp : picked name with
      | true =>
        refine .inl ⟨⟨name, first, some number⟩, .inr ⟨(name, first), ⟨ho, hp⟩, rfl⟩, rfl, hle, ?_⟩
        intro last hlast
        exact Option.some.inj hlast ▸ hpicked hp
      | false => exact .inr ⟨first, ⟨ho, rfl⟩, hle⟩

/-! ### one line -/

def readLine (p : Progress) (number : Nat) (text : List Char) : Progress :=
  match Directive.ofLine? text with
  | some d => p.apply number d
  | none => p

theorem readLines_cons (text : List Char) (rest : List (List Char)) :
    p.readLines number (text :: rest) = (p.readLine number text).readLines (number + 1) rest := by
  cases h : Directive.ofLine? text with
  | some d => simp only [readLines, readLine, h]
  | none => simp only [readLines, readLine, h]

theorem apply_eq (d : Directive) :
    p.apply number d =
      if d.disables = false then
        p.enable number fun name => d.names.contains Directive.everything || d.names.contains name
      else if d.isTrailing = true then p.disableOn number d.names
      else d.names.foldl (fun p name => p.disable number name) p := by
  unfold apply
  cases d.disables <;> rfl

theorem Within.readLine (h : p.Within number) (text : List Char) :
    (p.readLine number text).Within number := by
  unfold Progress.readLine
  cases Directive.ofLine? text with
  | none => exact h
  | some d =>
    simp only [apply_eq]
    split
    · exact h.enable _
    split
    · exact h.disableOn _
    · exact h.foldl_disable _

/-- **One more line.**  What it enables ends on it; what it disables is added, on the line alone if
the comment is trailing. -/
theorem spans_readLine (h : p.Within number) (text : List Char) :
    (p.readLine number text).Spans name line ↔
      p.Spans name line ∧ (Directive.Enables text name → line ≤ number) ∨
      Directive.Carries text true true name ∧ line = number ∨
      Directive.Carries text true false name ∧ number ≤ line := by
  unfold readLine
  cases hd : Directive.ofLine? text with
  | none =>
    simp [Directive.not_enables hd, Directive.not_carries hd]
  | some d =>
    simp only [apply_eq, Directive.enables_of_ofLine? hd, Directive.carries_of_ofLine? hd]
    cases hdisables : d.disables with
    | false =>
      simp only [if_true, spans_enable h]
      simp [or_comm]
    | true =>
      cases htrailing : d.isTrailing with
      | true => simp [spans_disableOn]
      | false => simp [spans_foldl_disable h]

end Progress

/-! ## what the lines say -/

section
variable (lines : List (List Char))

/-- the line with the number, counted from one, carries a directive for the name -/
def Says (number : Nat) (disables trailing : Bool) (name : String) : Prop :=
  1 ≤ number ∧ ∃ text, lines[number - 1]? = some text ∧
    Directive.Carries text disables trailing name

/-- the line disables the name, or it is disabled on a line of its own at the line or before, and no
line between them enables it -/
def IsDisabled (name : String) (line : Nat) : Prop :=
  Says lines line true true name ∨
    ∃ start, start ≤ line ∧ Says lines start true false name ∧
      ∀ between trailing, start < between → between < line →
        ¬ Says lines between false trailing name ∧
          ¬ Says lines between false trailing Directive.everything

end

variable {lines : List (List Char)} {text : List Char} {number line : Nat} {name : String}
  {disables trailing : Bool}

theorem Says.le_length (h : Says lines number disables trailing name) : number ≤ lines.length := by
  obtain ⟨hpos, _, hget, -⟩ := h
  have hlt := (List.getElem?_eq_some_iff.1 hget).1
  omega

theorem says_concat : Says (lines ++ [text]) number disables trailing name ↔
    Says lines number disables trailing name ∨
      number = lines.length + 1 ∧ Directive.Carries text disables trailing name := by
  constructor
  · rintro ⟨hpos, t, hget, hc⟩
    rcases Nat.lt_or_ge (number - 1) lines.length with hlt | hge
    · rw [List.getElem?_append_left hlt] at hget
      exact .inl ⟨hpos, t, hget, hc⟩
    · rw [List.getElem?_append_right hge] at hget
      have hlast : number - 1 - lines.length < 1 := (List.getElem?_eq_some_iff.1 hget).1
      rw [Nat.lt_one_iff.1 hlast] at hget
      obtain rfl : text = t := Option.some.inj hget
      exact .inr ⟨by omega, hc⟩
  · rintro (h | ⟨rfl, hc⟩)
    · have hle := h.le_length
      obtain ⟨hpos, t, hget, hc⟩ := h
      refine ⟨hpos, t, ?_, hc⟩
      rw [List.getElem?_append_left (by omega)]
      exact hget
    · refine ⟨Nat.le_add_left _ _, text, ?_, hc⟩
      rw [Nat.add_sub_cancel]
      exact List.getElem?_concat_length

theorem isDisabled_concat : IsDisabled (lines ++ [text]) name line ↔
    IsDisabled lines name line ∧ (Directive.Enables text name → line ≤ lines.length + 1) ∨
      Directive.Carries text true true name ∧ line = lines.length + 1 ∨
      Directive.Carries text true false name ∧ lines.length + 1 ≤ line := by
  constructor
  · rintro (h | ⟨start, hle, h, hno⟩)
    · rcases says_concat.1 h with h | ⟨hline, hc⟩
      · exact .inl ⟨.inl h, fun _ => Nat.le_succ_of_le h.le_length⟩
      · exact .inr (.inl ⟨hc, hline⟩)
    · rcases says_concat.1 h with h | ⟨rfl, hc⟩
      · refine .inl ⟨.inr ⟨start, hle, h, fun between t h₁ h₂ => ?_⟩, ?_⟩
        · obtain ⟨hname, hall⟩ := hno between t h₁ h₂
          exact ⟨fun hs => hname (says_concat.2 (.inl hs)),
            fun hs => hall (says_concat.2 (.inl hs))⟩
        · rintro ⟨t, henables⟩
          -- else the new line would stand between the two
          by_contra hlt
          have hstart := h.le_length
          obtain ⟨hname, hall⟩ := hno (lines.length + 1) t (by omega) (by omega)
          rcases henables with hc | hc
          · exact hname (says_concat.2 (.inr ⟨rfl, hc⟩))
          · exact hall (says_concat.2 (.inr ⟨rfl, hc⟩))
      · exact .inr (.inr ⟨hc, hle⟩)
  · rintro (⟨h | ⟨start, hle, h, hno⟩, henables⟩ | ⟨hc, rfl⟩ | ⟨hc, hle⟩)
    · exact .inl (says_concat.2 (.inl h))
    · refine .inr ⟨start, hle, says_concat.2 (.inl h), fun between t h₁ h₂ => ?_⟩
      obtain ⟨hname, hall⟩ := hno between t h₁ h₂
      refine ⟨fun hs => ?_, fun hs => ?_⟩
      · rcases says_concat.1 hs with hs | ⟨rfl, hc⟩
        · exact hname hs
        · exact absurd (henables ⟨t, .inl hc⟩) (Nat.not_le_of_lt h₂)
      · rcases says_concat.1 hs with hs | ⟨rfl, hc⟩
        · exact hall hs
        · exact absurd (henables ⟨t, .inr hc⟩) (Nat.not_le_of_lt h₂)
    · exact .inl (says_concat.2 (.inr ⟨rfl, hc⟩))
    · -- nothing stands behind the new line
      refine .inr ⟨lines.length + 1, hle, says_concat.2 (.inr ⟨rfl, hc⟩), fun between t h₁ _ => ?_⟩
      have hnot : ∀ n, ¬ Says (lines ++ [text]) between false t n := fun n hs => by
        have hbound := hs.le_length
        rw [List.length_append, List.length_singleton] at hbound
        omega
      exact ⟨hnot _, hnot _⟩

/-! ## any number of lines -/

namespace Progress

structure Reordered (p q : Progress) : Prop where
  ranges : p.ranges.Perm q.ranges
  opened : p.opened.Perm q.opened

theorem Reordered.refl (p : Progress) : p.Reordered p := ⟨.refl _, .refl _⟩

theorem Reordered.within {p q : Progress} (h : p.Reordered q) (hp : p.Within number) :
    q.Within number :=
  ⟨fun r hr => hp.ranges r (h.ranges.mem_iff.2 hr), fun o ho => hp.opened o (h.opened.mem_iff.2 ho)⟩

theorem Reordered.spans_iff {p q : Progress} (h : p.Reordered q) :
    p.Spans name line ↔ q.Spans name line := by
  unfold Spans
  simp only [h.ranges.mem_iff, h.opened.mem_iff]

/-- `Reading p number lines q`: the lines, of which the first has the given number, lead from one to
the other, if ranges and opened names may come in another order before each line and at the end -/
inductive Reading : Progress → Nat → List (List Char) → Progress → Prop
  | done {p q : Progress} {number : Nat} (h : p.Reordered q) : Reading p number [] q
  | line {p p' q : Progress} {number : Nat} {text : List Char} {rest : List (List Char)}
      (h : p.Reordered p') (hrest : Reading (p'.readLine number text) (number + 1) rest q) :
      Reading p number (text :: rest) q

theorem reading_readLines (p : Progress) (number : Nat) (rest : List (List Char)) :
    Reading p number rest (p.readLines number rest) := by
  induction rest generalizing p number with
  | nil => exact .done (.refl p)
  | cons text rest ih =>
    rw [readLines_cons]
    exact .line (.refl p) (ih _ _)

/-- **What has been read spans the lines on which a name is disabled.**  The induction goes over the
lines that are left; before each, ranges and opened names stand for those that have been read. -/
theorem Reading.spans_iff {p q : Progress} {rest : List (List Char)}
    (h : Reading p number rest q) (hnumber : number = lines.length + 1)
    (hp : p.Within lines.length)
    (hspans : ∀ name line, p.Spans name line ↔ IsDisabled lines name line) (name : String)
    (line : Nat) : q.Spans name line ↔ IsDisabled (lines ++ rest) name line := by
  induction h generalizing lines with
  | done h =>
    rw [List.append_nil, ← h.spans_iff]
    exact hspans name line
  | @line p p' q number text rest h hrest ih =>
    subst hnumber
    have hp' : p'.Within (lines.length + 1) := (h.within hp).mono (Nat.le_succ _)
    have hlength : (lines ++ [text]).length = lines.length + 1 := List.length_append
    have hstep : ∀ name line, (p'.readLine (lines.length + 1) text).Spans name line ↔
        IsDisabled (lines ++ [text]) name line := fun name line => by
      rw [spans_readLine hp', isDisabled_concat, ← h.spans_iff, hspans]
    have hall := ih (by rw [hlength]) (hlength ▸ hp'.readLine text) hstep
    rw [List.append_assoc, List.singleton_append] at hall
    exact hall

end Progress

/-! ## whole texts -/

/-- the suppressions have been read from the text, and ranges and opened names kept in any order -/
def ReadFrom (content : List Char) (s : Suppressions) : Prop :=
  ∃ p, Progress.Reading ⟨[], []⟩ 1 (Text.lines content) p ∧
    s.ranges.Perm (p.ranges ++ p.opened.map fun o => ⟨o.1, o.2, none⟩)

theorem readFrom_ofText (content : List Char) : ReadFrom content (ofText content) :=
  ⟨_, Progress.reading_readLines _ _ _, .refl _⟩

theorem ReadFrom.suppresses_iff {content : List Char} {s : Suppressions}
    (h : ReadFrom content s) (rule : String) (line : Nat) :
    s.isSuppressed rule line = true ↔
      ∃ name, SuppressedRange.Covers name rule ∧ IsDisabled (Text.lines content) name line := by
  obtain ⟨p, hreading, hperm⟩ := h
  have hempty : ∀ name line, Progress.Spans ⟨[], []⟩ name line ↔ IsDisabled [] name line := by
    intro name line
    simp [Progress.Spans, IsDisabled, Says]
  have hwithin : Progress.Within ⟨[], []⟩ ([] : List (List Char)).length :=
    ⟨by simp, by simp⟩
  have hspans : ∀ name line, p.Spans name line ↔ IsDisabled (Text.lines content) name line :=
    hreading.spans_iff rfl hwithin hempty
  unfold isSuppressed
  simp only [List.any_eq_true, hperm.mem_iff, List.mem_append, List.mem_map, ← hspans,
    SuppressedRange.holds_iff]
  constructor
  · rintro ⟨r, hr | ⟨o, ho, rfl⟩, name, hcovers, hline⟩
    · exact ⟨name, hcovers, .inl ⟨r, hr, hline⟩⟩
    · obtain ⟨rfl, hfirst, -⟩ := hline
      exact ⟨o.1, hcovers, .inr ⟨o.2, ho, hfirst⟩⟩
  · rintro ⟨name, hcovers, ⟨r, hr, hline⟩ | ⟨first, ho, hfirst⟩⟩
    · exact ⟨r, .inl hr, name, hcovers, hline⟩
    · refine ⟨⟨name, first, none⟩, .inr ⟨(name, first), ho, rfl⟩, name, hcovers, rfl, hfirst, ?_⟩
      intro last hlast
      cases hlast

/-! ### what stands behind the line -/

theorem says_append (number : Nat) (behind : List (List Char)) (hle : number ≤ lines.length) :
    Says (lines ++ behind) number disables trailing name ↔
      Says lines number disables trailing name := by
  unfold Says
  refine and_congr_right fun hpos => ?_
  rw [List.getElem?_append_left (by omega)]

theorem isDisabled_congr {other : List (List Char)}
    (h : ∀ number ≤ line, ∀ disables trailing name,
      Says other number disables trailing name ↔ Says lines number disables trailing name) :
    IsDisabled other name line ↔ IsDisabled lines name line := by
  unfold IsDisabled
  rw [h line (Nat.le_refl _)]
  refine or_congr_right (exists_congr fun start => and_congr_right fun hle => ?_)
  rw [h start hle]
  refine and_congr_right fun _ => forall_congr' fun between => forall_congr' fun t =>
    forall_congr' fun _ => forall_congr' fun hlt => ?_
  rw [h between (Nat.le_of_lt hlt), h between (Nat.le_of_lt hlt)]

theorem says_take {other : List (List Char)} (h : other.take line = lines.take line)
    (hle : number ≤ line) :
    Says other number disables trailing name ↔ Says lines number disables trailing name := by
  unfold Says
  refine and_congr_right fun hpos => ?_
  have hother : (other.take line)[number - 1]? = other[number - 1]? :=
    List.getElem?_take_of_lt (by omega)
  have hlines : (lines.take line)[number - 1]? = lines[number - 1]? :=
    List.getElem?_take_of_lt (by omega)
  rw [← hother, ← hlines, h]

theorem carries_dropReturn (text : List Char) :
    Directive.Carries (Text.dropReturn text) disables trailing name ↔
      Directive.Carries text disables trailing name := by
  rw [Directive.carries_iff, Directive.carries_iff, Directive.ofLine?_dropReturn]

theorem says_append_newline (content behind : List Char) (hle : number ≤ content.count '\n' + 1) :
    Says (Text.lines (content ++ '\n' :: behind)) number disables trailing name ↔
      Says (Text.lines content) number disables trailing name := by
  obtain ⟨front, last, hsplit⟩ := Text.exists_splitAll '\n' content
  have hlength := Text.length_splitAll (d := '\n') content
  rw [hsplit, List.length_append, List.length_singleton] at hlength
  have hwithin : number ≤ (front.map Text.dropReturn ++ [Text.dropReturn last]).length := by
    simp only [List.length_append, List.length_map, List.length_singleton]
    omega
  rw [Text.lines_append_cons, hsplit, List.map_append, List.map_singleton,
    Text.lines_of_splitAll hsplit, says_append number _ hwithin, says_concat, carries_dropReturn]
  unfold Text.lastLine
  split
  · next hempty =>
    subst hempty
    rw [List.append_nil]
    have hnone : Directive.ofLine? [] = none := rfl
    exact or_iff_left fun h => Directive.not_carries hnone h.2
  · rw [says_concat]

/-- **Where a rule is suppressed.**  A name that covers it is disabled by a trailing comment on the
line, or on a line of its own at the line or before, with no line between them that enables that name
or all names.  In which order ranges and names are kept does not matter, nor does what stands behind
the line. -/
theorem isSuppressed_iff (content : List Char) (rule : String) (line : Nat) :
    ((ofText content).isSuppressed rule line = true ↔
      ∃ name, SuppressedRange.Covers name rule ∧ IsDisabled (Text.lines content) name line) ∧
    (∀ s, ReadFrom content s → s.isSuppressed rule line = (ofText content).isSuppressed rule line) ∧
    (∀ other, (Text.lines other).take line = (Text.lines content).take line →
      (ofText other).isSuppressed rule line = (ofText content).isSuppressed rule line) ∧
    ∀ behind, line ≤ content.count '\n' + 1 →
      (ofText (content ++ '\n' :: behind)).isSuppressed rule line =
        (ofText content).isSuppressed rule line := by
  have hiff := fun content => (readFrom_ofText content).suppresses_iff rule line
  refine ⟨hiff content, fun s hs => ?_, fun other htake => ?_, fun behind hle => ?_⟩
  · rw [Bool.eq_iff_iff, hs.suppresses_iff, hiff]
  · rw [Bool.eq_iff_iff, hiff, hiff]
    refine exists_congr fun name => and_congr_right fun _ =>
      isDisabled_congr fun number hnumber _ _ _ => ?_
    exact says_take htake hnumber
  · rw [Bool.eq_iff_iff, hiff, hiff]
    refine exists_congr fun name => and_congr_right fun _ =>
      isDisabled_congr fun number hnumber _ _ _ => ?_
    exact says_append_newline content behind (Nat.le_trans hnumber hle)

def departmentDisabled : List Char :=
  "# rubocop:disable Performance\nx.count # rubocop:todo all\n# rubocop:enable Performance".toList

/-- the last line is in the range that it ends -/
theorem departmentDisabled_isSuppressed :
    (∃ name, SuppressedRange.Covers name "Performance/Size" ∧
      IsDisabled (Text.lines departmentDisabled) name 3) ∧
    ReadFrom departmentDisabled ⟨(ofText departmentDisabled).ranges.reverse⟩ ∧
    isSuppressed ⟨(ofText departmentDisabled).ranges.reverse⟩ "Performance/Size" 3 = true ∧
    (Text.lines (departmentDisabled ++ "\n\n# rubocop:disable all".toList)).take 3 =
      (Text.lines departmentDisabled).take 3 ∧
    isSuppressed (ofText (departmentDisabled ++ "\n\n# rubocop:disable all".toList))
      "Performance/Size" 3 = true ∧
    3 ≤ departmentDisabled.count '\n' + 1 ∧
    isSuppressed (ofText (departmentDisabled ++ '\n' :: "# rubocop:disable all".toList))
      "Performance/Size" 3 = true := by
  have hsuppressed : (ofText departmentDisabled).isSuppressed "Performance/Size" 3 = true := by
    decide +kernel
  have hreversed : ReadFrom departmentDisabled ⟨(ofText departmentDisabled).ranges.reverse⟩ :=
    ⟨_, Progress.reading_readLines _ _ _, List.reverse_perm _⟩
  have htake : (Text.lines (departmentDisabled ++ "\n\n# rubocop:disable all".toList)).take 3 =
      (Text.lines departmentDisabled).take 3 := by
    decide +kernel
  have hlast : 3 ≤ departmentDisabled.count '\n' + 1 := by decide +kernel
  obtain ⟨hiff, horder, hlines, hbehind⟩ := isSuppressed_iff departmentDisabled "Performance/Size" 3
  exact ⟨hiff.1 hsuppressed, hreversed, (horder _ hreversed).trans hsuppressed, htake,
    (hlines _ htake).trans hsuppressed, hlast, (hbehind _ hlast).trans hsuppressed⟩

end Suppressions

end RubyLint
