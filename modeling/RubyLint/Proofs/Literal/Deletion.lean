import RubyLint.Proofs.Literal.Anchored

/-!
# Substitution by nothing

What is left of a subject when the first match of a body is taken out of it, or every match, and when
a text is taken from one of its ends.

* `matchAt?`, `deleted`    a match at a place, and the subject without matches, first or all;
* `withoutText`            the subject without a text at one of its ends;
* `matchAt?_attach`        where a body with an anchor on one side matches, and what it takes out;
* `deleted_eq_iff`         a body that is accepted takes out what a string literal with this body takes
                           from the end exactly if it asks for this text at the end of the subject, or
                           if the text is empty;
* `deleted_eq_of_line`     with the end of a line for the end of the text, only subjects with one line
                           are left.
-/

namespace RubyLint.Literal

/-! ## matching -/

/-- a match that is under way: what is in front of it, what it has taken, and what is left -/
structure Spot where
  front : List Char
  kept : List Char
  rest : List Char
deriving DecidableEq

def Item.step? : Item → Spot → Option Spot
  | .char c, ⟨front, kept, d :: rest⟩ => if c = d then some ⟨front, kept ++ [d], rest⟩ else none
  | .char _, ⟨_, _, []⟩ => none
  | .reset, ⟨front, kept, rest⟩ => some ⟨front ++ kept, [], rest⟩
  | .edge e, ⟨front, kept, rest⟩ => if e.holds (front ++ kept) rest then some ⟨front, kept, rest⟩ else none

def stepAll? : List Item → Spot → Option Spot
  | [], s => some s
  | i :: items, s => (i.step? s).bind (stepAll? items)

/-- the match at the place between two texts -/
def matchAt? (items : List Item) (front rest : List Char) : Option Spot :=
  stepAll? items ⟨front, [], rest⟩

theorem Item.step?_whole {i : Item} {s s' : Spot} (h : i.step? s = some s') :
    s'.front ++ s'.kept ++ s'.rest = s.front ++ s.kept ++ s.rest ∧ s.front <+: s'.front := by
  obtain ⟨front, kept, rest⟩ := s
  cases i with
  | char c =>
    cases rest with
    | nil => cases h
    | cons d rest =>
      obtain ⟨-, hs⟩ := Option.ite_none_right_eq_some.1 h
      cases hs
      simp
  | reset =>
    cases h
    simp
  | edge e =>
    obtain ⟨-, hs⟩ := Option.ite_none_right_eq_some.1 h
    cases hs
    simp

theorem stepAll?_whole {items : List Item} {s s' : Spot} (h : stepAll? items s = some s') :
    s'.front ++ s'.kept ++ s'.rest = s.front ++ s.kept ++ s.rest ∧ s.front <+: s'.front := by
  induction items generalizing s with
  | nil =>
    cases h
    exact ⟨rfl, List.prefix_refl _⟩
  | cons i items ih =>
    obtain ⟨r, hr, hrest⟩ := Option.bind_eq_some_iff.1 h
    obtain ⟨hwhole, hfront⟩ := ih hrest
    obtain ⟨hwhole', hfront'⟩ := Item.step?_whole hr
    exact ⟨hwhole.trans hwhole', hfront'.trans hfront⟩

theorem exists_of_matchAt? {items : List Item} {front rest : List Char} {s : Spot}
    (h : matchAt? items front rest = some s) :
    ∃ skipped, s.front = front ++ skipped ∧ rest = skipped ++ s.kept ++ s.rest := by
  obtain ⟨hwhole, skipped, hfront⟩ := stepAll?_whole h
  refine ⟨skipped, hfront.symm, ?_⟩
  rw [← hfront, List.append_nil, List.append_assoc, List.append_assoc] at hwhole
  rw [List.append_assoc]
  exact (List.append_cancel_left hwhole).symm

/-! ## what is left of a subject -/

theorem length_rest_lt {items : List Item} {front rest : List Char} {s : Spot}
    (h : matchAt? items front rest = some s) (hkept : s.kept ≠ []) :
    s.rest.length < rest.length := by
  obtain ⟨skipped, -, rfl⟩ := exists_of_matchAt? h
  have hpos := List.length_pos_iff.2 hkept
  simp only [List.length_append]
  omega

theorem length_rest_le {items : List Item} {front rest : List Char} {s : Spot}
    (h : matchAt? items front rest = some s) : s.rest.length ≤ rest.length := by
  obtain ⟨skipped, -, rfl⟩ := exists_of_matchAt? h
  simp only [List.length_append]
  omega

/-- What is left behind a place of a subject without its first match, or without each match.  Behind an
empty match one character is passed over. -/
def deleted (each : Bool) (items : List Item) (front rest : List Char) : List Char :=
  match _hmatch : matchAt? items front rest with
  | some s =>
    s.front.drop front.length ++
      if each = false then s.rest
      else if _hkept : s.kept ≠ [] then deleted each items (s.front ++ s.kept) s.rest
      else match _hrest : s.rest with
        | [] => []
        | c :: after => c :: deleted each items (s.front ++ [c]) after
  | none =>
    match rest with
    | [] => []
    | c :: after => c :: deleted each items (front ++ [c]) after
termination_by rest.length
decreasing_by
  · exact length_rest_lt _hmatch _hkept
  · have hle := length_rest_le _hmatch
    rw [_hrest] at hle
    exact hle
  · exact Nat.lt_succ_self _

section
variable {each : Bool} {items : List Item} {front rest : List Char}

theorem deleted_none (h : matchAt? items front [] = none) : deleted each items front [] = [] := by
  rw [deleted]
  split
  · next hmatch =>
    rw [h] at hmatch
    cases hmatch
  · rfl

theorem deleted_none_cons {c : Char} (h : matchAt? items front (c :: rest) = none) :
    deleted each items front (c :: rest) = c :: deleted each items (front ++ [c]) rest := by
  rw [deleted]
  split
  · next hmatch =>
    rw [h] at hmatch
    cases hmatch
  · rfl

/-- behind a match, what it has passed over is left, and what is left behind it -/
theorem deleted_some {skipped kept after : List Char}
    (h : matchAt? items front rest = some ⟨front ++ skipped, kept, after⟩) (hkept : kept ≠ []) :
    deleted each items front rest = skipped ++
      if each = false then after else deleted each items (front ++ skipped ++ kept) after := by
  rw [deleted]
  split
  · next s hmatch =>
    rw [h] at hmatch
    cases hmatch
    rw [List.drop_left, dif_pos hkept]
  · next hmatch =>
    rw [h] at hmatch
    cases hmatch

theorem deleted_some_nil {skipped after : List Char}
    (h : matchAt? items front rest = some ⟨front ++ skipped, [], after⟩) :
    deleted each items front rest = skipped ++ after ∨
      ∃ c behind, after = c :: behind ∧ deleted each items front rest =
        skipped ++ c :: deleted each items (front ++ skipped ++ [c]) behind := by
  rw [deleted]
  split
  · next s hmatch =>
    rw [h] at hmatch
    cases hmatch
    rw [List.drop_left]
    split
    · exact .inl rfl
    · cases after with
      | nil => exact .inl rfl
      | cons c behind => exact .inr ⟨c, behind, rfl, rfl⟩
  · next hmatch =>
    rw [h] at hmatch
    cases hmatch

theorem deleted_of_kept
    (h : ∀ mid after s, rest = mid ++ after → matchAt? items (front ++ mid) after = some s → s.kept = []) :
    deleted each items front rest = rest := by
  induction hlength : rest.length using Nat.strongRecOn generalizing front rest with
  | ind length ih =>
    have hbehind : ∀ c mid after, rest = mid ++ c :: after →
        deleted each items (front ++ mid ++ [c]) after = after := by
      rintro c mid after rfl
      refine ih after.length ?_ (fun mid' after' s hafter hs => ?_) rfl
      · rw [← hlength, List.length_append, List.length_cons]
        omega
      · refine h (mid ++ c :: mid') after' s ?_ ?_
        · rw [hafter, List.append_assoc]
          rfl
        · rw [← hs]
          simp
    cases hmatch : matchAt? items front rest with
    | none =>
      cases rest with
      | nil => exact deleted_none hmatch
      | cons c after =>
        have hafter := hbehind c [] after rfl
        rw [List.append_nil] at hafter
        rw [deleted_none_cons hmatch, hafter]
    | some s =>
      obtain ⟨front', kept, after⟩ := s
      obtain ⟨skipped, hfront, hrest⟩ := exists_of_matchAt? hmatch
      obtain rfl : front' = front ++ skipped := hfront
      obtain rfl : kept = [] := h [] rest _ rfl (by rw [List.append_nil]; exact hmatch)
      change rest = skipped ++ [] ++ after at hrest
      rw [List.append_nil] at hrest
      obtain hall | ⟨c, behind, rfl, hcut⟩ := deleted_some_nil hmatch
      · rw [hall, hrest]
      · rw [hcut, hbehind c skipped behind hrest, hrest]

theorem length_deleted_le : (deleted each items front rest).length ≤ rest.length := by
  induction hlength : rest.length using Nat.strongRecOn generalizing front rest with
  | ind length ih =>
    have hbehind : ∀ front' rest', rest'.length < rest.length →
        (deleted each items front' rest').length ≤ rest'.length :=
      fun front' rest' hlt => ih _ (hlength ▸ hlt) rfl
    rw [← hlength]
    cases hmatch : matchAt? items front rest with
    | none =>
      cases rest with
      | nil => exact Nat.le_of_eq (congrArg List.length (deleted_none hmatch))
      | cons c after =>
        rw [deleted_none_cons hmatch]
        exact Nat.succ_le_succ (hbehind _ _ (Nat.lt_succ_self _))
    | some s =>
      obtain ⟨front', kept, after⟩ := s
      obtain ⟨skipped, hfront, hrest⟩ := exists_of_matchAt? hmatch
      obtain rfl : front' = front ++ skipped := hfront
      change rest = skipped ++ kept ++ after at hrest
      have hrest' : rest.length = skipped.length + kept.length + after.length := by
        rw [hrest, List.length_append, List.length_append]
      by_cases hkept : kept = []
      · subst hkept
        obtain hall | ⟨c, behind, rfl, hcut⟩ := deleted_some_nil hmatch
        · rw [hall, List.length_append]
          omega
        · rw [List.length_cons] at hrest'
          have hle := hbehind (front ++ skipped ++ [c]) behind (by omega)
          rw [hcut, List.length_append, List.length_cons]
          omega
      · have hpos := List.length_pos_iff.2 hkept
        rw [deleted_some hmatch hkept, List.length_append]
        split
        · omega
        · have hle := hbehind (front ++ skipped ++ kept) after (by omega)
          omega

theorem length_deleted_some {s : Spot} (h : matchAt? items front rest = some s) (hkept : s.kept ≠ []) :
    (deleted each items front rest).length < rest.length := by
  obtain ⟨front', kept, after⟩ := s
  obtain ⟨skipped, hfront, hrest⟩ := exists_of_matchAt? h
  obtain rfl : front' = front ++ skipped := hfront
  obtain rfl : rest = skipped ++ kept ++ after := hrest
  have hpos := List.length_pos_iff.2 hkept
  rw [deleted_some h hkept, List.length_append, List.length_append, List.length_append]
  change 0 < kept.length at hpos
  split
  · omega
  · have hle := @length_deleted_le each items (front ++ skipped ++ kept) after
    omega

theorem length_deleted_lt {mid after : List Char} {s : Spot}
    (hkept : ∀ front rest s, matchAt? items front rest = some s → s.kept ≠ [])
    (h : matchAt? items (front ++ mid) after = some s) :
    (deleted each items front (mid ++ after)).length < (mid ++ after).length := by
  cases hmatch : matchAt? items front (mid ++ after) with
  | some s' => exact length_deleted_some hmatch (hkept _ _ _ hmatch)
  | none =>
    induction mid generalizing front with
    | nil =>
      rw [List.append_nil] at h
      rw [List.nil_append, h] at hmatch
      cases hmatch
    | cons c mid ih =>
      rw [List.append_cons] at h
      rw [List.cons_append] at hmatch ⊢
      rw [deleted_none_cons hmatch]
      refine Nat.succ_lt_succ ?_
      cases hnext : matchAt? items (front ++ [c]) (mid ++ after) with
      | some s' => exact length_deleted_some hnext (hkept _ _ _ hnext)
      | none => exact ih h hnext

theorem deleted_of_unique {mid found kept after : List Char}
    (h : matchAt? items (front ++ mid) found = some ⟨front ++ mid, kept, after⟩) (hkept : kept ≠ [])
    (honly : ∀ mid' after' s, mid ++ found = mid' ++ after' →
      matchAt? items (front ++ mid') after' = some s → mid' = mid) :
    deleted each items front (mid ++ found) = mid ++ after := by
  induction mid generalizing front with
  | nil =>
    obtain ⟨skipped, hskipped, hfound⟩ := exists_of_matchAt? h
    obtain rfl : [] = skipped := List.append_cancel_left ((List.append_nil _).trans hskipped)
    rw [List.append_nil] at h
    rw [List.nil_append, deleted_some (h.trans (by rw [List.append_nil])) hkept, List.nil_append]
    split
    · rfl
    -- behind the match there is none that takes anything
    · refine deleted_of_kept fun mid' after' s hafter hs => ?_
      have hnil : kept ++ mid' = [] := by
        refine honly (kept ++ mid') after' s ?_ ?_
        · rw [hfound]
          simp [hafter]
        · rw [← hs]
          simp
      exact absurd (List.append_eq_nil_iff.1 hnil).1 hkept
  | cons c mid ih =>
    have hnone : matchAt? items front (c :: (mid ++ found)) = none := by
      cases hmatch : matchAt? items front (c :: (mid ++ found)) with
      | none => rfl
      | some s =>
        have hnil := honly [] _ s rfl (by rw [List.append_nil]; exact hmatch)
        cases hnil
    rw [List.append_cons] at h
    rw [List.cons_append, deleted_none_cons hnone]
    refine congrArg (c :: ·) (ih h fun mid' after' s hrest hs => ?_)
    have hcons := honly (c :: mid') after' s (congrArg (c :: ·) hrest) (by rw [List.append_cons]; exact hs)
    exact (List.cons.inj hcons).2

end

/-! ## bodies with an anchor -/

theorem stepAll?_append (items items' : List Item) (s : Spot) :
    stepAll? (items ++ items') s = (stepAll? items s).bind (stepAll? items') := by
  induction items generalizing s with
  | nil => rfl
  | cons i items ih =>
    show (i.step? s).bind _ = ((i.step? s).bind _).bind _
    rw [Option.bind_assoc]
    exact congrArg _ (funext ih)

theorem stepAll?_edge {e : Edge} {s s' : Spot} :
    stepAll? [.edge e] s = some s' ↔ s' = s ∧ e.holds (s.front ++ s.kept) s.rest = true := by
  show ((if e.holds (s.front ++ s.kept) s.rest then some s else none).bind some) = _ ↔ _
  rw [Option.bind_eq_some_iff]
  simp only [Option.ite_none_right_eq_some, Option.some_inj]
  constructor
  · rintro ⟨r, ⟨he, rfl⟩, rfl⟩
    exact ⟨rfl, he⟩
  · rintro ⟨rfl, he⟩
    exact ⟨_, ⟨he, rfl⟩, rfl⟩

theorem stepAll?_chars {v front kept rest : List Char} {s : Spot} :
    stepAll? (v.map .char) ⟨front, kept, rest⟩ = some s ↔
      ∃ after, rest = v ++ after ∧ s = ⟨front, kept ++ v, after⟩ := by
  induction v generalizing kept rest with
  | nil =>
    rw [List.append_nil]
    constructor
    · rintro ⟨⟩
      exact ⟨rest, rfl, rfl⟩
    · rintro ⟨after, rfl, rfl⟩
      rfl
  | cons c v ih =>
    show ((Item.char c).step? ⟨front, kept, rest⟩).bind _ = _ ↔ _
    cases rest with
    | nil => exact iff_of_false (fun h => nomatch h) fun ⟨after, h, _⟩ => nomatch h
    | cons d rest =>
      show (if c = d then some _ else none).bind _ = _ ↔ _
      by_cases hc : c = d
      · subst hc
        rw [if_pos rfl]
        show stepAll? (v.map .char) ⟨front, kept ++ [c], rest⟩ = some s ↔ _
        rw [ih]
        simp
      · rw [if_neg hc]
        refine iff_of_false (fun h => nomatch h) fun ⟨after, h, _⟩ => ?_
        exact hc (List.cons.inj h).1.symm

def Item.keptBy (kept : List Char) : List Item → List Char
  | [] => kept
  | .char c :: items => keptBy (kept ++ [c]) items
  | .reset :: items => keptBy [] items
  | .edge _ :: items => keptBy kept items

/-- items without edges match where their text stands, and always keep the same -/
theorem stepAll?_asked {items : List Item} (hedge : ∀ e, .edge e ∉ items) (front kept : List Char) :
    (∀ after, ∃ s, stepAll? items ⟨front, kept, Item.text items ++ after⟩ = some s ∧ s.rest = after) ∧
    ∀ rest s, stepAll? items ⟨front, kept, rest⟩ = some s → s.kept = Item.keptBy kept items := by
  induction items generalizing front kept with
  | nil =>
    refine ⟨fun after => ⟨⟨front, kept, after⟩, rfl, rfl⟩, ?_⟩
    rintro rest s ⟨⟩
    rfl
  | cons i items ih =>
    have hrest : ∀ e, .edge e ∉ items := fun e he => hedge e (.tail _ he)
    cases i with
    | edge e => exact absurd (.head _) (hedge e)
    | reset => exact ih hrest (front ++ kept) []
    | char c =>
      obtain ⟨hstands, hkept⟩ := ih hrest front (kept ++ [c])
      refine ⟨fun after => ?_, fun rest s h => ?_⟩
      · obtain ⟨s, hs, hafter⟩ := hstands after
        refine ⟨s, ?_, hafter⟩
        show ((if c = c then some _ else none).bind _) = _
        rw [if_pos rfl]
        exact hs
      · obtain ⟨r, hr, hrest'⟩ := Option.bind_eq_some_iff.1 h
        cases rest with
        | nil => cases hr
        | cons d rest =>
          obtain ⟨rfl, hr⟩ := Option.ite_none_right_eq_some.1 hr
          cases hr
          exact hkept rest s hrest'

/-- the edge is at the place where a match starts, or at the one where it ends -/
def Side.holdsAt (side : Side) (e : Edge) (start stop : List Char × List Char) : Bool :=
  match side with
  | .front => e.holds start.1 start.2
  | .back => e.holds stop.1 stop.2

/-- A body with an anchor matches as it does without, where the place has the edge. -/
theorem matchAt?_attach {side : Side} {e : Edge} {items : List Item} {front rest : List Char} {s : Spot} :
    matchAt? (side.attach [.edge e] items) front rest = some s ↔
      stepAll? items ⟨front, [], rest⟩ = some s ∧
        side.holdsAt e (front, rest) (s.front ++ s.kept, s.rest) = true := by
  cases side with
  | front =>
    show stepAll? ([.edge e] ++ items) _ = _ ↔ _
    rw [stepAll?_append, Option.bind_eq_some_iff]
    simp only [stepAll?_edge, List.append_nil]
    constructor
    · rintro ⟨r, ⟨rfl, he⟩, hs⟩
      exact ⟨hs, he⟩
    · rintro ⟨hs, he⟩
      exact ⟨_, ⟨rfl, he⟩, hs⟩
  | back =>
    show stepAll? (items ++ [.edge e]) _ = _ ↔ _
    rw [stepAll?_append, Option.bind_eq_some_iff]
    simp only [stepAll?_edge]
    constructor
    · rintro ⟨r, hs, rfl, he⟩
      exact ⟨hs, he⟩
    · rintro ⟨hs, he⟩
      exact ⟨_, hs, rfl, he⟩

theorem matchAt?_chars {side : Side} {e : Edge} {v front rest : List Char} {s : Spot} :
    matchAt? (side.attach [.edge e] (v.map .char)) front rest = some s ↔
      ∃ after, rest = v ++ after ∧ s = ⟨front, v, after⟩ ∧
        side.holdsAt e (front, v ++ after) (front ++ v, after) = true := by
  rw [matchAt?_attach, stepAll?_chars]
  constructor
  · rintro ⟨⟨after, rfl, rfl⟩, he⟩
    exact ⟨after, rfl, rfl, he⟩
  · rintro ⟨after, rfl, rfl, he⟩
    exact ⟨⟨after, rfl, rfl⟩, he⟩

/-! ## a text at an end -/

/-- the subject without a text at one of its ends, if it is there -/
def Side.withoutText (side : Side) (v subject : List Char) : List Char :=
  match side with
  | .front => if v <+: subject then subject.drop v.length else subject
  | .back => if v <:+ subject then subject.take (subject.length - v.length) else subject

theorem Side.withoutText_attach (side : Side) (v rest : List Char) :
    side.withoutText v (side.attach v rest) = rest := by
  cases side <;> simp [withoutText, attach]

theorem Side.withoutText_eq_self {side : Side} {v subject : List Char}
    (h : ∀ rest, subject ≠ side.attach v rest) : side.withoutText v subject = subject := by
  cases side with
  | front => exact if_neg fun ⟨rest, hrest⟩ => h rest hrest.symm
  | back => exact if_neg fun ⟨rest, hrest⟩ => h rest hrest.symm

def Side.IsEnd (side : Side) (front after : List Char) : Prop :=
  match side with
  | .front => front = []
  | .back => after = []

/-- A text that is asked for at the end only is taken from there. -/
theorem deleted_of_isEnd {each : Bool} {side : Side} {e : Edge} {v subject : List Char}
    (hv : v ≠ [])
    (hend : ∀ front after, subject = front ++ (v ++ after) →
      (side.holdsAt e (front, v ++ after) (front ++ v, after) = true ↔ side.IsEnd front after)) :
    deleted each (side.attach [.edge e] (v.map .char)) [] subject = side.withoutText v subject := by
  by_cases hstands : ∃ rest, subject = side.attach v rest
  · obtain ⟨rest, rfl⟩ := hstands
    rw [side.withoutText_attach]
    cases side with
    | front =>
      change ∀ front after, v ++ rest = _ → _ at hend
      show deleted each _ [] ([] ++ (v ++ rest)) = [] ++ rest
      refine deleted_of_unique (matchAt?_chars.2 ⟨rest, rfl, rfl, ?_⟩) hv
        fun front rest' s hrest hs => ?_
      · exact (hend [] rest rfl).2 rfl
      · obtain ⟨after, rfl, -, he⟩ := matchAt?_chars.1 hs
        exact (hend front after hrest).1 he
    | back =>
      change ∀ front after, rest ++ v = _ → _ at hend
      show deleted each _ [] (rest ++ v) = rest
      have hall : deleted each (Side.back.attach [.edge e] (v.map .char)) [] (rest ++ v) = rest ++ [] := by
        refine deleted_of_unique (matchAt?_chars.2 ⟨[], (List.append_nil v).symm, rfl, ?_⟩) hv
          fun front rest' s hrest hs => ?_
        · exact (hend rest [] (by rw [List.append_nil])).2 rfl
        · obtain ⟨after, rfl, -, he⟩ := matchAt?_chars.1 hs
          obtain rfl : after = [] := (hend front after hrest).1 he
          rw [List.append_nil] at hrest
          exact (List.append_cancel_right hrest).symm
      rw [hall, List.append_nil]
  · rw [Side.withoutText_eq_self fun rest hrest => hstands ⟨rest, hrest⟩]
    refine deleted_of_kept fun front rest s hrest hs => absurd ?_ hstands
    obtain ⟨after, rfl, -, he⟩ := matchAt?_chars.1 hs
    have hat := (hend front after hrest).1 he
    cases side with
    | front =>
      obtain rfl : front = [] := hat
      exact ⟨after, hrest⟩
    | back =>
      obtain rfl : after = [] := hat
      rw [List.append_nil] at hrest
      exact ⟨front, hrest⟩

theorem holdsAt_textEdge (side : Side) (front v after : List Char) :
    side.holdsAt side.textEdge (front, v ++ after) (front ++ v, after) = true ↔
      side.IsEnd front after := by
  cases side <;> exact List.isEmpty_iff

theorem holdsAt_lineEdge {side : Side} {front v after : List Char}
    (hline : '\n' ∉ front ++ (v ++ after)) :
    side.holdsAt side.lineEdge (front, v ++ after) (front ++ v, after) = true ↔
      side.IsEnd front after := by
  rw [List.mem_append, List.mem_append, not_or, not_or] at hline
  cases side with
  | front =>
    show (front.isEmpty || (front.getLast? == some '\n' && _)) = true ↔ front = []
    have hlast : (front.getLast? == some '\n') = false := by
      rw [beq_eq_false_iff_ne]
      exact fun h => hline.1 (List.mem_of_getLast? h)
    rw [hlast, Bool.false_and, Bool.or_false, List.isEmpty_iff]
  | back =>
    show (after.isEmpty || after.head? == some '\n') = true ↔ after = []
    have hhead : (after.head? == some '\n') = false := by
      rw [beq_eq_false_iff_ne]
      exact fun h => hline.2.2 (List.mem_of_head? h)
    rw [hhead, Bool.or_false, List.isEmpty_iff]

/-! ## bodies that are accepted -/

theorem deleted_nil (each : Bool) (side : Side) (e : Edge) (subject : List Char) :
    deleted each (side.attach [.edge e] []) [] subject = subject := by
  refine deleted_of_kept fun front after s _ hs => ?_
  obtain ⟨rest, -, rfl, -⟩ := (@matchAt?_chars side e [] front after s).1 hs
  rfl

theorem Side.withoutText_nil (side : Side) (subject : List Char) :
    side.withoutText [] subject = subject := by
  cases side <;> simp [withoutText]

theorem kept_of_matchAt?_chars {side : Side} {e : Edge} {v front rest : List Char} {s : Spot}
    (h : matchAt? (side.attach [.edge e] (v.map .char)) front rest = some s) : s.kept = v := by
  obtain ⟨after, -, rfl, -⟩ := matchAt?_chars.1 h
  rfl

theorem ne_of_length_lt {left right subject : List Char} (hlt : left.length < subject.length)
    (hself : right = subject) : left ≠ right := by
  rintro rfl
  exact absurd (congrArg List.length hself) (Nat.ne_of_lt hlt)

/-- The end of a line is no end of the subject if another line is there. -/
theorem exists_of_lineEdge (each : Bool) (side : Side) {v : List Char} (hv : v ≠ []) :
    ∃ subject, deleted each (side.attach [.edge side.lineEdge] (v.map .char)) [] subject ≠
      side.withoutText v subject := by
  have hkept : ∀ front rest s, matchAt? (side.attach [.edge side.lineEdge] (v.map .char)) front rest =
      some s → s.kept ≠ [] := fun front rest s hs => kept_of_matchAt?_chars hs ▸ hv
  have hother : ∀ d : Char, ∃ x, x ≠ d := fun d => by
    by_cases hd : d = 'x'
    · exact ⟨'y', by rw [hd]; decide⟩
    · exact ⟨'x', Ne.symm hd⟩
  cases side with
  | front =>
    obtain ⟨x, hx⟩ := hother (v.head hv)
    have hmatch : matchAt? (Side.front.attach [.edge .lineStart] (v.map .char)) ([] ++ [x, '\n']) v =
        some ⟨[x, '\n'], v, []⟩ := by
      refine matchAt?_chars.2 ⟨[], (List.append_nil v).symm, rfl, ?_⟩
      cases v with
      | nil => exact absurd rfl hv
      | cons d v => rfl
    refine ⟨[x, '\n'] ++ v, ne_of_length_lt (length_deleted_lt hkept hmatch)
      (Side.withoutText_eq_self fun rest hrest => ?_)⟩
    cases v with
    | nil => exact hv rfl
    | cons d v => exact hx (List.cons.inj hrest).1
  | back =>
    obtain ⟨x, hx⟩ := hother (v.getLast hv)
    have hmatch : matchAt? (Side.back.attach [.edge .lineEnd] (v.map .char)) [] (v ++ ['\n', x]) =
        some ⟨[], v, ['\n', x]⟩ := matchAt?_chars.2 ⟨['\n', x], rfl, rfl, rfl⟩
    refine ⟨v ++ ['\n', x], ne_of_length_lt (length_deleted_some hmatch hv)
      (Side.withoutText_eq_self fun rest hrest => ?_)⟩
    have hlast : (v ++ ['\n', x]).getLast? = (rest ++ v).getLast? := congrArg List.getLast? hrest
    rw [List.getLast?_append_of_ne_nil _ hv, List.getLast?_eq_some_getLast hv] at hlast
    simp at hlast
    exact hx hlast

/-- Items that ask for less leave more of some subject. -/
theorem exists_of_shorter (each : Bool) {side : Side} {e : Edge}
    (he : e = side.textEdge ∨ e = side.lineEdge) {asked : List Item} {v : List Char}
    (hedge : ∀ e, .edge e ∉ asked) (hlt : (utf8 (Item.text asked)).length < (utf8 v).length) :
    ∃ subject, deleted each (side.attach [.edge e] asked) [] subject ≠ side.withoutText v subject := by
  have hkept : ∀ front rest s, matchAt? (side.attach [.edge e] asked) front rest = some s →
      s.kept = Item.keptBy [] asked := fun front rest s hs =>
    (stepAll?_asked hedge front []).2 rest s (matchAt?_attach.1 hs).1
  by_cases hnil : Item.keptBy [] asked = []
  -- nothing is ever taken out, not even of the text itself
  · refine ⟨v, ?_⟩
    rw [deleted_of_kept fun front rest s _ hs => (hkept _ _ _ hs).trans hnil]
    have hself : side.withoutText v v = [] := by
      have hall := side.withoutText_attach v []
      cases side <;> simpa [Side.attach] using hall
    rw [hself]
    rintro rfl
    exact absurd hlt (Nat.not_lt_zero _)
  -- what is asked for is taken out where it stands alone
  · obtain ⟨s, hs, hrest⟩ := (stepAll?_asked hedge [] []).1 []
    rw [List.append_nil] at hs
    have hholds : side.holdsAt e ([], Item.text asked) (s.front ++ s.kept, s.rest) = true := by
      rw [hrest]
      rcases he with rfl | rfl <;> cases side <;> rfl
    have hmatch := matchAt?_attach.2 ⟨hs, hholds⟩
    refine ⟨Item.text asked, ne_of_length_lt
      (length_deleted_some hmatch (hkept _ _ _ hmatch ▸ hnil))
      (Side.withoutText_eq_self fun rest htext => ?_)⟩
    rw [htext] at hlt
    cases side <;> simp only [Side.attach, utf8_append, List.length_append] at hlt <;> omega

/-- **What an accepted body takes out.**  It is what string literals make of the body, at the end of
every subject, exactly if the body asks for that text at the end of the subject and not of a line, or if
the text is empty. -/
theorem deleted_eq_iff {side : Side} {body : List Char} {items : List Item}
    (haccepts : side.accepts body = true) (hitems : regexpItems body = .ok items) (each : Bool) :
    (∀ subject, deleted each items [] subject =
        side.withoutText (readEscapes (side.strip body)) subject) ↔
      items = side.attach [.edge side.textEdge] ((readEscapes (side.strip body)).map .char) ∨
        readEscapes (side.strip body) = [] := by
  obtain hrefused | ⟨e, as, asked, he, hliteral, has, hasked, hbody⟩ := regexpItems_of_accepts haccepts
  · rw [hrefused] at hitems
    cases hitems
  obtain rfl := Except.ok.inj (hitems.symm.trans hbody)
  have hasks := itemsOf_literal hliteral has hasked
  generalize readEscapes (side.strip body) = v at hasks ⊢
  constructor
  · intro hall
    by_cases hv : v = []
    · exact .inr hv
    refine .inl ?_
    rcases hasks with rfl | hlt
    · rcases he with rfl | rfl
      · rfl
      · obtain ⟨subject, hne⟩ := exists_of_lineEdge each side hv
        exact absurd (hall subject) hne
    · obtain ⟨subject, hne⟩ := exists_of_shorter each he (itemsOf_atoms hasked).2.1 hlt
      exact absurd (hall subject) hne
  · rintro (heq | rfl) subject
    · rw [heq]
      by_cases hv : v = []
      · subst hv
        rw [Side.withoutText_nil]
        exact deleted_nil each side _ subject
      · exact deleted_of_isEnd hv fun front after _ => holdsAt_textEdge side front v after
    · rw [Side.withoutText_nil]
      rcases hasks with rfl | hlt
      · exact deleted_nil each side e subject
      · exact absurd hlt (Nat.not_lt_zero _)

/-- In subjects of one line, the end of a line is the end of the subject. -/
theorem deleted_eq_of_line {side : Side} {e : Edge} (he : e = side.textEdge ∨ e = side.lineEdge)
    (each : Bool) (v : List Char) {subject : List Char} (hline : '\n' ∉ subject) :
    deleted each (side.attach [.edge e] (v.map .char)) [] subject = side.withoutText v subject := by
  by_cases hv : v = []
  · subst hv
    rw [Side.withoutText_nil]
    exact deleted_nil each side e subject
  · refine deleted_of_isEnd hv fun front after hsubject => ?_
    rcases he with rfl | rfl
    · exact holdsAt_textEdge side front v after
    · exact holdsAt_lineEdge (hsubject ▸ hline)

end RubyLint.Literal
