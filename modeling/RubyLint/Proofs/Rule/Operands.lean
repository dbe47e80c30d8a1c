import RubyLint.Proofs.Rule.Arrangement
import RubyLint.Proofs.Rule.Conditions
import RubyLint.Proofs.Syntax.Laminar

/-!
# Chains of conjunctions

A conjunction whose first operand is a conjunction, and so on, is a chain with the operands
`e₁ && e₂ && … && eₖ`, the first of which is no conjunction.

* `Chain`               the joints of a chain, outermost first, and its operands in their order;
* `Chain.split`         a chain in which some operands stand behind another one;
* `Chain.verdict_cases` at a joint, the last operand changes places with the one that waits for it;
* `Leads`               the joints are where first operands lead;
* `Chain.apart_or_above`  what another chain moves, moves the whole chain or leaves it alone.
-/

namespace RubyLint.Rule

section
variable {t : SyntaxTree} {n m : Node t} {joints operands : List (Node t)}

/-- A node that is no conjunction is a chain of one operand.  A conjunction is the outermost joint of the
chain of its first operand and its second operand. -/
inductive Chain : Node t → List (Node t) → List (Node t) → Prop
  | single {n : Node t} (hkind : n.kind ≠ .conjunction) : Chain n [] [n]
  | joint {n left right : Node t} {joints operands : List (Node t)}
      (hkind : n.kind = .conjunction) (hoperands : operands? n = some (left, right))
      (h : Chain left joints operands) : Chain n (n :: joints) (operands ++ [right])

theorem operands?_eq_some_iff {left right : Node t} : operands? n = some (left, right) ↔
    n.childNode? 0 = some left ∧ n.childNode? 1 = some right := by
  unfold operands?
  cases n.childNode? 0 with
  | none => exact iff_of_false (fun h => nomatch h) fun h => nomatch h.1
  | some l =>
    cases n.childNode? 1 with
    | none => exact iff_of_false (fun h => nomatch h) fun h => nomatch h.2
    | some r => simp

theorem childNodes_eq_cons {left : Node t} (h : n.childNode? 0 = some left) :
    ∃ more, n.childNodes = left :: more := by
  obtain ⟨c, hc, hleft⟩ := Option.bind_eq_some_iff.1 h
  obtain ⟨cs, hcs⟩ : ∃ cs, n.children = c :: cs := by
    cases hchildren : n.children with
    | nil => simp [Node.child?, hchildren] at hc
    | cons d cs =>
      rw [Node.child?, hchildren] at hc
      exact ⟨cs, by rw [← Option.some.inj hc]⟩
  exact ⟨_, by rw [Node.childNodes, hcs, List.filterMap_cons, hleft]⟩

namespace Chain

variable {es : List (Node t)} {e : Node t}

theorem ne_nil (h : Chain n joints operands) : operands ≠ [] := by
  cases h with
  | single => exact List.cons_ne_nil _ _
  | joint => simp

/-- a chain of two operands or more has its last one behind its outermost joint -/
theorem concat_cases (h : Chain n joints (es ++ [e])) (hes : es ≠ []) :
    ∃ left inner, joints = n :: inner ∧ n.kind = .conjunction ∧ operands? n = some (left, e) ∧
      Chain left inner es := by
  generalize hlist : es ++ [e] = operands at h
  cases h with
  | single =>
    rw [List.append_eq_singleton_iff] at hlist
    simp [hes] at hlist
  | @joint _ left right joints operands hkind hoperands h =>
    obtain ⟨rfl, heq⟩ := List.append_inj' hlist rfl
    cases heq
    exact ⟨left, joints, rfl, hkind, hoperands, h⟩

theorem ne_singleton (h : Chain n joints operands) (hkind : n.kind = .conjunction) (e : Node t) :
    operands ≠ [e] := by
  cases h with
  | single hnot => exact absurd hkind hnot
  | joint _ _ h =>
    intro heq
    rcases List.append_eq_singleton_iff.1 heq with ⟨hnil, -⟩ | ⟨-, hnil⟩
    · exact h.ne_nil hnil
    · cases hnil

theorem kind_eq (h : Chain n (m :: joints) operands) : n.kind = .conjunction := by
  cases h with
  | joint hkind => exact hkind

theorem joints_eq_nil (h : Chain n joints [e]) : joints = [] := by
  cases joints with
  | nil => rfl
  | cons m joints => exact absurd rfl (h.ne_singleton h.kind_eq e)

theorem covers_joint (h : Chain n joints operands) : ∀ m ∈ joints, n.Covers m := by
  induction h with
  | single => exact nofun
  | joint _ hoperands _ ih =>
    intro m hm
    rcases List.mem_cons.1 hm with rfl | hm
    · exact .self m
    · exact .through (Node.mem_childNodes_of_childNode? (operands?_eq_some_iff.1 hoperands).1) (ih m hm)

theorem covers_operand (h : Chain n joints operands) : ∀ e ∈ operands, n.Covers e := by
  induction h with
  | single => exact fun e he => List.mem_singleton.1 he ▸ .self _
  | joint _ hoperands _ ih =>
    obtain ⟨hleft, hright⟩ := operands?_eq_some_iff.1 hoperands
    intro e he
    rcases List.mem_append.1 he with he | he
    · exact .through (Node.mem_childNodes_of_childNode? hleft) (ih e he)
    · obtain rfl := List.mem_singleton.1 he
      exact .through (Node.mem_childNodes_of_childNode? hright) (.self _)

/-- the operands of a chain stand apart, and where there are two, there is text in each -/
theorem pairwise_apart (ht : t.WellFormed) (h : Chain n joints operands) :
    operands.Pairwise fun e e' => e.span.Apart e'.span := by
  induction h with
  | single => exact List.pairwise_singleton _ _
  | @joint n left right joints operands hkind hoperands h ih =>
    obtain ⟨hleft, hright⟩ := operands?_eq_some_iff.1 hoperands
    refine List.pairwise_append.2 ⟨ih, List.pairwise_singleton _ _, fun e he e' he' => ?_⟩
    obtain rfl := List.mem_singleton.1 he'
    have hapart := ht.apart_of_childNode? Nat.zero_lt_one hleft hright
    have hinner := (ht.encloses_covered (h.covers_operand e he)).le
    unfold Span.Apart at hapart ⊢
    omega

theorem pos (ht : t.WellFormed) (h : Chain n joints operands) (hjoints : joints ≠ []) :
    ∀ e ∈ operands, e.span.start < e.span.stop := by
  induction h with
  | single => exact absurd rfl hjoints
  | @joint n left right joints operands hkind hoperands h ih =>
    obtain ⟨hleft, hright⟩ := operands?_eq_some_iff.1 hoperands
    intro e he
    rcases List.mem_append.1 he with he | he
    · cases h with
      | single =>
        obtain rfl := List.mem_singleton.1 he
        exact ht.operand_pos n hkind e (Node.mem_childNodes_of_childNode? hleft)
      | joint hkind' hoperands' h => exact ih (List.cons_ne_nil _ _) e he
    · obtain rfl := List.mem_singleton.1 he
      exact ht.operand_pos n hkind e (Node.mem_childNodes_of_childNode? hright)

theorem span_pos (ht : t.WellFormed) (h : Chain n joints operands) (hjoints : joints ≠ []) :
    n.span.start < n.span.stop := by
  obtain ⟨e, he⟩ := List.exists_mem_of_ne_nil operands h.ne_nil
  have hpos := h.pos ht hjoints e he
  have hinner := (ht.encloses_covered (h.covers_operand e he)).le
  omega

theorem nodup (ht : t.WellFormed) (h : Chain n joints operands) (hjoints : joints ≠ []) :
    operands.Nodup := by
  refine (h.pairwise_apart ht).imp_of_mem fun {e e'} he _ hapart heq => ?_
  have hpos := h.pos ht hjoints e he
  subst heq
  rcases hapart with hle | hle <;> omega

theorem eq_of_span_eq (ht : t.WellFormed) (h : Chain n joints operands) (hjoints : joints ≠ [])
    {e' : Node t} (he : e ∈ operands) (he' : e' ∈ operands) (hspan : e.span = e'.span) : e = e' := by
  by_contra hne
  have hapart : e.span.Apart e'.span := (h.pairwise_apart ht).forall he he' hne
  have hpos := h.pos ht hjoints e he
  rw [← hspan] at hapart
  rcases hapart with hle | hle <;> omega

/-- each joint has a chain of its own, with the operands up to one of them -/
theorem exists_of_mem (h : Chain n joints operands) (hm : m ∈ joints) :
    ∃ inner es e back, Chain m (m :: inner) (es ++ [e]) ∧ es ≠ [] ∧
      operands = es ++ e :: back := by
  induction h with
  | single => exact absurd hm List.not_mem_nil
  | @joint n left right joints operands hkind hoperands h ih =>
    rcases List.mem_cons.1 hm with rfl | hm
    · exact ⟨joints, operands, right, [], .joint hkind hoperands h, h.ne_nil, rfl⟩
    · obtain ⟨inner, es, e, back, hchain, hes, rfl⟩ := ih hm
      exact ⟨inner, es, e, back ++ [right], hchain, hes, by simp⟩

/-- where some operands stand behind another one, their joints are the outer ones -/
theorem split {front between : List (Node t)} {dear : Node t}
    (h : Chain n joints (front ++ dear :: between)) :
    ∃ outer inner, joints = outer ++ inner ∧ (∃ m, Chain m inner (front ++ [dear])) ∧
      ∀ k ∈ outer, ∃ js bs b, Chain k (k :: js) (front ++ dear :: bs ++ [b]) ∧
        ∀ e ∈ bs ++ [b], e ∈ between := by
  induction between using List.reverseRecOn generalizing n joints with
  | nil => exact ⟨[], joints, rfl, ⟨n, h⟩, fun k hk => absurd hk List.not_mem_nil⟩
  | append_singleton between b ih =>
    rw [← List.cons_append, ← List.append_assoc] at h
    obtain ⟨left, inner, rfl, hkind, hoperands, h'⟩ := h.concat_cases (by simp)
    obtain ⟨outer, inner, rfl, hinner, houter⟩ := ih h'
    refine ⟨n :: outer, inner, rfl, hinner, fun k hk => ?_⟩
    rcases List.mem_cons.1 hk with rfl | hk
    · exact ⟨_, between, b, h, fun e he => he⟩
    · obtain ⟨js, bs, b', hchain, hmem⟩ := houter k hk
      exact ⟨js, bs, b', hchain, fun e he => List.mem_append_left _ (hmem e he)⟩

/-- the walk through a chain comes to the joints first, and to none of them again -/
theorem exists_descendants_eq (ht : t.WellFormed) (h : Chain n joints operands) :
    ∃ rest : List (Node t), n.descendants = joints ++ rest ∧ ∀ m ∈ rest, m ∉ joints := by
  induction h with
  | @single n => exact ⟨n.descendants, rfl, fun m _ => List.not_mem_nil⟩
  | @joint n left right joints operands hkind hoperands h ih =>
    obtain ⟨rest, heq, hrest⟩ := ih
    have hleft := (operands?_eq_some_iff.1 hoperands).1
    obtain ⟨more, hchildren⟩ := childNodes_eq_cons hleft
    have hpairwise := ht.pairwise_childNodes n
    rw [hchildren, List.pairwise_cons] at hpairwise
    have hpos := ht.operand_pos n hkind left (Node.mem_childNodes_of_childNode? hleft)
    refine ⟨rest ++ more.flatMap Node.descendants, ?_, fun m hm hmem => ?_⟩
    · rw [Node.descendants_eq, hchildren, List.flatMap_cons, heq]
      simp
    obtain ⟨c, hc, hcm⟩ : ∃ c ∈ n.childNodes, c.Covers m := by
      rw [hchildren]
      rcases List.mem_append.1 hm with hm | hm
      · exact ⟨left, List.mem_cons_self,
          Node.mem_descendants.1 (heq ▸ List.mem_append_right _ hm)⟩
      · obtain ⟨d, hd, hdm⟩ := List.mem_flatMap.1 hm
        exact ⟨d, List.mem_cons_of_mem _ hd, Node.mem_descendants.1 hdm⟩
    rcases List.mem_cons.1 hmem with rfl | hmem
    · exact absurd hcm.index_le (Nat.not_le.2 (Node.childNodes_lt hc))
    rcases List.mem_append.1 hm with hm | hm
    · exact hrest m hm hmem
    · obtain ⟨d, hd, hdm⟩ := List.mem_flatMap.1 hm
      obtain rfl := Node.eq_of_covers (fun _ _ h => (ht.placed_child h).2)
        (Node.mem_childNodes_of_childNode? hleft) (hchildren ▸ List.mem_cons_of_mem _ hd)
        (h.covers_joint m hmem) (Node.mem_descendants.1 hdm)
      rcases hpairwise.1 left hd with hle | hle <;> omega

/-! ## the verdict at a joint -/

theorem lastDear?_eq {left right : Node t} (h : operands? n = some (left, right)) :
    lastDear? n = if right.isVariable = false then some right
      else if left.kind = .conjunction then lastDear? left else none := by
  obtain ⟨hleft, hright⟩ := operands?_eq_some_iff.1 h
  rw [lastDear?, hright]
  simp only
  split
  · next hnone => simp [hleft] at hnone
  · next left' hleft' =>
    obtain rfl := Option.some.inj (hleft.symm.trans hleft')
    simp

/-- the search in a chain finds the last operand that is no variable, unless it is the first one -/
theorem lastDear?_eq_some_iff (h : Chain n joints operands) (hkind : n.kind = .conjunction)
    {dear : Node t} : lastDear? n = some dear ↔
      ∃ front, LastDear Node.isVariable operands front dear ∧ front ≠ [] := by
  induction h with
  | single hnot => exact absurd hkind hnot
  | @joint n left right joints operands _ hoperands h ih =>
    rw [lastDear?_eq hoperands]
    cases hright : right.isVariable with
    | false =>
      simp only [if_true, Option.some.injEq, lastDear_concat_of_dear hright]
      constructor
      · rintro rfl
        exact ⟨operands, ⟨rfl, rfl⟩, h.ne_nil⟩
      · rintro ⟨_, ⟨-, rfl⟩, -⟩
        rfl
    | true =>
      simp only [Bool.true_eq_false, if_false, lastDear_concat_of_cheap hright]
      split
      · next hleft => exact ih hleft
      · next hleft =>
        -- the first operand of the chain is not looked at
        cases h with
        | joint hkind' => exact absurd hkind' hleft
        | single =>
          refine iff_of_false (fun h => nomatch h) ?_
          rintro ⟨front, ⟨-, between, heq, -⟩, hfront⟩
          rcases List.append_eq_singleton_iff.1 heq.symm with ⟨hnil, -⟩ | ⟨-, hnil⟩
          · exact hfront hnil
          · cases hnil

/-- At a joint, the last operand changes places with the one that waits for it. -/
theorem verdict_cases (h : Chain n joints (es ++ [e])) (hes : es ≠ []) :
    (∃ dear, e.isVariable = true ∧ Waits Node.isVariable es dear ∧
      (conjunctionVerdict n = exchanging n dear e ∨ conjunctionVerdict n = exchanging n e dear)) ∨
    (e.isVariable = true → ∀ dear, ¬ Waits Node.isVariable es dear) ∧
      conjunctionVerdict n = .ok none := by
  obtain ⟨left, inner, rfl, hkind, hoperands, h⟩ := h.concat_cases hes
  rw [conjunctionVerdict, hoperands]
  simp only
  cases he : e.isVariable with
  | false => exact .inr ⟨Bool.false_ne_true.elim, rfl⟩
  | true =>
    simp only [Bool.not_true, Bool.false_eq_true, if_false, true_implies, true_and]
    by_cases hleft : left.kind = .conjunction
    · simp only [hleft, ne_eq, not_true_eq_false, if_false]
      have hsearch := fun dear : Node t => @lastDear?_eq_some_iff t left inner es h hleft dear
      cases hfound : lastDear? left with
      | some dear =>
        obtain ⟨front, hlast, hfront⟩ := (hsearch dear).1 hfound
        exact .inl ⟨dear, ⟨front, hlast, fun h => absurd h hfront⟩, .inr rfl⟩
      | none =>
        refine .inr ⟨?_, rfl⟩
        rintro dear ⟨front, hlast, honly⟩
        have hfront : front ≠ [] := fun hnil => h.ne_singleton hleft dear (honly hnil)
        rw [(hsearch dear).2 ⟨front, hlast, hfront⟩] at hfound
        cases hfound
    · cases h with
      | joint hkind' => exact absurd hkind' hleft
      | single =>
        simp only [hleft, ne_eq, not_false_eq_true, if_true]
        cases hdear : left.isVariable with
        | true =>
          refine .inr ⟨?_, rfl⟩
          rintro dear ⟨front, hlast, -⟩
          obtain rfl := List.mem_singleton.1 hlast.mem
          rw [hlast.1] at hdear
          cases hdear
        | false =>
          refine .inl ⟨left, ⟨[], ⟨hdear, [], rfl, fun _ h => ?_⟩, fun _ => rfl⟩, .inl rfl⟩
          exact absurd h List.not_mem_nil

end Chain

/-! ## along first operands -/

/-- the way from a conjunction along first operands -/
inductive Leads : Node t → Node t → Prop
  | self (n : Node t) : Leads n n
  | step {n left m : Node t} (hkind : n.kind = .conjunction) (hleft : n.childNode? 0 = some left)
      (h : Leads left m) : Leads n m

def Outermost (n : Node t) : Prop := ∀ m : Node t, m.kind = .conjunction → m.childNode? 0 ≠ some n

def HasOperand (n e : Node t) : Prop :=
  ∃ k left right, Leads n k ∧ k.kind = .conjunction ∧ operands? k = some (left, right) ∧
    (e = left ∨ e = right)

namespace Leads

theorem covers (h : Leads n m) : n.Covers m := by
  induction h with
  | self n => exact .self n
  | step _ hleft _ ih => exact .through (Node.mem_childNodes_of_childNode? hleft) ih

theorem eq_of_outermost (h : Leads n m) (hm : Outermost m) : n = m := by
  induction h with
  | self => rfl
  | step hkind hleft _ ih =>
    obtain rfl := ih hm
    exact absurd hleft (hm _ hkind)

theorem between (ht : t.WellFormed) (h : Leads n m) {k : Node t} (hnk : n.Covers k)
    (hkm : k.Covers m) : Leads n k := by
  induction h with
  | self n =>
    have hindex := Nat.le_antisymm hkm.index_le hnk.index_le
    rw [Node.ext hindex.symm]
    exact .self n
  | @step n left m hkind hleft h ih =>
    rcases Node.covers_iff.1 hnk with rfl | ⟨c, hc, hck⟩
    · exact .self k
    · have hmem := Node.mem_childNodes_of_childNode? hleft
      obtain rfl := Node.eq_of_covers (fun _ _ h => (ht.placed_child h).2) hc hmem
        (hck.trans hkm) h.covers
      exact .step hkind hleft (ih hck hkm)

end Leads

theorem Chain.mem_joints (h : Chain n joints operands) (hm : Leads n m)
    (hkind : m.kind = .conjunction) : m ∈ joints := by
  induction h with
  | single hnot =>
    cases hm with
    | self => exact absurd hkind hnot
    | step hkind' => exact absurd hkind' hnot
  | @joint n left right joints operands _ hoperands h ih =>
    cases hm with
    | self => exact List.mem_cons_self
    | step _ hleft hm =>
      obtain rfl := Option.some.inj ((operands?_eq_some_iff.1 hoperands).1.symm.trans hleft)
      exact List.mem_cons_of_mem _ (ih hm)

theorem Chain.hasOperand (h : Chain n joints operands) (hjoints : joints ≠ []) :
    ∀ e ∈ operands, HasOperand n e := by
  induction h with
  | single => exact absurd rfl hjoints
  | @joint n left right joints operands hkind hoperands h ih =>
    intro e he
    rcases List.mem_append.1 he with he | he
    · cases h with
      | single =>
        exact ⟨n, e, right, .self n, hkind, List.mem_singleton.1 he ▸ hoperands, .inl rfl⟩
      | joint hkind' hoperands' h' =>
        obtain ⟨k, l, r, hk, hrest⟩ := ih (List.cons_ne_nil _ _) e he
        exact ⟨k, l, r, .step hkind (operands?_eq_some_iff.1 hoperands).1 hk, hrest⟩
    · exact ⟨n, left, right, .self n, hkind, hoperands, .inr (List.mem_singleton.1 he)⟩

theorem hasOperand_of_lastDear? (hkind : n.kind = .conjunction) (h : lastDear? n = some m) :
    HasOperand n m := by
  fun_induction lastDear? n with
  | case1 => cases h
  | case2 => cases h
  | case3 n right hright left hleft hdear =>
    obtain rfl := Option.some.inj h
    exact ⟨n, left, right, .self n, hkind, operands?_eq_some_iff.2 ⟨hleft, hright⟩, .inr rfl⟩
  | case4 n right hright left hleft hdear hkind' ih =>
    obtain ⟨k, l, r, hk, hrest⟩ := ih hkind' h
    exact ⟨k, l, r, .step hkind hleft hk, hrest⟩
  | case5 => cases h

/-- what changes places at a conjunction are operands of the conjunctions to which it leads -/
theorem verdict_hasOperand (hkind : n.kind = .conjunction) : conjunctionVerdict n = .ok none ∨
    ∃ e e', conjunctionVerdict n = exchanging n e e' ∧ HasOperand n e ∧ HasOperand n e' := by
  rw [conjunctionVerdict]
  split
  · exact .inl rfl
  next left right hoperands =>
    have hoperand : ∀ {e}, e = left ∨ e = right → HasOperand n e := fun he =>
      ⟨n, left, right, .self n, hkind, hoperands, he⟩
    split
    · exact .inl rfl
    split
    · split
      · exact .inl rfl
      · exact .inr ⟨left, right, rfl, hoperand (.inl rfl), hoperand (.inr rfl)⟩
    · next hleft =>
      split
      · next dear hdear =>
        obtain ⟨k, l, r, hk, hrest⟩ := hasOperand_of_lastDear? (not_not.1 hleft) hdear
        exact .inr ⟨right, dear, rfl, hoperand (.inr rfl),
          k, l, r, .step hkind (operands?_eq_some_iff.1 hoperands).1 hk, hrest⟩
      · exact .inl rfl

/-! ## other chains -/

theorem covers_total (ht : t.WellFormed) {k : Node t} (hn : n ∈ t.preorder) (hm : m ∈ t.preorder)
    (hnk : n.Covers k) (hmk : m.Covers k) : n.Covers m ∨ m.Covers n := by
  rcases SyntaxTree.covers_or_parted (Node.mem_descendants.1 hn) (Node.mem_descendants.1 hm) with
    h | h | ⟨p, c, d, hc, hd, hcd, hcn, hdm⟩
  · exact .inl h
  · exact .inr h
  · exact absurd (Node.eq_of_covers (fun _ _ h => (ht.placed_child h).2) hc hd (hcn.trans hnk)
      (hdm.trans hmk)) hcd

theorem not_contains_joint (ht : t.WellFormed) {k left right e : Node t}
    (hkind : k.kind = .conjunction) (hoperands : operands? k = some (left, right))
    (he : e = left ∨ e = right) : ¬ e.span.contains k.span = true := by
  obtain ⟨hleft, hright⟩ := operands?_eq_some_iff.1 hoperands
  have hlmem := Node.mem_childNodes_of_childNode? hleft
  have hrmem := Node.mem_childNodes_of_childNode? hright
  have hlpos := ht.operand_pos k hkind left hlmem
  have hrpos := ht.operand_pos k hkind right hrmem
  have hl := (ht.encloses_child hlmem).le
  have hr := (ht.encloses_child hrmem).le
  have hapart : left.span.stop ≤ right.span.start ∨ right.span.stop ≤ left.span.start :=
    ht.apart_of_childNode? Nat.zero_lt_one hleft hright
  rw [Span.contains_iff]
  rcases he with rfl | rfl <;> omega

theorem HasOperand.covers {j e : Node t} (h : HasOperand j e) : j.Covers e := by
  obtain ⟨k, left, right, hjk, -, hoperands, he⟩ := h
  obtain ⟨hleft, hright⟩ := operands?_eq_some_iff.1 hoperands
  refine hjk.covers.trans (.through ?_ (.self e))
  rcases he with rfl | rfl
  · exact Node.mem_childNodes_of_childNode? hleft
  · exact Node.mem_childNodes_of_childNode? hright

theorem HasOperand.exists_parent (ht : t.WellFormed) {j e : Node t} (h : HasOperand j e) :
    ∃ k, e.parent? = some k ∧ Leads j k ∧ k.kind = .conjunction ∧
      ¬ e.span.contains k.span = true := by
  obtain ⟨k, left, right, hjk, hkind, hoperands, he⟩ := h
  obtain ⟨hleft, hright⟩ := operands?_eq_some_iff.1 hoperands
  have hmem : e ∈ k.childNodes := by
    rcases he with rfl | rfl
    · exact Node.mem_childNodes_of_childNode? hleft
    · exact Node.mem_childNodes_of_childNode? hright
  exact ⟨k, (ht.placed_child hmem).2, hjk, hkind, not_contains_joint ht hkind hoperands he⟩

theorem eq_or_covers (ht : t.WellFormed) {e k p : Node t} (hk : e.parent? = some k)
    (h : p.Covers e) : p = e ∨ p.Covers k := by
  rcases (Node.covers_iff_parent fun _ _ h => (ht.placed_child h).2).1 h with h | ⟨q, hq, hpq⟩
  · exact .inl h
  · obtain rfl := Option.some.inj (hk.symm.trans hq)
    exact .inr hpq

section
variable {j e e' : Node t} (ht : t.WellFormed) (hn : n ∈ t.preorder) (hj : j ∈ t.preorder)
  (houter : Outermost n)
include ht hn hj houter

/-- Where two conjunctions lead to a third one, the outermost of them leads to the other. -/
theorem leads_of_outermost {k : Node t} (hnk : Leads n k) (hjk : Leads j k) : Leads n j := by
  rcases covers_total ht hn hj hnk.covers hjk.covers with h | h
  · exact hnk.between ht h hjk.covers
  · obtain rfl := (hjk.between ht h hnk.covers).eq_of_outermost houter
    exact .self j

/-- an operand of a conjunction that does not stand below a chain stands around it or apart from it -/
theorem around_or_apart (hoperand : HasOperand j e) (hnot : ¬ n.Covers j) :
    e.span.contains n.span = true ∨ e.span.Apart n.span := by
  have he : t.rootNode.Covers e := (Node.mem_descendants.1 hj).trans hoperand.covers
  rcases SyntaxTree.covers_or_parted he (Node.mem_descendants.1 hn) with
    h | h | ⟨p, c, d, hc, hd, hcd, hce, hdn⟩
  · exact .inl (ht.encloses_covered h).contains
  · obtain ⟨k, hk, hjk, -, -⟩ := hoperand.exists_parent ht
    rcases eq_or_covers ht hk h with rfl | hnk
    · exact .inl (Span.contains_refl _)
    · -- both stand above the conjunction of the operand
      rcases covers_total ht hn hj hnk hjk.covers with h | h
      · exact absurd h hnot
      · obtain rfl := (hjk.between ht h hnk).eq_of_outermost houter
        exact absurd (.self j) hnot
  · have hapart : c.span.Apart d.span := (ht.pairwise_childNodes p).forall hc hd hcd
    have hinner := (ht.encloses_covered hce).le
    have hinner' := (ht.encloses_covered hdn).le
    unfold Span.Apart at hapart ⊢
    exact .inr (by omega)

/-- no operand of another conjunction has the span of an operand of a chain -/
theorem span_ne_of_other (h : Chain n joints operands) (hother : j ∉ joints)
    (hkind : j.kind = .conjunction) (hjoints : joints ≠ []) (he : e ∈ operands)
    (hoperand : HasOperand j e') : e'.span ≠ e.span := by
  intro hspan
  obtain ⟨k, hk, hnk, -, hwide⟩ := (h.hasOperand hjoints e he).exists_parent ht
  obtain ⟨k', hk', hjk, -, hwide'⟩ := hoperand.exists_parent ht
  -- an operand of both would have one conjunction above it, to which both lead
  have hne : e' ≠ e := by
    rintro rfl
    obtain rfl := Option.some.inj (hk.symm.trans hk')
    exact hother (h.mem_joints (leads_of_outermost ht hn hj houter hnk hjk) hkind)
  have hbelow : t.rootNode.Covers e :=
    (Node.mem_descendants.1 hn).trans (h.covers_operand e he)
  have hbelow' : t.rootNode.Covers e' := (Node.mem_descendants.1 hj).trans hoperand.covers
  rcases SyntaxTree.covers_or_parted hbelow' hbelow with hc | hc | ⟨p, c, d, hc, hd, hcd, hce, hdn⟩
  · rcases eq_or_covers ht hk hc with heq | hc
    · exact hne heq
    · exact hwide (hspan ▸ (ht.encloses_covered hc).contains)
  · rcases eq_or_covers ht hk' hc with heq | hc
    · exact hne heq.symm
    · exact hwide' (hspan ▸ (ht.encloses_covered hc).contains)
  · have hpos := h.pos ht hjoints e he
    have hapart : c.span.Apart d.span := (ht.pairwise_childNodes p).forall hc hd hcd
    have hinner := (ht.encloses_covered hce).le
    have hinner' := (ht.encloses_covered hdn).le
    rw [hspan] at hinner
    unfold Span.Apart at hapart
    omega

end

end

end RubyLint.Rule
