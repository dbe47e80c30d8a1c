import RubyLint.Proofs.Pattern.Match

/-!
# Where a match fails

A predicate may fail, and a placeholder may stand for nothing.  `Condition.Fails` says when the
decision of a condition comes to such a place, by what has been decided before: an element of a
sequence is asked if those in front of it hold, a branch of a union if those in front of it do not.
Nothing makes up for a failure, neither a negation around it nor another branch behind it.

* `Attempt.Settles`        an attempt fails where it should, and answers otherwise;
* `settles_attempt`        each condition is decided in this way;
* `isSome_matchChild_iff_not_fails`   a pattern matches if nothing fails and its condition holds.
-/

namespace RubyLint.Pattern

/-! ## one after the other -/

/-- The element is in the list, and those in front of it have the property. -/
inductive ComesTo {α : Type} (P : α → Prop) : List α → α → Prop
  | here {a : α} {l : List α} : ComesTo P (a :: l) a
  | later {a b : α} {l : List α} (hb : P b) (h : ComesTo P l a) : ComesTo P (b :: l) a

namespace ComesTo

variable {α : Type} {P Q : α → Prop} {l : List α} {a b : α}

theorem exists_cons_iff :
    (∃ x, ComesTo P (b :: l) x ∧ Q x) ↔ Q b ∨ P b ∧ ∃ x, ComesTo P l x ∧ Q x := by
  constructor
  · rintro ⟨x, hx, hQ⟩
    cases hx with
    | here => exact .inl hQ
    | later hb h => exact .inr ⟨hb, x, h, hQ⟩
  · rintro (hQ | ⟨hb, x, h, hQ⟩)
    · exact ⟨b, .here, hQ⟩
    · exact ⟨x, .later hb h, hQ⟩

theorem not_exists_nil : ¬ ∃ x, ComesTo P [] x ∧ Q x := by
  rintro ⟨x, hx, -⟩
  cases hx

end ComesTo

/-! ## the cut of the children -/

/-- The children of a node in three parts: so many in front, so many behind, and between them a
number that the element in the middle may take. -/
structure Cut {α : Type} (before behind : Nat) (arity : Arity) (cs xs ys zs : List α) : Prop where
  eq : cs = xs ++ ys ++ zs
  front : xs.length = before
  back : zs.length = behind
  allows : arity.allows ys.length = true

namespace Cut

variable {α : Type} {before behind : Nat} {arity : Arity} {cs xs ys zs xs' ys' zs' : List α}

theorem unique (h : Cut before behind arity cs xs ys zs)
    (h' : Cut before behind arity cs xs' ys' zs') : xs' = xs ∧ ys' = ys ∧ zs' = zs := by
  obtain ⟨hx, hy, hz⟩ := cut_unique h.eq h.front h.back
  obtain ⟨hx', hy', hz'⟩ := cut_unique h'.eq h'.front h'.back
  exact ⟨hx'.trans hx.symm, hy'.trans hy.symm, hz'.trans hz.symm⟩

theorem of_fit (hfixed : before + behind ≤ cs.length)
    (harity : arity.allows (cs.length - (before + behind)) = true) :
    Cut before behind arity cs (cs.take before)
      ((cs.drop before).take (cs.length - (before + behind)))
      ((cs.drop before).drop (cs.length - (before + behind))) where
  eq := cut_eq cs before _
  front := by
    rw [List.length_take]
    omega
  back := by
    rw [List.length_drop, List.length_drop]
    omega
  allows := by
    have htaken : ((cs.drop before).take (cs.length - (before + behind))).length =
        cs.length - (before + behind) := by
      rw [List.length_take, List.length_drop]
      omega
    rw [htaken]
    exact harity

theorem fit (h : Cut before behind arity cs xs ys zs) :
    before + behind ≤ cs.length ∧ arity.allows (cs.length - (before + behind)) = true := by
  have hlen : cs.length = before + ys.length + behind := by
    rw [h.eq, List.length_append, List.length_append, h.front, h.back]
  have hy : cs.length - (before + behind) = ys.length := by omega
  exact ⟨by omega, by rw [hy]; exact h.allows⟩

end Cut

namespace Condition

/-! ## failing -/

/-- What a sequence with an element that takes several children asks, in its order: the elements in
front, those behind, and then the one between. -/
def asked {t : SyntaxTree} (front : List Condition) (middle : Condition) (back : List Condition)
    (xs ys zs : List (NodeChild t)) : List (Condition × NodeChild t) :=
  front.zip xs ++ (back.zip zs ++ ys.map fun d => (middle, d))

theorem forall_asked {t : SyntaxTree} {front back : List Condition} {middle : Condition}
    {xs ys zs : List (NodeChild t)} {motive : Condition → NodeChild t → Prop}
    (hf : ∀ p ∈ front, ∀ c, motive p c) (hm : ∀ c, motive middle c)
    (hb : ∀ p ∈ back, ∀ c, motive p c) :
    ∀ x ∈ asked front middle back xs ys zs, motive x.1 x.2 := by
  intro x hx
  rcases List.mem_append.1 hx with hx | hx
  · exact hf _ (List.of_mem_zip hx).1 _
  rcases List.mem_append.1 hx with hx | hx
  · exact hb _ (List.of_mem_zip hx).1 _
  · obtain ⟨d, -, rfl⟩ := List.mem_map.1 hx
    exact hm d

/-- The decision of the condition comes to a question that has no answer. -/
inductive Fails (s : Setting) {t : SyntaxTree} : Condition → NodeChild t → Prop
  /-- the predicate fails, or there is none, or it cannot be given its arguments -/
  | external {name : String} {arguments : List Argument} {c : NodeChild t} {e : PredicateError}
      (h : s.ask name arguments c = .error e) : Fails s (.external name arguments) c
  /-- the placeholder stands for nothing -/
  | param {number : Nat} {c : NodeChild t} {e : PredicateError} (h : s.param number = .error e) :
      Fails s (.param number) c
  | capture {slot : Nat} {inner : Condition} {c : NodeChild t} (h : Fails s inner c) :
      Fails s (.capture slot inner) c
  | exactlyHead {head : Condition} {elements : List Condition} {n : Node t}
      (h : Fails s head (.node n)) : Fails s (.exactly head elements) (.node n)
  | exactlyElement {head p : Condition} {elements : List Condition} {n : Node t} {c : NodeChild t}
      (hhead : head.Holds s (.node n)) (hlen : n.childCount = elements.length)
      (hcomes : ComesTo (fun x => x.1.Holds s x.2) (elements.zip n.children) (p, c))
      (h : Fails s p c) : Fails s (.exactly head elements) (.node n)
  | aroundHead {head middle : Condition} {front back : List Condition} {arity : Arity}
      {slot : Option Nat} {n : Node t} (h : Fails s head (.node n)) :
      Fails s (.around head front middle arity slot back) (.node n)
  | aroundElement {head middle p : Condition} {front back : List Condition} {arity : Arity}
      {slot : Option Nat} {n : Node t} {xs ys zs : List (NodeChild t)} {c : NodeChild t}
      (hhead : head.Holds s (.node n))
      (hcut : Cut front.length back.length arity n.children xs ys zs)
      (hcomes : ComesTo (fun x => x.1.Holds s x.2) (asked front middle back xs ys zs) (p, c))
      (h : Fails s p c) : Fails s (.around head front middle arity slot back) (.node n)
  /-- no branch in front holds, and so this one is tried -/
  | branch {branches : List Condition} {p : Condition} {c : NodeChild t}
      (hcomes : ComesTo (fun q => ¬ q.Holds s c) branches p) (h : Fails s p c) :
      Fails s (.union branches) c
  | term {terms : List Condition} {p : Condition} {c : NodeChild t}
      (hcomes : ComesTo (fun q => q.Holds s c) terms p) (h : Fails s p c) :
      Fails s (.intersection terms) c
  | negation {inner : Condition} {c : NodeChild t} (h : Fails s inner c) :
      Fails s (.negation inner) c
  | parent {inner : Condition} {n p : Node t} (hn : n.parent? = some p)
      (h : Fails s inner (.node p)) : Fails s (.parent inner) (.node n)
  /-- of no node in front does it hold, and so this one is tried -/
  | descendant {inner : Condition} {n m : Node t}
      (hcomes : ComesTo (fun k => ¬ inner.Holds s (.node k)) n.descendants m)
      (h : Fails s inner (.node m)) : Fails s (.descendant inner) (.node n)
  | itself {inner : Condition} {v : Value} (h : Fails s inner (.value v : NodeChild t)) :
      Fails s (.descendant inner) (.value v)

section
variable {s : Setting} {t : SyntaxTree} {c : NodeChild t} {n : Node t}

theorem fails_exactly_iff {head : Condition} {elements : List Condition} :
    Fails s (.exactly head elements) (.node n) ↔ Fails s head (.node n) ∨
      head.Holds s (.node n) ∧ n.childCount = elements.length ∧
        ∃ x, ComesTo (fun x => x.1.Holds s x.2) (elements.zip n.children) x ∧ x.1.Fails s x.2 := by
  constructor
  · intro h
    cases h with
    | exactlyHead h => exact .inl h
    | exactlyElement hhead hlen hcomes h => exact .inr ⟨hhead, hlen, _, hcomes, h⟩
  · rintro (h | ⟨hhead, hlen, _, hcomes, h⟩)
    · exact .exactlyHead h
    · exact .exactlyElement hhead hlen hcomes h

theorem fails_around_iff {head middle : Condition} {front back : List Condition} {arity : Arity}
    {slot : Option Nat} :
    Fails s (.around head front middle arity slot back) (.node n) ↔ Fails s head (.node n) ∨
      head.Holds s (.node n) ∧ ∃ xs ys zs, Cut front.length back.length arity n.children xs ys zs ∧
        ∃ x, ComesTo (fun x => x.1.Holds s x.2) (asked front middle back xs ys zs) x ∧
          x.1.Fails s x.2 := by
  constructor
  · intro h
    cases h with
    | aroundHead h => exact .inl h
    | aroundElement hhead hcut hcomes h => exact .inr ⟨hhead, _, _, _, hcut, _, hcomes, h⟩
  · rintro (h | ⟨hhead, _, _, _, hcut, _, hcomes, h⟩)
    · exact .aroundHead h
    · exact .aroundElement hhead hcut hcomes h

theorem fails_parent_iff {inner : Condition} :
    Fails s (.parent inner) c ↔
      ∃ p, c.asNode?.bind Node.parent? = some p ∧ inner.Fails s (.node p) := by
  constructor
  · intro h
    cases h with
    | parent hn h => exact ⟨_, hn, h⟩
  · rintro ⟨p, hp, h⟩
    cases c with
    | node n => exact .parent hp h
    | value v => cases hp

theorem holds_parent_iff {inner : Condition} :
    Holds s (.parent inner) c ↔
      ∃ p, c.asNode?.bind Node.parent? = some p ∧ inner.Holds s (.node p) := by
  rw [Holds]
  constructor
  · rintro ⟨n, p, rfl, hn, h⟩
    exact ⟨p, hn, h⟩
  · rintro ⟨p, hp, h⟩
    cases c with
    | node n => exact ⟨n, p, rfl, hp, h⟩
    | value v => cases hp

/-! ## holding, child by child -/

theorem holdEach_iff_zip {ps : List Condition} {cs : List (NodeChild t)}
    (h : cs.length = ps.length) :
    HoldEach s ps cs ↔ ∀ x ∈ ps.zip cs, x.1.Holds s x.2 := by
  induction ps generalizing cs with
  | nil =>
    rw [List.length_eq_zero_iff.1 h]
    exact iff_of_true rfl fun x hx => absurd hx List.not_mem_nil
  | cons p ps ih =>
    cases cs with
    | nil => cases h
    | cons c cs =>
      rw [holdEach_cons, ih (Nat.succ.inj h), List.zip_cons_cons, List.forall_mem_cons]

theorem holds_exactly_iff {head : Condition} {elements : List Condition} :
    Holds s (.exactly head elements) (.node n) ↔ head.Holds s (.node n) ∧
      n.childCount = elements.length ∧ ∀ x ∈ elements.zip n.children, x.1.Holds s x.2 := by
  rw [holds_exactly_node]
  refine and_congr_right fun _ => ⟨fun h => ?_, fun h => (holdEach_iff_zip h.1).2 h.2⟩
  have hlen := length_of_holdEach h
  exact ⟨hlen, (holdEach_iff_zip hlen).1 h⟩

theorem forall_asked_iff {front back : List Condition} {middle : Condition} {arity : Arity}
    {cs xs ys zs : List (NodeChild t)} (hcut : Cut front.length back.length arity cs xs ys zs) :
    (∀ x ∈ asked front middle back xs ys zs, x.1.Holds s x.2) ↔
      HoldEach s front xs ∧ HoldEach s back zs ∧ ∀ d ∈ ys, middle.Holds s d := by
  rw [asked, List.forall_mem_append, List.forall_mem_append, List.forall_mem_map,
    holdEach_iff_zip hcut.front, holdEach_iff_zip hcut.back]

theorem holds_around_iff {head middle : Condition} {front back : List Condition} {arity : Arity}
    {slot : Option Nat} :
    Holds s (.around head front middle arity slot back) (.node n) ↔ head.Holds s (.node n) ∧
      ∃ xs ys zs, Cut front.length back.length arity n.children xs ys zs ∧
        ∀ x ∈ asked front middle back xs ys zs, x.1.Holds s x.2 := by
  rw [holds_around_node]
  refine and_congr_right fun _ => ⟨?_, ?_⟩
  · rintro ⟨xs, ys, zs, heq, hfront, hback, hallows, hall⟩
    have hcut : Cut front.length back.length arity n.children xs ys zs :=
      ⟨heq, length_of_holdEach hfront, length_of_holdEach hback, hallows⟩
    exact ⟨xs, ys, zs, hcut, (forall_asked_iff hcut).2 ⟨hfront, hback, hall⟩⟩
  · rintro ⟨xs, ys, zs, hcut, h⟩
    obtain ⟨hfront, hback, hall⟩ := (forall_asked_iff hcut).1 h
    exact ⟨xs, ys, zs, hcut.eq, hfront, hback, hcut.allows, hall⟩

end

end Condition

/-! ## attempts -/

namespace Attempt

variable {t : SyntaxTree}

/-- Whatever is bound already, the attempt fails exactly where `fails`, and otherwise it answers
whether `holds`. -/
def Settles (a : Attempt t) (fails holds : Prop) : Prop :=
  ∀ log, (∃ e, a log = .error e ∧ fails) ∨
    ∃ b log', a log = .ok (b, log') ∧ ¬ fails ∧ (b = true ↔ holds)

variable {a a' : Attempt t} {fails fails' holds holds' : Prop}

theorem Settles.congr (h : a.Settles fails holds) (hf : fails' ↔ fails) (hh : holds' ↔ holds) :
    a.Settles fails' holds' := by
  rw [propext hf, propext hh]
  exact h

theorem settles_ofBool {b : Bool} (hf : ¬ fails) (hh : b = true ↔ holds) :
    (ofBool b : Attempt t).Settles fails holds :=
  fun log => .inr ⟨b, log, rfl, hf, hh⟩

theorem settles_bindTaken (slot : Option Nat) (cs : List (NodeChild t)) :
    (bindTaken slot cs).Settles False True := by
  intro log
  cases slot with
  | some k => exact .inr ⟨true, log ++ [⟨k, .many cs⟩], rfl, id, by simp⟩
  | none => exact .inr ⟨true, log, rfl, id, by simp⟩

/-- What the attempt makes of the log is known; it remains to say when it fails. -/
theorem Reads.settles {slots : List Nat} {binds : List (Binding t) → Prop}
    (h : a.Reads slots holds binds) (hb : ∀ bs, binds bs → holds)
    (hf : ∀ log, (∃ e, a log = .error e) ↔ fails) : a.Settles fails holds := by
  intro log
  cases ha : a log with
  | error e => exact .inl ⟨e, rfl, (hf log).1 ⟨e, ha⟩⟩
  | ok r =>
    obtain ⟨b, log'⟩ := r
    obtain ⟨bs, -, -, htrue, hfalse⟩ := h log b log' ha
    refine .inr ⟨b, log', rfl, fun hfails => ?_, fun hb' => hb bs (htrue hb'), fun hh => ?_⟩
    · obtain ⟨e, he⟩ := (hf log).2 hfails
      rw [ha] at he
      cases he
    · cases b with
      | true => rfl
      | false => exact absurd hh (hfalse rfl)

/-- The second is decided only if the first holds. -/
theorem Settles.both (h : a.Settles fails holds) (h' : a'.Settles fails' holds') :
    (both a a').Settles (fails ∨ holds ∧ fails') (holds ∧ holds') := by
  intro log
  obtain ⟨e, he, hf⟩ | ⟨b, log', hr, hf, hb⟩ := h log
  · exact .inl ⟨e, by rw [Attempt.both, he], .inl hf⟩
  cases b with
  | false =>
    have hno : ¬ holds := fun hh => Bool.false_ne_true (hb.2 hh)
    refine .inr ⟨false, log', by rw [Attempt.both, hr], ?_, iff_of_false Bool.false_ne_true ?_⟩
    · exact fun hor => hor.elim hf fun hand => hno hand.1
    · exact fun hand => hno hand.1
  | true =>
    have hh : holds := hb.1 rfl
    obtain ⟨e, he, hf'⟩ | ⟨b', log'', hr', hf', hb'⟩ := h' log'
    · exact .inl ⟨e, by rw [Attempt.both, hr]; exact he, .inr ⟨hh, hf'⟩⟩
    · refine .inr ⟨b', log'', by rw [Attempt.both, hr]; exact hr', ?_, ?_⟩
      · exact fun hor => hor.elim hf fun hand => hf' hand.2
      · rw [hb', and_iff_right hh]

theorem Settles.negate (h : a.Settles fails holds) : a.negate.Settles fails (¬ holds) := by
  intro log
  obtain ⟨e, he, hf⟩ | ⟨b, log', hr, hf, hb⟩ := h log
  · exact .inl ⟨e, by rw [Attempt.negate, he], hf⟩
  · refine .inr ⟨!b, log', by rw [Attempt.negate, hr], hf, ?_⟩
    rw [← hb, Bool.not_eq_true', Bool.not_eq_true]

/-- The second is decided only if the first does not hold. -/
theorem Settles.orElseFrom (h : a.Settles fails holds) (h' : a'.Settles fails' holds')
    (mark : Nat) : (orElseFrom mark a a').Settles (fails ∨ ¬ holds ∧ fails') (holds ∨ holds') := by
  intro log
  obtain ⟨e, he, hf⟩ | ⟨b, log', hr, hf, hb⟩ := h log
  · exact .inl ⟨e, by rw [Attempt.orElseFrom, he], .inl hf⟩
  cases b with
  | true =>
    have hh : holds := hb.1 rfl
    refine .inr ⟨true, log', by rw [Attempt.orElseFrom, hr], ?_, iff_of_true rfl (.inl hh)⟩
    exact fun hor => hor.elim hf fun hand => hand.1 hh
  | false =>
    have hno : ¬ holds := fun hh => Bool.false_ne_true (hb.2 hh)
    obtain ⟨e, he, hf'⟩ | ⟨b', log'', hr', hf', hb'⟩ := h' (log'.take mark)
    · exact .inl ⟨e, by rw [Attempt.orElseFrom, hr]; exact he, .inr ⟨hno, hf'⟩⟩
    · refine .inr ⟨b', log'', by rw [Attempt.orElseFrom, hr]; exact hr', ?_, ?_⟩
      · exact fun hor => hor.elim hf fun hand => hf' hand.2
      · rw [hb', or_iff_right hno]

section
variable {α : Type} {f : α → Attempt t} {F H : α → Prop} {l : List α}

theorem settles_firstOf (h : ∀ x ∈ l, (f x).Settles (F x) (H x)) (mark : Nat) :
    (firstOf f mark l).Settles (∃ x, ComesTo (fun y => ¬ H y) l x ∧ F x) (∃ x ∈ l, H x) := by
  induction l with
  | nil => exact settles_ofBool ComesTo.not_exists_nil (iff_of_false Bool.false_ne_true (by simp))
  | cons x l ih =>
    have hrest := ih fun y hy => h y (List.mem_cons_of_mem _ hy)
    refine ((h x List.mem_cons_self).orElseFrom hrest mark).congr ComesTo.exists_cons_iff ?_
    simp only [List.mem_cons, exists_eq_or_imp]

theorem settles_forAll (h : ∀ x ∈ l, (f x).Settles (F x) (H x)) :
    (forAll f l).Settles (∃ x, ComesTo H l x ∧ F x) (∀ x ∈ l, H x) := by
  induction l with
  | nil => exact settles_ofBool ComesTo.not_exists_nil (iff_of_true rfl (by simp))
  | cons x l ih =>
    have hrest := ih fun y hy => h y (List.mem_cons_of_mem _ hy)
    exact ((h x List.mem_cons_self).both hrest).congr ComesTo.exists_cons_iff List.forall_mem_cons

end

theorem around_of_no_cut {before behind : Nat} {arity : Arity} {cs : List (NodeChild t)}
    {slot : Option Nat} {front back : List (NodeChild t) → Attempt t}
    {middle : NodeChild t → Attempt t} (h : ¬ ∃ xs ys zs, Cut before behind arity cs xs ys zs) :
    around before behind arity slot front middle back cs = ofBool false :=
  around_of_misfit fun hfit => h ⟨_, _, _, Cut.of_fit hfit.1 hfit.2⟩

theorem both_assoc (a b c : Attempt t) : both (both a b) c = both a (both b c) := by
  funext log
  simp only [both]
  cases a log with
  | error e => rfl
  | ok r =>
    obtain ⟨b', log'⟩ := r
    cases b' with
    | true => rfl
    | false => rfl

theorem forAll_append {α : Type} (f : α → Attempt t) (l l' : List α) :
    forAll f (l ++ l') = both (forAll f l) (forAll f l') := by
  induction l with
  | nil => rfl
  | cons x l ih => rw [List.cons_append, forAll, forAll, ih, both_assoc]

end Attempt

namespace Condition

open Attempt

variable {s : Setting} {t : SyntaxTree}

/-! ## the parts of a condition, one after the other -/

theorem attemptAll_eq_forAll (terms : List Condition) (c : NodeChild t) :
    attemptAll s terms c = forAll (fun q => attempt s q c) terms := by
  induction terms with
  | nil => rw [attemptAll, forAll]
  | cons p terms ih => rw [attemptAll, ih, forAll]

/-- Children that no condition is for are not looked at. -/
theorem attemptEach_eq_forAll {ps : List Condition} {cs : List (NodeChild t)}
    (h : cs.length = ps.length) (rest : List (NodeChild t)) :
    attemptEach s ps (cs ++ rest) = forAll (fun x => attempt s x.1 x.2) (ps.zip cs) := by
  induction ps generalizing cs with
  | nil =>
    rw [attemptEach]
    rfl
  | cons p ps ih =>
    cases cs with
    | nil => cases h
    | cons c cs =>
      rw [List.cons_append, attemptEach, ih (Nat.succ.inj h), List.zip_cons_cons, forAll]

theorem attemptEach_eq_forAll_zip {ps : List Condition} {cs : List (NodeChild t)}
    (h : cs.length = ps.length) :
    attemptEach s ps cs = forAll (fun x => attempt s x.1 x.2) (ps.zip cs) := by
  rw [← attemptEach_eq_forAll h [], List.append_nil]

theorem around_of_cut {front back : List Condition} {middle : Condition} {arity : Arity}
    {cs xs ys zs : List (NodeChild t)} (hcut : Cut front.length back.length arity cs xs ys zs)
    (slot : Option Nat) :
    Attempt.around front.length back.length arity slot (fun cs => attemptEach s front cs)
        (fun d => attempt s middle d) (fun cs => attemptEach s back cs) cs =
      both (forAll (fun x => attempt s x.1 x.2) (asked front middle back xs ys zs))
        (bindTaken slot ys) := by
  obtain ⟨hfixed, harity⟩ := hcut.fit
  obtain ⟨hx, hy, hz⟩ := cut_unique hcut.eq hcut.front hcut.back
  have hfront : attemptEach s front cs = forAll (fun x => attempt s x.1 x.2) (front.zip xs) := by
    rw [hcut.eq, List.append_assoc]
    exact attemptEach_eq_forAll hcut.front _
  have hmiddle : forAll (fun d => attempt s middle d) ys =
      forAll (fun x => attempt s x.1 x.2) (ys.map fun d => (middle, d)) := by
    clear hx hy hz hcut
    induction ys with
    | nil => rfl
    | cons d ys ih => rw [List.map_cons, forAll, forAll, ih]
  rw [around_of_fit hfixed harity, ← hy, ← hz, hfront, attemptEach_eq_forAll_zip hcut.back, hmiddle,
    asked, forAll_append, forAll_append, both_assoc, both_assoc]

/-! ## the whole condition -/

theorem settles_around {front back : List Condition} {middle : Condition}
    (hf : ∀ p ∈ front, ∀ c : NodeChild t, (attempt s p c).Settles (p.Fails s c) (p.Holds s c))
    (hm : ∀ c : NodeChild t, (attempt s middle c).Settles (middle.Fails s c) (middle.Holds s c))
    (hb : ∀ p ∈ back, ∀ c : NodeChild t, (attempt s p c).Settles (p.Fails s c) (p.Holds s c))
    (arity : Arity) (slot : Option Nat) (cs : List (NodeChild t)) :
    (Attempt.around front.length back.length arity slot (fun cs => attemptEach s front cs)
        (fun d => attempt s middle d) (fun cs => attemptEach s back cs) cs).Settles
      (∃ xs ys zs, Cut front.length back.length arity cs xs ys zs ∧
        ∃ x, ComesTo (fun x => x.1.Holds s x.2) (asked front middle back xs ys zs) x ∧
          x.1.Fails s x.2)
      (∃ xs ys zs, Cut front.length back.length arity cs xs ys zs ∧
        ∀ x ∈ asked front middle back xs ys zs, x.1.Holds s x.2) := by
  by_cases hcut : ∃ xs ys zs, Cut front.length back.length arity cs xs ys zs
  · obtain ⟨xs, ys, zs, hcut⟩ := hcut
    have hall : ∀ x ∈ asked front middle back xs ys zs,
        (attempt s x.1 x.2).Settles (x.1.Fails s x.2) (x.1.Holds s x.2) :=
      forall_asked (motive := fun p c => (attempt s p c).Settles (p.Fails s c) (p.Holds s c))
        hf hm hb
    rw [around_of_cut hcut]
    refine ((settles_forAll hall).both (settles_bindTaken slot ys)).congr ⟨?_, ?_⟩ ⟨?_, ?_⟩
    · rintro ⟨xs', ys', zs', hcut', h⟩
      obtain ⟨rfl, rfl, rfl⟩ := hcut.unique hcut'
      exact .inl h
    · rintro (h | ⟨-, h⟩)
      · exact ⟨xs, ys, zs, hcut, h⟩
      · exact h.elim
    · rintro ⟨xs', ys', zs', hcut', h⟩
      obtain ⟨rfl, rfl, rfl⟩ := hcut.unique hcut'
      exact ⟨h, trivial⟩
    · exact fun h => ⟨xs, ys, zs, hcut, h.1⟩
  · rw [around_of_no_cut hcut]
    refine settles_ofBool ?_ (iff_of_false Bool.false_ne_true ?_)
    · rintro ⟨xs, ys, zs, h, -⟩
      exact hcut ⟨xs, ys, zs, h⟩
    · rintro ⟨xs, ys, zs, h, -⟩
      exact hcut ⟨xs, ys, zs, h⟩

theorem settles_plain {p : Condition} (hp : p.IsPlain) (c : NodeChild t) :
    (attempt s p c).Settles (p.Fails s c) (p.Holds s c) := by
  refine (decided_plain hp c).settles (fun _ h => ?_) fun log => ?_
  · obtain ⟨d, hd, -⟩ := h
    exact hd.holds
  cases p with
  | external name arguments =>
    rw [attempt, ofAnswer]
    constructor
    · rintro ⟨e, he⟩
      cases hask : s.ask name arguments c with
      | error e' => exact .external hask
      | ok b =>
        rw [hask] at he
        cases he
    · intro h
      cases h with
      | external h => exact ⟨_, by rw [h]; rfl⟩
  | param number =>
    rw [attempt, ofAnswer]
    constructor
    · rintro ⟨e, he⟩
      cases hparam : s.param number with
      | error e' => exact .param hparam
      | ok q =>
        rw [hparam] at he
        cases he
    · intro h
      cases h with
      | param h => exact ⟨_, by rw [h]; rfl⟩
  | wildcard | kind | kindIn | literal | builtin | oneOf =>
    rw [attempt]
    exact iff_of_false (by rintro ⟨e, he⟩; cases he) fun h => by cases h
  | _ => exact hp.elim

/-- **Each condition is decided**, failures included, on whatever log it starts. -/
theorem settles_attempt (p : Condition) (c : NodeChild t) :
    (attempt s p c).Settles (p.Fails s c) (p.Holds s c) := by
  induction p using Condition.ind generalizing c with
  | plain p hp => exact settles_plain hp c
  | capture slot inner ih =>
    have hbind : (bind slot (.single c)).Settles False True :=
      fun log => .inr ⟨true, _, rfl, id, by simp⟩
    rw [attempt, Holds]
    refine ((ih c).both hbind).congr ⟨fun h => ?_, fun h => ?_⟩ (and_true _).symm.to_iff
    · cases h with
      | capture h => exact .inl h
    · exact .capture (h.resolve_right fun h => h.2)
  | exactly head elements ihh ihe =>
    cases c with
    | value v =>
      rw [attempt, Holds]
      exact settles_ofBool (fun h => by cases h) (by simp)
    | node n =>
      rw [attempt]
      by_cases hlen : n.childCount = elements.length
      · rw [if_pos hlen, attemptEach_eq_forAll_zip hlen]
        refine ((ihh (.node n)).both (settles_forAll fun x hx => ihe x.1 (List.of_mem_zip hx).1
          x.2)).congr ?_ ?_
        · rw [fails_exactly_iff, and_iff_right hlen]
        · rw [holds_exactly_iff, and_iff_right hlen]
      · have hmiss : (ofBool false : Attempt t).Settles False False :=
          settles_ofBool id (iff_of_false Bool.false_ne_true id)
        rw [if_neg hlen]
        refine ((ihh (.node n)).both hmiss).congr ?_ ?_
        · rw [fails_exactly_iff]
          simp only [hlen, false_and]
        · rw [holds_exactly_iff]
          simp only [hlen, false_and]
  | around head front middle arity slot back ihh ihf ihm ihb =>
    cases c with
    | value v =>
      rw [attempt, Holds]
      exact settles_ofBool (fun h => by cases h) (by simp)
    | node n =>
      rw [attempt]
      exact ((ihh (.node n)).both (settles_around ihf ihm ihb arity slot n.children)).congr
        fails_around_iff holds_around_iff
  | union branches ih =>
    rw [attempt, Holds]
    simp only [attemptAny_eq]
    intro log
    refine (settles_firstOf (fun p hp => ih p hp c) log.length).congr ⟨fun h => ?_, ?_⟩
      holdSome_iff log
    · cases h with
      | branch hcomes h => exact ⟨_, hcomes, h⟩
    · rintro ⟨p, hcomes, h⟩
      exact .branch hcomes h
  | intersection terms ih =>
    rw [attempt, Holds, attemptAll_eq_forAll]
    refine (settles_forAll fun p hp => ih p hp c).congr ⟨fun h => ?_, ?_⟩ holdAll_iff
    · cases h with
      | term hcomes h => exact ⟨_, hcomes, h⟩
    · rintro ⟨p, hcomes, h⟩
      exact .term hcomes h
  | negation inner ih =>
    rw [attempt, Holds]
    refine (ih c).negate.congr ⟨fun h => ?_, .negation⟩ Iff.rfl
    cases h with
    | negation h => exact h
  | parent inner ih =>
    rw [attempt]
    cases hp : c.asNode?.bind Node.parent? with
    | none =>
      refine settles_ofBool ?_ (iff_of_false Bool.false_ne_true ?_)
      · rw [fails_parent_iff, hp]
        rintro ⟨p, hp, -⟩
        cases hp
      · rw [holds_parent_iff, hp]
        rintro ⟨p, hp, -⟩
        cases hp
    | some p =>
      refine (ih (.node p)).congr ?_ ?_
      · simp only [fails_parent_iff, hp, Option.some.injEq, exists_eq_left']
      · simp only [holds_parent_iff, hp, Option.some.injEq, exists_eq_left']
  | descendant inner ih =>
    cases c with
    | value v =>
      rw [attempt, Holds]
      refine (ih (.value v)).congr ⟨fun h => ?_, .itself⟩ Iff.rfl
      cases h with
      | itself h => exact h
    | node n =>
      rw [attempt, Holds]
      intro log
      refine (settles_firstOf (fun m _ => ih (.node m)) log.length).congr ⟨fun h => ?_, ?_⟩ ?_ log
      · cases h with
        | descendant hcomes h => exact ⟨_, hcomes, h⟩
      · rintro ⟨m, hcomes, h⟩
        exact .descendant hcomes h
      · simp only [Node.mem_descendants]

end Condition

/-- **A pattern matches a child exactly if nothing fails and its condition holds of it.** -/
theorem isSome_matchChild_iff_not_fails (p : Pattern) (params : List Param) {t : SyntaxTree}
    (c : NodeChild t) :
    (p.matchChild params c).isSome = true ↔
      ¬ p.condition.Fails ⟨p.environment, params⟩ c ∧
        p.condition.Holds ⟨p.environment, params⟩ c := by
  unfold matchChild
  obtain ⟨e, he, hf⟩ | ⟨b, log, hr, hf, hb⟩ := Condition.settles_attempt p.condition c []
  · rw [he]
    exact iff_of_false Bool.false_ne_true fun h => h.1 hf
  · rw [hr, ← hb, and_iff_right hf]
    cases b with
    | true => exact iff_of_true rfl rfl
    | false => exact iff_of_false Bool.false_ne_true Bool.false_ne_true

end RubyLint.Pattern
