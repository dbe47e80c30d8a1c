import RubyLint.Pattern.Match
import RubyLint.Proofs.Syntax.Preorder

/-!
# What a condition says

`Condition.Holds` is the reading of a condition that its author has in mind: no order in which things
are tried, no bindings and no positions.  A sequence with an element that takes several children holds
if the children can be cut into three parts that suit it; one cut fits at most (`cut_unique`).

`Condition.ind` is the induction that follows the condition; the conditions without parts
(`Condition.IsPlain`) are one case of it.
-/

namespace RubyLint.Pattern

namespace Condition

/-- The condition has no parts: it says something of the child by itself. -/
def IsPlain : Condition → Prop
  | .capture _ _ => False
  | .exactly _ _ => False
  | .around _ _ _ _ _ _ => False
  | .union _ => False
  | .intersection _ => False
  | .negation _ => False
  | .parent _ => False
  | .descendant _ => False
  | _ => True

/-- Induction on a condition; of a list, every member has the property. -/
@[elab_as_elim] theorem ind {motive : Condition → Prop}
    (plain : ∀ p, IsPlain p → motive p)
    (capture : ∀ slot inner, motive inner → motive (.capture slot inner))
    (exactly : ∀ head elements, motive head → (∀ p ∈ elements, motive p) →
      motive (.exactly head elements))
    (around : ∀ head front middle arity slot back, motive head → (∀ p ∈ front, motive p) →
      motive middle → (∀ p ∈ back, motive p) → motive (.around head front middle arity slot back))
    (union : ∀ branches, (∀ p ∈ branches, motive p) → motive (.union branches))
    (intersection : ∀ terms, (∀ p ∈ terms, motive p) → motive (.intersection terms))
    (negation : ∀ inner, motive inner → motive (.negation inner))
    (parent : ∀ inner, motive inner → motive (.parent inner))
    (descendant : ∀ inner, motive inner → motive (.descendant inner)) (p : Condition) :
    motive p := by
  refine @Condition.rec motive (fun ps => ∀ p ∈ ps, motive p) ?_ ?_ ?_ ?_ capture exactly ?_ union
    intersection negation parent descendant ?_ ?_ ?_ ?_ ?_ ?_ p
  case refine_5 =>
    intro head front middle arity slot back hh hf hm hb
    exact around head front middle arity slot back hh hf hm hb
  case refine_10 => intro p hp; exact absurd hp List.not_mem_nil
  case refine_11 =>
    intro p ps hp hps q hq
    rcases List.mem_cons.1 hq with rfl | hq
    · exact hp
    · exact hps q hq
  all_goals
    intros
    exact plain _ trivial

section
variable (s : Setting) {t : SyntaxTree}

mutual

/-- The condition holds of the child. -/
def Holds : Condition → NodeChild t → Prop
  | .wildcard, _ => True
  | .kind k, c => ∃ n, c = .node n ∧ n.kind = k
  | .kindIn kinds, c => ∃ n, c = .node n ∧ n.kind ∈ kinds
  | .literal v, c => ∃ w, c = .value w ∧ w.same v = true
  | .capture _ inner, c => Holds inner c
  | .exactly head elements, c =>
    ∃ n, c = .node n ∧ Holds head c ∧ HoldEach elements n.children
  | .around head front middle arity _ back, c =>
    ∃ n, c = .node n ∧ Holds head c ∧ ∃ xs ys zs, n.children = xs ++ ys ++ zs ∧
      HoldEach front xs ∧ HoldEach back zs ∧ arity.allows ys.length = true ∧
      ∀ d ∈ ys, Holds middle d
  | .union branches, c => HoldSome branches c
  | .intersection terms, c => HoldAll terms c
  | .negation inner, c => ¬ Holds inner c
  | .parent inner, c => ∃ n p, c = .node n ∧ n.parent? = some p ∧ Holds inner (.node p)
  | .descendant inner, c =>
    match c with
    | .node n => ∃ m, n.Covers m ∧ Holds inner (.node m)
    | .value _ => Holds inner c
  | .builtin question, c => question.holds c = true
  | .external name arguments, c => s.ask name arguments c = .ok true
  | .oneOf symbols, c => ∃ x ∈ symbols, c = .value (.sym x) ∨ c = .value (.str x)
  | .param number, c => ∃ p, s.param number = .ok p ∧ p.holds c = true

/-- There are as many children as conditions, and each condition holds of the child at its place. -/
def HoldEach : List Condition → List (NodeChild t) → Prop
  | [], cs => cs = []
  | p :: ps, cs => ∃ c rest, cs = c :: rest ∧ Holds p c ∧ HoldEach ps rest

/-- One of the conditions holds of the child. -/
def HoldSome : List Condition → NodeChild t → Prop
  | [], _ => False
  | p :: ps, c => Holds p c ∨ HoldSome ps c

/-- All conditions hold of the child. -/
def HoldAll : List Condition → NodeChild t → Prop
  | [], _ => True
  | p :: ps, c => Holds p c ∧ HoldAll ps c

end

variable {s}

theorem holdSome_iff {ps : List Condition} {c : NodeChild t} :
    HoldSome s ps c ↔ ∃ p ∈ ps, Holds s p c := by
  induction ps with
  | nil => simp [HoldSome]
  | cons p ps ih => simp only [HoldSome, ih, List.mem_cons, exists_eq_or_imp]

theorem holdAll_iff {ps : List Condition} {c : NodeChild t} :
    HoldAll s ps c ↔ ∀ p ∈ ps, Holds s p c := by
  induction ps with
  | nil => simp [HoldAll]
  | cons p ps ih => rw [HoldAll, ih, List.forall_mem_cons]

theorem holdEach_cons {p : Condition} {ps : List Condition} {c : NodeChild t}
    {cs : List (NodeChild t)} :
    HoldEach s (p :: ps) (c :: cs) ↔ Holds s p c ∧ HoldEach s ps cs := by
  rw [HoldEach]
  constructor
  · rintro ⟨c', rest, h, hp, hs⟩
    obtain ⟨rfl, rfl⟩ := List.cons.inj h
    exact ⟨hp, hs⟩
  · rintro ⟨hp, hs⟩
    exact ⟨c, cs, rfl, hp, hs⟩

theorem holds_exactly_node {head : Condition} {elements : List Condition} {n : Node t} :
    Holds s (.exactly head elements) (.node n) ↔
      Holds s head (.node n) ∧ HoldEach s elements n.children := by
  rw [Holds]
  constructor
  · rintro ⟨m, hm, h⟩
    obtain rfl := NodeChild.node.inj hm
    exact h
  · exact fun h => ⟨n, rfl, h⟩

theorem holds_around_node {head middle : Condition} {front back : List Condition} {arity : Arity}
    {slot : Option Nat} {n : Node t} :
    Holds s (.around head front middle arity slot back) (.node n) ↔
      Holds s head (.node n) ∧ ∃ xs ys zs, n.children = xs ++ ys ++ zs ∧ HoldEach s front xs ∧
        HoldEach s back zs ∧ arity.allows ys.length = true ∧ ∀ d ∈ ys, Holds s middle d := by
  rw [Holds]
  constructor
  · rintro ⟨m, hm, h⟩
    obtain rfl := NodeChild.node.inj hm
    exact h
  · exact fun h => ⟨n, rfl, h⟩

theorem length_of_holdEach {ps : List Condition} {cs : List (NodeChild t)}
    (h : HoldEach s ps cs) : cs.length = ps.length := by
  induction ps generalizing cs with
  | nil =>
    rw [HoldEach] at h
    rw [h]
    rfl
  | cons p ps ih =>
    rw [HoldEach] at h
    obtain ⟨c, rest, rfl, _, hrest⟩ := h
    rw [List.length_cons, List.length_cons, ih hrest]

end

end Condition

/-! ## the cut of the children around an element -/

/-- With the lengths of the outer parts known, a cut in three is found by counting. -/
theorem cut_unique {α : Type} {cs xs ys zs : List α} {front back : Nat} (h : cs = xs ++ ys ++ zs)
    (hx : xs.length = front) (hz : zs.length = back) :
    xs = cs.take front ∧ ys = (cs.drop front).take (cs.length - (front + back)) ∧
      zs = (cs.drop front).drop (cs.length - (front + back)) := by
  subst h hx hz
  have hy : (xs ++ ys ++ zs).length - (xs.length + zs.length) = ys.length := by
    simp only [List.length_append]
    omega
  rw [hy, List.append_assoc, List.take_left, List.drop_left, List.take_left, List.drop_left]
  exact ⟨rfl, rfl, rfl⟩

theorem cut_eq {α : Type} (cs : List α) (front taken : Nat) :
    cs = cs.take front ++ (cs.drop front).take taken ++ (cs.drop front).drop taken := by
  rw [List.append_assoc, List.take_append_drop, List.take_append_drop]

end RubyLint.Pattern
