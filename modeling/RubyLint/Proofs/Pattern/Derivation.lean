import RubyLint.Proofs.Pattern.Reading

/-!
# The preferred derivation

A `Derivation` shows how a condition comes to hold of a child: which branch of a union, which node
below, which children an element takes.  Of the derivations that a condition has, `Condition.Derives`
admits the preferred one: the FIRST branch that holds, the FIRST node in pre-order.

* `exists_derives_iff`   a condition that holds has a derivation, and the other way round;
* `derives_unique`       it has one only;
* `Derivation.bindings`  what the captures along a derivation bind, in the order in which they do;
* `Derivation.PassesOver`  the captures that are written inside an element that takes no child.
-/

namespace RubyLint.Pattern

/-! ## the first that has a property -/

/-- `First P l a`: the element `a` is the first of the list with the property. -/
inductive First {α : Type} (P : α → Prop) : List α → α → Prop
  | here {a : α} {l : List α} (h : P a) : First P (a :: l) a
  | later {a b : α} {l : List α} (hb : ¬ P b) (h : First P l a) : First P (b :: l) a

namespace First

variable {α : Type} {P : α → Prop} {l : List α} {a b : α}

theorem mem (h : First P l a) : a ∈ l := by
  induction h with
  | here => exact List.mem_cons_self
  | later _ _ ih => exact List.mem_cons_of_mem _ ih

theorem holds (h : First P l a) : P a := by
  induction h with
  | here h => exact h
  | later _ _ ih => exact ih

theorem unique (ha : First P l a) (hb : First P l b) : a = b := by
  induction ha with
  | here h =>
    cases hb with
    | here => rfl
    | later hn => exact absurd h hn
  | later hn _ ih =>
    cases hb with
    | here h => exact absurd h hn
    | later _ hb => exact ih hb

theorem exists_iff : (∃ a, First P l a) ↔ ∃ a ∈ l, P a := by
  constructor
  · rintro ⟨a, h⟩
    exact ⟨a, h.mem, h.holds⟩
  · intro h
    induction l with
    | nil => obtain ⟨a, ha, _⟩ := h; exact absurd ha List.not_mem_nil
    | cons b l ih =>
      by_cases hb : P b
      · exact ⟨b, here hb⟩
      · obtain ⟨a, ha, hP⟩ := h
        rcases List.mem_cons.1 ha with rfl | ha
        · exact absurd hP hb
        · obtain ⟨a', h'⟩ := ih ⟨a, ha, hP⟩
          exact ⟨a', later hb h'⟩

end First

/-! ## derivations -/

mutual

/-- The slots of the captures that are written in the condition. -/
def Condition.slots : Condition → List Nat
  | .capture slot inner => slot :: inner.slots
  | .exactly head elements => head.slots ++ slotsEach elements
  | .around head front middle _ slot back =>
    head.slots ++ slotsEach front ++ slot.toList ++ middle.slots ++ slotsEach back
  | .union branches => slotsEach branches
  | .intersection terms => slotsEach terms
  | .negation inner => inner.slots
  | .parent inner => inner.slots
  | .descendant inner => inner.slots
  | _ => []

def Condition.slotsEach : List Condition → List Nat
  | [] => []
  | p :: ps => p.slots ++ slotsEach ps

end

theorem Condition.slotsEach_eq (ps : List Condition) : slotsEach ps = ps.flatMap slots := by
  induction ps with
  | nil => rfl
  | cons p ps ih => rw [slotsEach, ih, List.flatMap_cons]

/-- How a condition comes to hold of a child. -/
inductive Derivation (t : SyntaxTree) where
  /-- nothing can be bound -/
  | plain
  /-- a capture of the child -/
  | captured (inner : Derivation t) (slot : Nat) (child : NodeChild t)
  /-- several conditions hold, each by its own derivation -/
  | parts (ds : List (Derivation t))
  /-- an element takes the children; its condition holds of each by one of the derivations -/
  | taken (element : Condition) (slot : Option Nat) (children : List (NodeChild t))
      (ds : List (Derivation t))

namespace Derivation

variable {t : SyntaxTree}

mutual

/-- What is bound along the derivation. -/
def bindings : Derivation t → List (Binding t)
  | .plain => []
  | .captured inner slot child => bindings inner ++ [⟨slot, .single child⟩]
  | .parts ds => bindingsEach ds
  | .taken _ slot children ds =>
    bindingsEach ds ++ slot.toList.map fun k => ⟨k, .many children⟩

def bindingsEach : List (Derivation t) → List (Binding t)
  | [] => []
  | d :: ds => bindings d ++ bindingsEach ds

end

theorem bindingsEach_append (ds es : List (Derivation t)) :
    bindingsEach (ds ++ es) = bindingsEach ds ++ bindingsEach es := by
  induction ds with
  | nil => rfl
  | cons d ds ih => rw [List.cons_append, bindingsEach, ih, bindingsEach, List.append_assoc]

/-- Along a sequence the head binds first, then the outer elements, and the one in the middle last. -/
theorem bindings_around (d e : Derivation t) (fs bs : List (Derivation t)) :
    (parts (d :: (fs ++ bs ++ [e]))).bindings =
      d.bindings ++ (bindingsEach fs ++ bindingsEach bs ++ e.bindings) := by
  rw [bindings, bindingsEach, bindingsEach_append, bindingsEach_append, bindingsEach, bindingsEach,
    List.append_nil]

theorem mem_bindingsEach {b : Binding t} {ds : List (Derivation t)} :
    b ∈ bindingsEach ds ↔ ∃ d ∈ ds, b ∈ d.bindings := by
  induction ds with
  | nil => simp [bindingsEach]
  | cons d ds ih => simp only [bindingsEach, List.mem_append, ih, List.mem_cons, exists_eq_or_imp]

/-- The capture of the slot is written in the condition of an element that takes no child; inside an
element that is gone through several times, that is so each time. -/
inductive PassesOver (slot : Nat) : Derivation t → Prop
  | inner {d : Derivation t} {k : Nat} {c : NodeChild t} (h : PassesOver slot d) :
      PassesOver slot (.captured d k c)
  | part {d : Derivation t} {ds : List (Derivation t)} (hd : d ∈ ds) (h : PassesOver slot d) :
      PassesOver slot (.parts ds)
  | taken {p : Condition} {k : Option Nat} {cs : List (NodeChild t)} {ds : List (Derivation t)}
      (hw : slot ∈ p.slots) (h : ∀ d ∈ ds, PassesOver slot d) :
      PassesOver slot (.taken p k cs ds)

end Derivation

namespace Condition

section
variable (s : Setting) {t : SyntaxTree}

mutual

/-- The condition holds of the child by the derivation, which is the preferred one. -/
inductive Derives : Condition → NodeChild t → Derivation t → Prop
  | plain {p : Condition} {c : NodeChild t} (hp : p.IsPlain) (h : p.Holds s c) :
      Derives p c .plain
  | capture {slot : Nat} {inner : Condition} {c : NodeChild t} {d : Derivation t}
      (h : Derives inner c d) : Derives (.capture slot inner) c (.captured d slot c)
  | exactly {head : Condition} {elements : List Condition} {n : Node t} {d : Derivation t}
      {ds : List (Derivation t)} (hh : Derives head (.node n) d)
      (he : DerivesEach elements n.children ds) :
      Derives (.exactly head elements) (.node n) (.parts (d :: ds))
  | around {head middle : Condition} {front back : List Condition} {arity : Arity}
      {slot : Option Nat} {n : Node t} {xs ys zs : List (NodeChild t)} {d : Derivation t}
      {fs ms bs : List (Derivation t)} (hh : Derives head (.node n) d)
      (hc : n.children = xs ++ ys ++ zs) (hf : DerivesEach front xs fs)
      (hb : DerivesEach back zs bs) (ha : arity.allows ys.length = true)
      (hm : DerivesEach (ys.map fun _ => middle) ys ms) :
      Derives (.around head front middle arity slot back) (.node n)
        (.parts (d :: (fs ++ bs ++ [.taken middle slot ys ms])))
  | union {branches : List Condition} {p : Condition} {c : NodeChild t} {d : Derivation t}
      (hp : First (fun q => q.Holds s c) branches p) (h : Derives p c d) :
      Derives (.union branches) c d
  | intersection {terms : List Condition} {c : NodeChild t} {ds : List (Derivation t)}
      (h : DerivesEach terms (terms.map fun _ => c) ds) :
      Derives (.intersection terms) c (.parts ds)
  | negation {inner : Condition} {c : NodeChild t} (h : ¬ inner.Holds s c) :
      Derives (.negation inner) c .plain
  | parent {inner : Condition} {n p : Node t} {d : Derivation t} (hp : n.parent? = some p)
      (h : Derives inner (.node p) d) : Derives (.parent inner) (.node n) d
  | descendant {inner : Condition} {n m : Node t} {d : Derivation t}
      (hm : First (fun k => inner.Holds s (.node k)) n.descendants m)
      (h : Derives inner (.node m) d) : Derives (.descendant inner) (.node n) d
  | itself {inner : Condition} {v : Value} {d : Derivation t} (h : Derives inner (.value v) d) :
      Derives (.descendant inner) (.value v) d

/-- Each condition holds of the child at its place. -/
inductive DerivesEach : List Condition → List (NodeChild t) → List (Derivation t) → Prop
  | nil : DerivesEach [] [] []
  | cons {p : Condition} {ps : List Condition} {c : NodeChild t} {cs : List (NodeChild t)}
      {d : Derivation t} {ds : List (Derivation t)} (h : Derives p c d)
      (hs : DerivesEach ps cs ds) : DerivesEach (p :: ps) (c :: cs) (d :: ds)

end

end

section
variable {s : Setting} {t : SyntaxTree} {c : NodeChild t} {d : Derivation t}

/-! ## the last step of a derivation -/

theorem Derives.plain_inv {p : Condition} (hp : p.IsPlain) (h : Derives s p c d) :
    p.Holds s c ∧ d = .plain := by
  cases h with
  | plain _ h => exact ⟨h, rfl⟩
  | _ => exact hp.elim

theorem Derives.capture_inv {slot : Nat} {inner : Condition}
    (h : Derives s (.capture slot inner) c d) :
    ∃ e, Derives s inner c e ∧ d = .captured e slot c := by
  cases h with
  | plain hp _ => exact hp.elim
  | capture h => exact ⟨_, h, rfl⟩

theorem Derives.exactly_inv {head : Condition} {elements : List Condition}
    (h : Derives s (.exactly head elements) c d) :
    ∃ n e ds, c = .node n ∧ Derives s head (.node n) e ∧ DerivesEach s elements n.children ds ∧
      d = .parts (e :: ds) := by
  cases h with
  | plain hp _ => exact hp.elim
  | exactly hh he => exact ⟨_, _, _, rfl, hh, he, rfl⟩

theorem Derives.around_inv {head middle : Condition} {front back : List Condition} {arity : Arity}
    {slot : Option Nat} (h : Derives s (.around head front middle arity slot back) c d) :
    ∃ n xs ys zs e fs bs ms, c = .node n ∧ n.children = xs ++ ys ++ zs ∧
      Derives s head (.node n) e ∧ DerivesEach s front xs fs ∧ DerivesEach s back zs bs ∧
      arity.allows ys.length = true ∧ DerivesEach s (ys.map fun _ => middle) ys ms ∧
      d = .parts (e :: (fs ++ bs ++ [.taken middle slot ys ms])) := by
  cases h with
  | plain hp _ => exact hp.elim
  | around hh hc hf hb ha hm => exact ⟨_, _, _, _, _, _, _, _, rfl, hc, hh, hf, hb, ha, hm, rfl⟩

theorem Derives.union_inv {branches : List Condition} (h : Derives s (.union branches) c d) :
    ∃ p, First (fun q => q.Holds s c) branches p ∧ Derives s p c d := by
  cases h with
  | plain hp _ => exact hp.elim
  | union hp h => exact ⟨_, hp, h⟩

theorem Derives.intersection_inv {terms : List Condition}
    (h : Derives s (.intersection terms) c d) :
    ∃ ds, DerivesEach s terms (terms.map fun _ => c) ds ∧ d = .parts ds := by
  cases h with
  | plain hp _ => exact hp.elim
  | intersection h => exact ⟨_, h, rfl⟩

theorem Derives.negation_inv {inner : Condition} (h : Derives s (.negation inner) c d) :
    ¬ inner.Holds s c ∧ d = .plain := by
  cases h with
  | plain hp _ => exact hp.elim
  | negation h => exact ⟨h, rfl⟩

theorem Derives.parent_inv {inner : Condition} (h : Derives s (.parent inner) c d) :
    ∃ n p, c = .node n ∧ n.parent? = some p ∧ Derives s inner (.node p) d := by
  cases h with
  | plain hp _ => exact hp.elim
  | parent hp h => exact ⟨_, _, rfl, hp, h⟩

theorem Derives.descendant_inv {inner : Condition} {n : Node t}
    (h : Derives s (.descendant inner) (.node n) d) :
    ∃ m, First (fun k => inner.Holds s (.node k)) n.descendants m ∧
      Derives s inner (.node m) d := by
  cases h with
  | plain hp _ => exact hp.elim
  | descendant hm h => exact ⟨_, hm, h⟩

theorem Derives.itself_inv {inner : Condition} {v : Value}
    (h : Derives s (.descendant inner) (.value v) d) : Derives s inner (.value v) d := by
  cases h with
  | plain hp _ => exact hp.elim
  | itself h => exact h

theorem DerivesEach.nil_inv {cs : List (NodeChild t)} {ds : List (Derivation t)}
    (h : DerivesEach s [] cs ds) : cs = [] ∧ ds = [] := by
  cases h
  exact ⟨rfl, rfl⟩

theorem DerivesEach.cons_inv {p : Condition} {ps : List Condition} {cs : List (NodeChild t)}
    {ds : List (Derivation t)} (h : DerivesEach s (p :: ps) cs ds) :
    ∃ c rest e es, cs = c :: rest ∧ ds = e :: es ∧ Derives s p c e ∧ DerivesEach s ps rest es := by
  cases h with
  | cons hp hs => exact ⟨_, _, _, _, rfl, rfl, hp, hs⟩

theorem length_of_derivesEach {ps : List Condition} {cs : List (NodeChild t)}
    {ds : List (Derivation t)} (h : DerivesEach s ps cs ds) : cs.length = ps.length := by
  induction ps generalizing cs ds with
  | nil =>
    obtain ⟨rfl, _⟩ := h.nil_inv
    rfl
  | cons p ps ih =>
    obtain ⟨c, rest, e, es, rfl, rfl, _, hs⟩ := h.cons_inv
    rw [List.length_cons, List.length_cons, ih hs]

end

/-! ## a derivation for whatever holds -/

section
variable {s : Setting} {t : SyntaxTree}

theorem exists_derivesEach_iff {ps : List Condition} {cs : List (NodeChild t)}
    (h : ∀ p ∈ ps, ∀ c : NodeChild t, (∃ d, Derives s p c d) ↔ p.Holds s c) :
    (∃ ds, DerivesEach s ps cs ds) ↔ HoldEach s ps cs := by
  induction ps generalizing cs with
  | nil =>
    rw [HoldEach]
    refine ⟨fun hd => ?_, fun hcs => ?_⟩
    · obtain ⟨ds, hd⟩ := hd
      exact hd.nil_inv.1
    · rw [hcs]
      exact ⟨[], .nil⟩
  | cons p ps ih =>
    have hrest : ∀ rest, (∃ ds, DerivesEach s ps rest ds) ↔ HoldEach s ps rest := fun rest =>
      ih fun q hq => h q (List.mem_cons_of_mem _ hq)
    rw [HoldEach]
    refine ⟨fun hd => ?_, fun hh => ?_⟩
    · obtain ⟨ds, hd⟩ := hd
      obtain ⟨c, rest, e, es, rfl, rfl, hp, hs⟩ := hd.cons_inv
      exact ⟨c, rest, rfl, (h p List.mem_cons_self c).1 ⟨e, hp⟩, (hrest rest).1 ⟨es, hs⟩⟩
    · obtain ⟨c, rest, rfl, hp, hs⟩ := hh
      obtain ⟨d, hd⟩ := (h p List.mem_cons_self c).2 hp
      obtain ⟨ds, hds⟩ := (hrest rest).2 hs
      exact ⟨d :: ds, .cons hd hds⟩

/-- Several conditions hold of one child. -/
theorem holdEach_same_iff {ps : List Condition} {c : NodeChild t} :
    HoldEach s ps (ps.map fun _ => c) ↔ ∀ p ∈ ps, p.Holds s c := by
  induction ps with
  | nil => simp [HoldEach]
  | cons p ps ih => rw [List.map_cons, holdEach_cons, ih, List.forall_mem_cons]

/-- One condition holds of several children. -/
theorem holdEach_repeat_iff {p : Condition} {cs : List (NodeChild t)} :
    HoldEach s (cs.map fun _ => p) cs ↔ ∀ c ∈ cs, p.Holds s c := by
  induction cs with
  | nil => simp [HoldEach]
  | cons c cs ih => rw [List.map_cons, holdEach_cons, ih, List.forall_mem_cons]

theorem exists_derives_iff {p : Condition} {c : NodeChild t} :
    (∃ d, Derives s p c d) ↔ p.Holds s c := by
  induction p using Condition.ind generalizing c with
  | plain p hp =>
    refine ⟨fun hd => ?_, fun hh => ⟨.plain, .plain hp hh⟩⟩
    obtain ⟨d, hd⟩ := hd
    exact (hd.plain_inv hp).1
  | capture slot inner ih =>
    rw [Holds, ← ih]
    refine ⟨fun hd => ?_, fun hd => ?_⟩
    · obtain ⟨d, hd⟩ := hd
      obtain ⟨e, he, _⟩ := hd.capture_inv
      exact ⟨e, he⟩
    · obtain ⟨e, he⟩ := hd
      exact ⟨_, .capture he⟩
  | exactly head elements ihh ihe =>
    have heach : ∀ cs : List (NodeChild t),
        (∃ ds, DerivesEach s elements cs ds) ↔ HoldEach s elements cs := fun cs =>
      exists_derivesEach_iff fun p hp c => ihe p hp
    rw [Holds]
    refine ⟨fun hd => ?_, fun hh => ?_⟩
    · obtain ⟨d, hd⟩ := hd
      obtain ⟨n, e, ds, rfl, hh, he, _⟩ := hd.exactly_inv
      exact ⟨n, rfl, ihh.1 ⟨e, hh⟩, (heach _).1 ⟨ds, he⟩⟩
    · obtain ⟨n, rfl, hh, he⟩ := hh
      obtain ⟨d, hd⟩ := ihh.2 hh
      obtain ⟨ds, hds⟩ := (heach _).2 he
      exact ⟨_, .exactly hd hds⟩
  | around head front middle arity slot back ihh ihf ihm ihb =>
    have hfront : ∀ xs : List (NodeChild t),
        (∃ ds, DerivesEach s front xs ds) ↔ HoldEach s front xs := fun xs =>
      exists_derivesEach_iff fun p hp c => ihf p hp
    have hback : ∀ zs : List (NodeChild t),
        (∃ ds, DerivesEach s back zs ds) ↔ HoldEach s back zs := fun zs =>
      exists_derivesEach_iff fun p hp c => ihb p hp
    have hmiddle : ∀ ys : List (NodeChild t),
        (∃ ms, DerivesEach s (ys.map fun _ => middle) ys ms) ↔ ∀ d ∈ ys, middle.Holds s d := by
      intro ys
      rw [← holdEach_repeat_iff]
      refine exists_derivesEach_iff fun p hp c => ?_
      obtain ⟨_, _, rfl⟩ := List.mem_map.1 hp
      exact ihm
    rw [Holds]
    refine ⟨fun hd => ?_, fun hh => ?_⟩
    · obtain ⟨d, hd⟩ := hd
      obtain ⟨n, xs, ys, zs, e, fs, bs, ms, rfl, hc, hh, hf, hb, ha, hm, _⟩ := hd.around_inv
      exact ⟨n, rfl, ihh.1 ⟨e, hh⟩, xs, ys, zs, hc, (hfront xs).1 ⟨fs, hf⟩, (hback zs).1 ⟨bs, hb⟩,
        ha, (hmiddle ys).1 ⟨ms, hm⟩⟩
    · obtain ⟨n, rfl, hh, xs, ys, zs, hc, hf, hb, ha, hm⟩ := hh
      obtain ⟨d, hd⟩ := ihh.2 hh
      obtain ⟨fs, hfs⟩ := (hfront xs).2 hf
      obtain ⟨bs, hbs⟩ := (hback zs).2 hb
      obtain ⟨ms, hms⟩ := (hmiddle ys).2 hm
      exact ⟨_, .around hd hc hfs hbs ha hms⟩
  | union branches ih =>
    rw [Holds, holdSome_iff, ← First.exists_iff]
    refine ⟨fun hd => ?_, fun hh => ?_⟩
    · obtain ⟨d, hd⟩ := hd
      obtain ⟨p, hp, _⟩ := hd.union_inv
      exact ⟨p, hp⟩
    · obtain ⟨p, hp⟩ := hh
      obtain ⟨d, hd⟩ := (ih p hp.mem).2 hp.holds
      exact ⟨d, .union hp hd⟩
  | intersection terms ih =>
    rw [Holds, holdAll_iff, ← holdEach_same_iff, ← exists_derivesEach_iff fun p hp c => ih p hp]
    refine ⟨fun hd => ?_, fun hds => ?_⟩
    · obtain ⟨d, hd⟩ := hd
      obtain ⟨ds, hds, _⟩ := hd.intersection_inv
      exact ⟨ds, hds⟩
    · obtain ⟨ds, hds⟩ := hds
      exact ⟨_, .intersection hds⟩
  | negation inner _ =>
    rw [Holds]
    refine ⟨fun hd => ?_, fun hh => ⟨.plain, .negation hh⟩⟩
    obtain ⟨d, hd⟩ := hd
    exact hd.negation_inv.1
  | parent inner ih =>
    rw [Holds]
    refine ⟨fun hd => ?_, fun hh => ?_⟩
    · obtain ⟨d, hd⟩ := hd
      obtain ⟨n, p, rfl, hp, he⟩ := hd.parent_inv
      exact ⟨n, p, rfl, hp, ih.1 ⟨d, he⟩⟩
    · obtain ⟨n, p, rfl, hp, hh⟩ := hh
      obtain ⟨d, hd⟩ := ih.2 hh
      exact ⟨d, .parent hp hd⟩
  | descendant inner ih =>
    cases c with
    | node n =>
      have hfirst : (∃ m, First (fun k => inner.Holds s (.node k)) n.descendants m) ↔
          ∃ m ∈ n.descendants, inner.Holds s (.node m) := First.exists_iff
      rw [Holds]
      refine ⟨fun hd => ?_, fun hh => ?_⟩
      · obtain ⟨d, hd⟩ := hd
        obtain ⟨m, hm, _⟩ := hd.descendant_inv
        exact ⟨m, Node.mem_descendants.1 hm.mem, hm.holds⟩
      · obtain ⟨m, hm, hh⟩ := hh
        obtain ⟨k, hk⟩ := hfirst.2 ⟨m, Node.mem_descendants.2 hm, hh⟩
        obtain ⟨d, hd⟩ := ih.2 hk.holds
        exact ⟨d, .descendant hk hd⟩
    | value v =>
      rw [Holds, ← ih]
      refine ⟨fun hd => ?_, fun hd => ?_⟩
      · obtain ⟨d, hd⟩ := hd
        exact ⟨d, hd.itself_inv⟩
      · obtain ⟨d, hd⟩ := hd
        exact ⟨d, .itself hd⟩

theorem Derives.holds {p : Condition} {c : NodeChild t} {d : Derivation t} (h : Derives s p c d) :
    p.Holds s c :=
  exists_derives_iff.1 ⟨d, h⟩

/-! ## one derivation only -/

theorem derivesEach_unique {ps : List Condition} {cs : List (NodeChild t)}
    {ds ds' : List (Derivation t)} (hd : DerivesEach s ps cs ds) (hd' : DerivesEach s ps cs ds')
    (h : ∀ p ∈ ps, ∀ {c : NodeChild t} {d d' : Derivation t}, Derives s p c d → Derives s p c d' →
      d = d') : ds = ds' := by
  induction ps generalizing cs ds ds' with
  | nil => rw [hd.nil_inv.2, hd'.nil_inv.2]
  | cons p ps ih =>
    obtain ⟨c, rest, e, es, rfl, rfl, hp, hs⟩ := hd.cons_inv
    obtain ⟨c', rest', e', es', hcs, rfl, hp', hs'⟩ := hd'.cons_inv
    obtain ⟨rfl, rfl⟩ := List.cons.inj hcs
    rw [h p List.mem_cons_self hp hp', ih hs hs' fun q hq => h q (List.mem_cons_of_mem _ hq)]

theorem derives_unique {p : Condition} {c : NodeChild t} {d d' : Derivation t}
    (h : Derives s p c d) (h' : Derives s p c d') : d = d' := by
  induction p using Condition.ind generalizing c d d' with
  | plain p hp => rw [(h.plain_inv hp).2, (h'.plain_inv hp).2]
  | capture slot inner ih =>
    obtain ⟨e, he, rfl⟩ := h.capture_inv
    obtain ⟨e', he', rfl⟩ := h'.capture_inv
    rw [ih he he']
  | exactly head elements ihh ihe =>
    obtain ⟨n, e, ds, rfl, hh, hds, rfl⟩ := h.exactly_inv
    obtain ⟨n', e', ds', hn, hh', hds', rfl⟩ := h'.exactly_inv
    obtain rfl := NodeChild.node.inj hn
    rw [ihh hh hh', derivesEach_unique hds hds' ihe]
  | around head front middle arity slot back ihh ihf ihm ihb =>
    obtain ⟨n, xs, ys, zs, e, fs, bs, ms, rfl, hc, hh, hf, hb, _, hm, rfl⟩ := h.around_inv
    obtain ⟨n', xs', ys', zs', e', fs', bs', ms', hn, hc', hh', hf', hb', _, hm', rfl⟩ :=
      h'.around_inv
    obtain rfl := NodeChild.node.inj hn
    -- both cut the children at the same places
    obtain ⟨rfl, rfl, rfl⟩ := cut_unique hc (length_of_derivesEach hf) (length_of_derivesEach hb)
    obtain ⟨rfl, rfl, rfl⟩ := cut_unique hc' (length_of_derivesEach hf') (length_of_derivesEach hb')
    have hmiddle : ms = ms' := derivesEach_unique hm hm' fun p hp => by
      obtain ⟨_, _, rfl⟩ := List.mem_map.1 hp
      exact ihm
    rw [ihh hh hh', derivesEach_unique hf hf' ihf, derivesEach_unique hb hb' ihb, hmiddle]
  | union branches ih =>
    obtain ⟨p, hp, hd⟩ := h.union_inv
    obtain ⟨p', hp', hd'⟩ := h'.union_inv
    obtain rfl := hp.unique hp'
    exact ih p hp.mem hd hd'
  | intersection terms ih =>
    obtain ⟨ds, hds, rfl⟩ := h.intersection_inv
    obtain ⟨ds', hds', rfl⟩ := h'.intersection_inv
    rw [derivesEach_unique hds hds' ih]
  | negation inner _ => rw [h.negation_inv.2, h'.negation_inv.2]
  | parent inner ih =>
    obtain ⟨n, p, rfl, hp, hd⟩ := h.parent_inv
    obtain ⟨n', p', hn, hp', hd'⟩ := h'.parent_inv
    obtain rfl := NodeChild.node.inj hn
    obtain rfl := Option.some.inj (hp.symm.trans hp')
    exact ih hd hd'
  | descendant inner ih =>
    cases c with
    | node n =>
      obtain ⟨m, hm, hd⟩ := h.descendant_inv
      obtain ⟨m', hm', hd'⟩ := h'.descendant_inv
      obtain rfl := hm.unique hm'
      exact ih hd hd'
    | value v => exact ih h.itself_inv h'.itself_inv

end

end Condition

end RubyLint.Pattern
