import RubyLint.Proofs.Layout.Moves
import RubyLint.Proofs.Syntax.Outline

/-!
# Layouts that come to the same

Two computations of a layout are alike if, from the same scopes, they leave the same scopes and have
results with one outline, or both fail for the same reason.  Where the terms stand, and where a
computation fails, leaves no trace.

* `Term.outline`      what is left of a term if one forgets where it stands;
* `Alike`             the two computations come to the same;
* `Alike.bind`, `Alike.mapM`, `Alike.inScope`   one rule for each way in which computations are put
                      together.
-/

namespace RubyLint

/-- a term, by its kinds, their layout and the values -/
def Term.outline : Term → Outline
  | .value v => .value v
  | .node kind _ _ children => .node kind (children.attach.map fun ⟨t, _h⟩ => t.outline)
termination_by t => sizeOf t
decreasing_by
  have := List.sizeOf_lt_of_mem _h
  simp only [Term.node.sizeOf_spec]
  omega

@[simp] theorem Term.outline_value (v : Value) : (Term.value v).outline = .value v := by
  rw [outline]

@[simp] theorem Term.outline_node (kind : Kind) (span : Span) (loc : Loc) (children : List Term) :
    (Term.node kind span loc children).outline = .node kind (children.map Term.outline) := by
  rw [outline, ← List.attach_map_val (l := children) (f := Term.outline)]

namespace Ruby

section
variable {kind : Kind} {span : Span} {children : List Term}

@[simp] theorem outline_plainTerm : (plainTerm kind span children).outline =
    .node kind (children.map Term.outline) := Term.outline_node kind span Loc.none children

@[simp] theorem outline_orNil (t : Option Term) :
    (orNil t).outline = (t.map Term.outline).getD (.value .nil) := by
  cases t with
  | none => exact Term.outline_value .nil
  | some t => rfl

def sequenceOutline : List Outline → Option Outline
  | [] => none
  | [o] => some o
  | os => some (.node .sequence os)

theorem outline_sequenceTerm (ts : List Term) :
    (sequenceTerm ts).map Term.outline = sequenceOutline (ts.map Term.outline) := by
  match ts with
  | [] => rfl
  | [t] => rfl
  | t :: t' :: ts => simp [sequenceTerm, sequenceOutline]

end

/-! ## outcomes -/

section
variable {α β γ δ : Type}

theorem cases_of_map_eq {f : α → γ} {o o' : Option α} (h : o.map f = o'.map f) :
    o = none ∧ o' = none ∨ ∃ a b, o = some a ∧ o' = some b ∧ f a = f b := by
  cases o with
  | none => exact .inl ⟨rfl, Option.map_eq_none_iff.1 h.symm⟩
  | some a =>
    obtain ⟨b, rfl, hab⟩ := Option.map_eq_some_iff.1 h.symm
    exact .inr ⟨a, b, rfl, rfl, hab.symm⟩

/-- What comes of a computation, by what is seen of its result.  Of a failure only the reason counts,
and not the place. -/
def outcome (f : α → γ) (p : Arrange α) (s : List Scope) : Except String (γ × List Scope) :=
  match p.run s with
  | .ok (a, s') => .ok (f a, s')
  | .error e => .error e.message

theorem outcome_bind {g : β → δ} {p : Arrange α} {k : α → Arrange β} {s : List Scope} :
    outcome g (p >>= k) s = match p.run s with
      | .ok (a, s') => outcome g (k a) s'
      | .error e => .error e.message := by
  unfold outcome
  rw [StateT.run_bind]
  cases p.run s <;> rfl

/-- the two computations come to the same, from all scopes -/
def Alike (f : α → γ) (p q : Arrange α) : Prop := ∀ s, outcome f p s = outcome f q s

namespace Alike

variable {f : α → γ} {g : β → δ} {p q r : Arrange α} {k k' : α → Arrange β}

theorem refl (f : α → γ) (p : Arrange α) : Alike f p p := fun _ => rfl

theorem symm (h : Alike f p q) : Alike f q p := fun s => (h s).symm

theorem trans (h : Alike f p q) (h' : Alike f q r) : Alike f p r := fun s => (h s).trans (h' s)

theorem pure {a b : α} (h : f a = f b) : Alike f (Pure.pure a) (Pure.pure b) := fun s => by
  show Except.ok (f a, s) = Except.ok (f b, s)
  rw [h]

theorem throw {e e' : LayoutError} (h : e.message = e'.message) :
    Alike f (throw e : Arrange α) (throw e') := fun s => by
  show Except.error e.message = Except.error e'.message
  rw [h]

/-- computations one after the other -/
theorem bind (h : Alike f p q) (hk : ∀ a b, f a = f b → Alike g (k a) (k' b)) :
    Alike g (p >>= k) (q >>= k') := fun s => by
  have hs := h s
  rw [outcome_bind, outcome_bind]
  unfold outcome at hs
  cases hp : p.run s with
  | error e =>
    cases hq : q.run s with
    | error e' =>
      rw [hp, hq] at hs
      exact congrArg Except.error (Except.error.inj hs)
    | ok _ =>
      rw [hp, hq] at hs
      cases hs
  | ok x =>
    cases hq : q.run s with
    | error e' =>
      rw [hp, hq] at hs
      cases hs
    | ok y =>
      rw [hp, hq] at hs
      obtain ⟨hresult, hscopes⟩ := Prod.mk.inj (Except.ok.inj hs)
      have hnext := hk x.1 y.1 hresult y.2
      show outcome g (k x.1) x.2 = outcome g (k' y.1) y.2
      rw [hscopes]
      exact hnext

theorem map {F F' : α → β} (h : Alike f p q) (hF : ∀ a b, f a = f b → g (F a) = g (F' b)) :
    Alike g (F <$> p) (F' <$> q) := by
  rw [map_eq_pure_bind, map_eq_pure_bind]
  exact h.bind fun a b hab => pure (hF a b hab)

theorem some (h : Alike f p q) : Alike (Option.map f) (some <$> p) (some <$> q) :=
  h.map fun _ _ hab => congrArg Option.some hab

theorem get {k k' : List Scope → Arrange β} (h : ∀ s, Alike g (k s) (k' s)) :
    Alike g (MonadState.get >>= k) (MonadState.get >>= k') := fun s => h s s

/-- a computation in a scope of its own -/
theorem inScope (isClosed : Bool) (h : Alike f p q) :
    Alike f (Ruby.inScope isClosed p) (Ruby.inScope isClosed q) := by
  unfold Ruby.inScope
  refine (refl id _).bind fun _ _ _ => h.bind fun a b hab => ?_
  exact (refl id _).bind fun _ _ _ => pure hab

/-- the same for the members of two lists -/
theorem mapM {ε : Type} {xs : List δ} {ys : List ε} {F : δ → Arrange α} {G : ε → Arrange α}
    (h : List.Forall₂ (fun x y => Alike f (F x) (G y)) xs ys) :
    Alike (List.map f) (xs.mapM F) (ys.mapM G) := by
  induction h with
  | nil => exact refl _ _
  | cons hxy _ ih =>
    rw [List.mapM_cons, List.mapM_cons]
    refine hxy.bind fun a b hab => ih.bind fun as bs has => pure ?_
    rw [List.map_cons, List.map_cons, hab, has]

theorem filterMapM {ε : Type} {xs : List δ} {ys : List ε} {F : δ → Arrange (Option α)}
    {G : ε → Arrange (Option α)}
    (h : List.Forall₂ (fun x y => Alike (Option.map f) (F x) (G y)) xs ys) :
    Alike (List.map f) (xs.filterMapM F) (ys.filterMapM G) := by
  induction h with
  | nil => exact refl _ _
  | cons hxy _ ih =>
    rw [List.filterMapM_cons, List.filterMapM_cons]
    refine hxy.bind fun o o' ho => ?_
    obtain ⟨rfl, rfl⟩ | ⟨a, b, rfl, rfl, hab⟩ := cases_of_map_eq ho
    · exact ih
    · refine ih.bind fun as bs has => pure ?_
      rw [List.map_cons, List.map_cons, hab, has]

theorem foldlM {ε : Type} {xs : List δ} {ys : List ε} {F : α → δ → Arrange α}
    {G : α → ε → Arrange α} {a b : α}
    (h : List.Forall₂ (fun x y => ∀ a b, f a = f b → Alike f (F a x) (G b y)) xs ys)
    (hab : f a = f b) : Alike f (xs.foldlM F a) (ys.foldlM G b) := by
  induction h generalizing a b with
  | nil => exact pure hab
  | cons hxy _ ih =>
    rw [List.foldlM_cons, List.foldlM_cons]
    exact (hxy a b hab).bind fun _ _ hnext => ih hnext

end Alike

end

end Ruby

end RubyLint
