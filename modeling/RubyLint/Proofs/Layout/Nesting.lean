import RubyLint.Proofs.Layout.Constructs
import RubyLint.Proofs.Layout.Shape

/-!
# How deep nodes may be nested

A layout goes down `maxNesting` parts and refuses what is nested deeper.  A part puts at most three nodes
on top of each other, so the depth of a term is bounded; but parameters that are taken apart in each other
are laid out without going down a part, and are not counted.

* `Chain`                     a chain of parts, each visited from the one before;
* `Term.height`               the depth of a term;
* `rootTerm_nesting`          what is laid out is nested no deeper than the limit, its depth is bounded by
                              the limit and the parameters taken apart in each other, and nothing else
                              fails but an assignment without a target;
* `exists_height_unpacked`    there is no bound for these parameters.
-/

namespace RubyLint

mutual

/-- The number of nodes on the longest way down. -/
def Term.height : Term → Nat
  | .value _ => 0
  | .node _ _ _ children => heightEach children + 1

def Term.heightEach : List Term → Nat
  | [] => 0
  | t :: ts => max t.height (heightEach ts)

end

theorem Term.heightEach_le {ts : List Term} {n : Nat} (h : ∀ t ∈ ts, t.height ≤ n) :
    heightEach ts ≤ n := by
  induction ts with
  | nil => exact Nat.zero_le n
  | cons t ts ih =>
    rw [heightEach]
    exact Nat.max_le.2 ⟨h t List.mem_cons_self, ih fun t' ht' => h t' (List.mem_cons_of_mem t ht')⟩

namespace Ruby

namespace Layout

/-- The term of a layout has no more nodes on top of each other than it puts there. -/
theorem Made.height_le {vs : List Visited} {k b : Nat} {t : Term} (h : Made vs k t)
    (hvs : ∀ v ∈ vs, v.2.height ≤ b + v.1.unpacking) : t.height ≤ b + k := by
  induction h with
  | value v => exact Nat.zero_le _
  | part h hd => exact Nat.le_trans (hvs _ h) (Nat.add_le_add_left hd b)
  | node hkind _ ih =>
    rw [Term.height, ← Nat.add_assoc]
    exact Nat.succ_le_succ (Term.heightEach_le ih)

/-! ## the limit -/

variable {source : List Char}

/-- Below the node there is a chain of `n` parts, each visited from the one before. -/
inductive Chain (source : List Char) : Nat → Concrete → Prop
  | zero (c : Concrete) : Chain source 0 c
  | succ {n : Nat} {c d : Concrete} (hc : c.construct ≠ .identifier)
      (hd : .visit d ∈ moves source c) (h : Chain source n d) : Chain source (n + 1) c

/-- What comes of the layout of a node below which `n` parts may be visited in a chain. -/
def Limits (source : List Char) (n : Nat) (c : Concrete) :
    Except LayoutError (Term × List Scope) → Prop
  | .ok (t, _) => ¬ Chain source n c ∧ t.height ≤ 3 * n + c.unpacking
  | .error (.tooDeep _) => Chain source n c
  | .error (.noTarget _) => ∃ d, Reached source c d ∧ HasNoTarget d

theorem limits_within (n : Nat) (c : Concrete) (s : List Scope) :
    Limits source n c ((within source n c).run s) := by
  induction n generalizing c s with
  | zero => exact Chain.zero c
  | succ n ih =>
    by_cases hc : c.construct = .identifier
    · have hheight : ∀ b, (wordTerm source c b).height ≤ 1 := by
        intro b
        cases b <;> exact Nat.le_refl 1
      rw [run_within_word hc]
      refine ⟨fun h => ?_, ?_⟩
      · cases h with
        | succ hne _ _ => exact hne hc
      · have := hheight (isLocal (wordName source c) s)
        omega
    · have hlays := node_lays ⟨source, within source n⟩ c hc
      show Limits source (n + 1) c ((Layout.node ⟨source, within source n⟩ c).run s)
      cases hms : (perform ⟨source, within source n⟩ (moves source c)).run s with
      | error e =>
        rw [hlays.fails s e hms]
        rcases exists_failing_of_perform hms with ⟨d, before, hd, he⟩ | ⟨offset, ho, rfl⟩
        · have h := ih d before
          rw [show (within source n d).run before = .error e from he] at h
          cases e with
          | tooDeep offset => exact .succ hc hd h
          | noTarget offset =>
            obtain ⟨e, he, hnone⟩ := h
            exact ⟨e, (Reached.self.visit hd).trans he, hnone⟩
        · exact ⟨c, .self, hasNoTarget_of_refuse ho⟩
      | ok r =>
        obtain ⟨vs, s'⟩ := r
        obtain ⟨t, ht, hmade, -⟩ := hlays.works s vs s' hms
        rw [ht]
        have hvisited := hasVisited_of_perform hms
        have hlaid : ∀ v ∈ vs, ¬ Chain source n v.1 ∧ v.2.height ≤ 3 * n + v.1.unpacking := by
          intro v hv
          obtain ⟨-, before, after, hbelow⟩ := hvisited.laid v hv
          have h := ih v.1 before
          rwa [show (within source n v.1).run before = .ok (v.2, after) from hbelow] at h
        constructor
        · intro h
          cases h with
          | succ _ hd hchain =>
            obtain ⟨t', hv⟩ := hvisited.exists_visited _ hd
            exact (hlaid _ hv).1 hchain
        · have hle := hmade.height_le fun v hv => (hlaid v hv).2
          omega

end Layout

open Layout

/-- **How deep what is laid out is nested.**  A text that is laid out has no chain of more than `maxNesting`
parts, and the depth of its tree is at most three for each of them and one for the whole, besides the
parameters that are taken apart in each other.  Where fewer of these than `maxNesting` stand in each other,
that is at most `4 * maxNesting`.  A text with a longer chain is refused because of it; only an assignment
without a target is refused for another reason. -/
theorem rootTerm_nesting (source : List Char) (forest : List Concrete) :
    match rootTerm source forest with
    | .ok t => (∀ c ∈ forest, ¬ Chain source maxNesting c) ∧
      (∀ n, (∀ c ∈ forest, c.unpacking ≤ n) → t.height ≤ 3 * maxNesting + 1 + n) ∧
      ((∀ c ∈ forest, c.unpacking < maxNesting) → t.height ≤ 4 * maxNesting)
    | .error (.tooDeep _) => ∃ c ∈ forest, Chain source maxNesting c
    | .error (.noTarget _) => ∃ c ∈ forest, ∃ d, Reached source c d ∧ HasNoTarget d := by
  have hvisit : ∀ {d}, .visit d ∈ visits forest → d ∈ forest := by
    intro d hd
    obtain ⟨d', hd', heq⟩ := List.mem_map.1 hd
    cases heq
    exact hd'
  have hlays : ∀ n, (∀ c ∈ forest, c.unpacking ≤ n) →
      Lays (ofSource source) ((ofSource source).statements forest) (visits forest)
        fun vs t => Makes (n + 1) vs t.toList := fun n hn => statements_lays (ofSource source) hn
  have hbounded := Concrete.exists_unpacking_le forest
  have hlimits := fun c s => @limits_within source maxNesting c s
  rw [rootTerm_eq]
  cases hms : ((ofSource source).perform (visits forest)).run [Scope.fresh true] with
  | error e =>
    obtain ⟨n, hn⟩ := hbounded
    rw [(hlays n hn).fails _ e hms]
    rcases exists_failing_of_perform hms with ⟨d, before, hd, he⟩ | ⟨offset, ho, rfl⟩
    · have h := hlimits d before
      rw [show (within source maxNesting d).run before = .error e from he] at h
      cases e with
      | tooDeep offset => exact ⟨d, hvisit hd, h⟩
      | noTarget offset => exact ⟨d, hvisit hd, h⟩
    · obtain ⟨d, -, heq⟩ := List.mem_map.1 ho
      cases heq
  | ok r =>
    obtain ⟨vs, s'⟩ := r
    have hvisited := hasVisited_of_perform hms
    have hlaid : ∀ v ∈ vs, ¬ Chain source maxNesting v.1 ∧
        v.2.height ≤ 3 * maxNesting + v.1.unpacking := by
      intro v hv
      obtain ⟨-, before, after, hbelow⟩ := hvisited.laid v hv
      have h := hlimits v.1 before
      rwa [show (within source maxNesting v.1).run before = .ok (v.2, after) from hbelow] at h
    obtain ⟨root, hroot⟩ : ∃ root, ((ofSource source).statements forest).run [Scope.fresh true] =
        .ok (root, s') := by
      obtain ⟨n, hn⟩ := hbounded
      obtain ⟨root, hroot, -⟩ := (hlays n hn).works _ vs s' hms
      exact ⟨root, hroot⟩
    have hheight : ∀ n, (∀ c ∈ forest, c.unpacking ≤ n) →
        (root.getD (plainTerm .sequence ⟨0, Text.byteLength source⟩ [])).height ≤
          3 * maxNesting + 1 + n := by
      intro n hn
      obtain ⟨root', hroot', hmakes⟩ := (hlays n hn).works _ vs s' hms
      rw [hroot] at hroot'
      cases hroot'
      cases root with
      | none =>
        show 1 ≤ _
        omega
      | some t =>
        have hle := (hmakes.made t List.mem_cons_self).height_le fun v hv => (hlaid v hv).2
        show t.height ≤ _
        omega
    rw [hroot]
    refine ⟨fun c hc => ?_, hheight, fun hn => ?_⟩
    · obtain ⟨t, hv⟩ := hvisited.exists_visited c (List.mem_map_of_mem hc)
      exact (hlaid _ hv).1
    · have hle := hheight (maxNesting - 1) fun c hc => Nat.le_sub_one_of_lt (hn c hc)
      have hmax : maxNesting = 256 := rfl
      omega

/-! ## parameters that are taken apart -/

def unpackedParameter : Nat → Nat → Concrete
  | 0, start => .node .plain .identifier ⟨start, start + 1⟩ []
  | n + 1, start => .node .plain .destructuredParameter ⟨start, start + 2 * n + 3⟩
    [unpackedParameter n (start + 1)]

def unpackingText (n : Nat) : List Char :=
  "def f(".toList ++ List.replicate n '(' ++ ['a'] ++ List.replicate n ')' ++ "); end".toList

def unpackingMethod (n : Nat) : Concrete :=
  .node .plain .methodDefinition ⟨0, 2 * n + 13⟩ [.node .name .identifier ⟨4, 5⟩ [],
    .node .parameters .methodParameters ⟨5, 2 * n + 8⟩ [unpackedParameter n 6]]

theorem role_unpackedParameter (n start : Nat) : (unpackedParameter n start).role = .plain := by
  cases n <;> rfl

theorem isPassedOver_unpackedParameter (n start : Nat) : (unpackedParameter n start).isPassedOver = false := by
  cases n <;> rfl

theorem run_unpackedParameter (l : Layout) (n start : Nat) (s : List Scope) :
    ∃ t s', (l.parameter (unpackedParameter n start)).run s = .ok (t, s') ∧ t.height = n + 1 := by
  induction n generalizing start s with
  | zero =>
    rw [unpackedParameter, Layout.parameter.eq_def]
    exact ⟨_, _, rfl, rfl⟩
  | succ n ih =>
    obtain ⟨t, s', ht, hheight⟩ := ih (start + 1) s
    have hname : (unpackedParameter (n + 1) start).part? .name = none := by
      simp [unpackedParameter, Concrete.part?, Concrete.children, role_unpackedParameter]
    have hpart : (List.filterMapM
        (fun d => if d.1.isPassedOver then return none else some <$> l.parameter d.1)
        (unpackedParameter (n + 1) start).children.attach : Arrange (List Term)).run s =
        .ok ([t], s') := by
      simp only [unpackedParameter, Concrete.children, List.attach_cons, List.attach_nil,
        List.map_nil, List.filterMapM_cons, isPassedOver_unpackedParameter, Bool.false_eq_true,
        if_false, List.filterMapM_nil, bind_pure_comp, map_pure, bind_map_left, StateT.run_map, ht]
      rfl
    refine ⟨plainTerm (.other "mlhs") (unpackedParameter (n + 1) start).span [t], s', ?_, ?_⟩
    · rw [Layout.parameter.eq_def, hname]
      exact run_bind_eq_ok.2 ⟨[t], s', hpart, rfl⟩
    · show max t.height 0 + 1 = n + 2
      omega

/-- the method is laid out, with the parameters and the name of the method around its parameter -/
theorem run_unpackingMethod (l : Layout) (n : Nat) (s : List Scope) :
    ∃ t s', (l.method (unpackingMethod n) false).run s = .ok (t, s') ∧ t.height = n + 3 := by
  obtain ⟨t, s', ht, hheight⟩ := run_unpackedParameter l n 6 (Scope.fresh true :: s)
  have hparameters : (l.parametersOr 5 ((unpackingMethod n).part? .parameters)).run
      (Scope.fresh true :: s) = .ok (plainTerm .args ⟨5, 2 * n + 8⟩ [t], s') := by
    show (l.parameters (.node .parameters .methodParameters ⟨5, 2 * n + 8⟩
      [unpackedParameter n 6])).run _ = _
    unfold parameters
    simp only [Concrete.named, Concrete.children, isPassedOver_unpackedParameter, Bool.not_false,
      List.filter_cons_of_pos, List.filter_nil, List.mapM_cons, List.mapM_nil, bind_pure_comp,
      map_pure, Functor.map_map, StateT.run_map, ht]
    rfl
  have hbody : (l.methodBody (unpackingMethod n)).run s' = .ok (none, s') := rfl
  refine ⟨.node .methodDef ⟨0, 2 * n + 13⟩ { Loc.none with selector := some ⟨4, 5⟩ }
    [symTerm (l.text (.node .name .identifier ⟨4, 5⟩ [])), plainTerm .args ⟨5, 2 * n + 8⟩ [t],
      nilTerm], s'.tail, ?_, ?_⟩
  · unfold method
    refine run_bind_eq_ok.2 ⟨[], s, rfl, ?_⟩
    refine run_bind_eq_ok.2 ⟨(plainTerm .args ⟨5, 2 * n + 8⟩ [t], none), s'.tail, ?_, rfl⟩
    unfold inScope
    refine run_bind_eq_ok.2 ⟨(), Scope.fresh true :: s, rfl, ?_⟩
    refine run_bind_eq_ok.2 ⟨(plainTerm .args ⟨5, 2 * n + 8⟩ [t], none), s', ?_, rfl⟩
    refine run_bind_eq_ok.2 ⟨_, s', hparameters, ?_⟩
    exact run_bind_eq_ok.2 ⟨none, s', hbody, rfl⟩
  · show max 0 (max (max t.height 0 + 1) (max 0 0)) + 1 = n + 3
    omega

/-- **There is no bound for parameters that are taken apart in each other.**  A method with such a
parameter is laid out however often it is taken apart, and its tree is deeper each time. -/
theorem exists_height_unpacked (source : List Char) (n : Nat) :
    ∃ t, rootTerm source [unpackingMethod n] = .ok t ∧ t.height = n + 3 := by
  obtain ⟨t, s', ht, hheight⟩ := run_unpackingMethod ⟨source, within source 255⟩ n [Scope.fresh true]
  refine ⟨t, ?_, hheight⟩
  have hstatements : ((ofSource source).statements [unpackingMethod n]).run [Scope.fresh true] =
      .ok (some t, s') := by
    unfold statements
    rw [map_eq_pure_bind]
    refine run_bind_eq_ok.2 ⟨[t], s', ?_, rfl⟩
    unfold Layout.all
    rw [List.mapM_cons]
    exact run_bind_eq_ok.2 ⟨t, s', ht, rfl⟩
  rw [rootTerm_eq, hstatements]
  rfl

/-- the text of a method whose parameter is taken apart more often than the bound for the depth -/
theorem deeper_unpacked : ∃ t, rootTerm (unpackingText 1100) [unpackingMethod 1100] = .ok t ∧
    ¬ t.height ≤ 4 * maxNesting := by
  obtain ⟨t, ht, hheight⟩ := exists_height_unpacked (unpackingText 1100) 1100
  exact ⟨t, ht, by rw [hheight]; decide⟩

end Ruby

end RubyLint
