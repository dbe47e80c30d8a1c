import RubyLint.Ruby.Layout.Construct

/-!
# What a layout does, in the order of reading

The layout of a node visits some of its parts, binds names, and opens and closes scopes.  `moves` lists
these in the order of reading, without the terms that come of it, and `perform` carries them out.

* `Layout.Lays`     a computation of a layout does what the moves say: it fails where they fail, leaves
                    the scopes that they leave, and its result stands in a relation to the terms of the
                    parts that are visited;
* `Lays.bind`, `Lays.last`, `Lays.inScope`   one rule for each way in which computations are put together;
* `Layout.moves`    the moves of a node by its construct.
-/

namespace RubyLint.Ruby

namespace Concrete

@[elab_as_elim]
theorem ind {motive : Concrete → Prop} (h : ∀ c, (∀ d ∈ c.children, motive d) → motive c)
    (c : Concrete) : motive c :=
  h c fun d _hd => ind h d
termination_by sizeOf c
decreasing_by exact sizeOf_lt_of_mem _hd

theorem mem_of_part?_or_find? {c d : Concrete} {role : Role} {p : Concrete → Bool}
    (h : (c.part? role <|> c.named.find? p) = some d) : d ∈ c.children := by
  cases hpart : c.part? role with
  | some e =>
    rw [hpart] at h
    exact mem_children_of_part? (hpart.trans h)
  | none =>
    rw [hpart] at h
    exact mem_children_of_named (List.mem_of_find?_eq_some h)

end Concrete

/-- A step in the reading of a node. -/
inductive Move where
  | bind (name : String)
  | enter (isClosed : Bool)
  | leave
  | visit (part : Concrete)
  /-- the node has no layout -/
  | refuse (offset : Nat)

/-- A part with the term that it is laid out as. -/
abbrev Visited := Concrete × Term

namespace Layout

/-- Carries the moves out, and answers with what has been visited. -/
def perform (l : Layout) : List Move → Arrange (List Visited)
  | [] => return []
  | .bind name :: ms => do declare name; perform l ms
  | .enter isClosed :: ms => do modify (Scope.fresh isClosed :: ·); perform l ms
  | .leave :: ms => do modify List.tail; perform l ms
  | .visit d :: ms => do
    let t ← l.below d
    let vs ← perform l ms
    return (d, t) :: vs
  | .refuse offset :: _ => throw (.noTarget offset)

/-- Whatever the scopes are, the computation does what the moves do. -/
structure Lays {α : Type} (l : Layout) (p : Arrange α) (ms : List Move)
    (P : List Visited → α → Prop) : Prop where
  fails : ∀ s e, (l.perform ms).run s = .error e → p.run s = .error e
  works : ∀ s vs s', (l.perform ms).run s = .ok (vs, s') → ∃ a, p.run s = .ok (a, s') ∧ P vs a

/-! ## computations one after the other -/

section
variable {α β : Type} {p : Arrange α} {k : α → Arrange β} {s : List Scope}

theorem run_bind_eq_ok {b : β} {s' : List Scope} : (p >>= k).run s = .ok (b, s') ↔
    ∃ a s'', p.run s = .ok (a, s'') ∧ (k a).run s'' = .ok (b, s') := by
  rw [StateT.run_bind]
  cases p.run s with
  | error e => exact iff_of_false (fun h => nomatch h) fun ⟨_, _, h, _⟩ => nomatch h
  | ok r =>
    constructor
    · exact fun h => ⟨r.1, r.2, rfl, h⟩
    · rintro ⟨a, s'', h, hk⟩
      cases h
      exact hk

theorem run_bind_eq_error {e : LayoutError} : (p >>= k).run s = .error e ↔
    p.run s = .error e ∨ ∃ a s', p.run s = .ok (a, s') ∧ (k a).run s' = .error e := by
  rw [StateT.run_bind]
  cases p.run s with
  | error e' =>
    show Except.error e' = Except.error e ↔ _
    constructor
    · exact fun h => .inl (congrArg _ (Except.error.inj h))
    · rintro (h | ⟨a, s', h, -⟩)
      · exact congrArg _ (Except.error.inj h)
      · cases h
  | ok r =>
    constructor
    · exact fun h => .inr ⟨r.1, r.2, rfl, h⟩
    · rintro (h | ⟨a, s', h, hk⟩)
      · cases h
      · cases h
        exact hk

end

section
variable {α β : Type} {l : Layout} {p : Arrange α} {k : α → Arrange β} {ms ms' : List Move}
  {P P' : List Visited → α → Prop} {Q : List Visited → β → Prop}

theorem perform_append (ms ms' : List Move) : l.perform (ms ++ ms') = do
    let vs ← l.perform ms
    let vs' ← l.perform ms'
    return vs ++ vs' := by
  induction ms with
  | nil => simp [perform]
  | cons m ms ih =>
    cases m with
    | refuse offset => rfl
    | _ => simp [perform, ih]

namespace Lays

theorem imp (h : Lays l p ms P) (hP : ∀ vs a, P vs a → P' vs a) : Lays l p ms P' where
  fails := h.fails
  works s vs s' hs := by
    obtain ⟨a, ha, hPa⟩ := h.works s vs s' hs
    exact ⟨a, ha, hP vs a hPa⟩

theorem pure {a : α} (h : P [] a) : Lays l (Pure.pure a) [] P where
  fails _ _ hs := nomatch hs
  works _ _ _ hs := by
    cases hs
    exact ⟨a, rfl, h⟩

/-- one computation after another -/
theorem bind (hp : Lays l p ms P)
    (hk : ∀ vs a, P vs a → Lays l (k a) ms' fun vs' b => Q (vs ++ vs') b) :
    Lays l (p >>= k) (ms ++ ms') Q where
  fails s e hs := by
    rw [perform_append, run_bind_eq_error] at hs
    rw [run_bind_eq_error]
    rcases hs with hs | ⟨vs, s', hvs, hs⟩
    · exact .inl (hp.fails s e hs)
    · obtain ⟨a, ha, hPa⟩ := hp.works s vs s' hvs
      rcases run_bind_eq_error.1 hs with hs | ⟨_, _, _, hs⟩
      · exact .inr ⟨a, s', ha, (hk vs a hPa).fails s' e hs⟩
      · cases hs
  works s ws s'' hs := by
    rw [perform_append, run_bind_eq_ok] at hs
    obtain ⟨vs, s', hvs, hs⟩ := hs
    obtain ⟨vs', _, hvs', hs⟩ := run_bind_eq_ok.1 hs
    cases hs
    obtain ⟨a, ha, hPa⟩ := hp.works s vs s' hvs
    obtain ⟨b, hb, hQ⟩ := (hk vs a hPa).works s' vs' s'' hvs'
    exact ⟨b, run_bind_eq_ok.2 ⟨a, s', ha, hb⟩, hQ⟩

/-- a computation after which nothing is read -/
theorem last (hp : Lays l p ms P) (hk : ∀ vs a, P vs a → Lays l (k a) [] fun _ b => Q vs b) :
    Lays l (p >>= k) ms Q where
  fails s e hs := run_bind_eq_error.2 (.inl (hp.fails s e hs))
  works s vs s' hs := by
    obtain ⟨a, ha, hPa⟩ := hp.works s vs s' hs
    obtain ⟨b, hb, hQ⟩ := (hk vs a hPa).works s' [] s' rfl
    exact ⟨b, run_bind_eq_ok.2 ⟨a, s', ha, hb⟩, hQ⟩

theorem map {f : α → β} (hp : Lays l p ms P) (hQ : ∀ vs a, P vs a → Q vs (f a)) :
    Lays l (f <$> p) ms Q := by
  rw [map_eq_pure_bind]
  exact hp.last fun vs a ha => .pure (hQ vs a ha)

/-! ## single moves -/

theorem visit (d : Concrete) : Lays l (l.below d) [.visit d] fun vs t => vs = [(d, t)] where
  fails s e hs := by
    rw [perform, run_bind_eq_error] at hs
    rcases hs with hs | ⟨t, s', -, hs⟩
    · exact hs
    · cases hs
  works s vs s' hs := by
    rw [perform, run_bind_eq_ok] at hs
    obtain ⟨t, s'', ht, hs⟩ := hs
    cases hs
    exact ⟨t, ht, rfl⟩

theorem declare (name : String) : Lays l (Ruby.declare name) [.bind name] fun vs _ => vs = [] where
  fails _ _ hs := nomatch hs
  works _ _ _ hs := by
    cases hs
    exact ⟨(), rfl, rfl⟩

theorem enter (isClosed : Bool) :
    Lays l (modify (Scope.fresh isClosed :: ·)) [.enter isClosed] fun vs _ => vs = [] where
  fails _ _ hs := nomatch hs
  works _ _ _ hs := by
    cases hs
    exact ⟨(), rfl, rfl⟩

theorem leave : Lays l (modify List.tail) [.leave] fun vs _ => vs = [] where
  fails _ _ hs := nomatch hs
  works _ _ _ hs := by
    cases hs
    exact ⟨(), rfl, rfl⟩

theorem refuse (offset : Nat) : Lays l (throw (.noTarget offset) : Arrange α) [.refuse offset] P where
  fails _ _ hs := by
    cases hs
    rfl
  works _ _ _ hs := nomatch hs

/-- a computation in a scope of its own -/
theorem inScope (isClosed : Bool) (hp : Lays l p ms P) :
    Lays l (Ruby.inScope isClosed p) (.enter isClosed :: ms ++ [.leave]) P := by
  refine (enter isClosed).bind fun vs _ hvs => ?_
  obtain rfl := hvs
  refine hp.bind fun vs a ha => ?_
  refine leave.last fun vs' _ hvs' => .pure ?_
  obtain rfl := hvs'
  rwa [List.nil_append, List.append_nil]

theorem mapM {γ : Type} {f : γ → Arrange α} {moves : γ → List Move} {R : List Visited → List α → Prop}
    {cs : List γ} (hf : ∀ c ∈ cs, Lays l (f c) (moves c) P) (hnil : R [] [])
    (hcons : ∀ vs a vs' as, P vs a → R vs' as → R (vs ++ vs') (a :: as)) :
    Lays l (cs.mapM f) (cs.flatMap moves) R := by
  induction cs with
  | nil => exact .pure hnil
  | cons c cs ih =>
    rw [List.mapM_cons, List.flatMap_cons]
    refine (hf c List.mem_cons_self).bind fun vs a ha => ?_
    refine (ih fun d hd => hf d (List.mem_cons_of_mem c hd)).last fun vs' as has => .pure ?_
    exact hcons vs a vs' as ha has

end Lays

end

/-! ## what has been visited -/

section
variable {l : Layout} {ms : List Move} {s s' : List Scope} {vs : List Visited}

/-- The parts of the moves have been visited, each with the term that it is laid out as. -/
structure HasVisited (l : Layout) (ms : List Move) (vs : List Visited) : Prop where
  laid : ∀ v ∈ vs, .visit v.1 ∈ ms ∧
    ∃ before after, (l.below v.1).run before = .ok (v.2, after)
  exists_visited : ∀ d, .visit d ∈ ms → ∃ t, (d, t) ∈ vs
  not_refused : ∀ offset, .refuse offset ∉ ms

theorem HasVisited.skip (h : HasVisited l ms vs) {m : Move} (hvisit : ∀ d, m ≠ .visit d)
    (hrefuse : ∀ offset, m ≠ .refuse offset) : HasVisited l (m :: ms) vs where
  laid v hv := ⟨List.mem_cons_of_mem m (h.laid v hv).1, (h.laid v hv).2⟩
  exists_visited d hd := h.exists_visited d ((List.mem_cons.1 hd).resolve_left (hvisit d).symm)
  not_refused offset ho :=
    h.not_refused offset ((List.mem_cons.1 ho).resolve_left (hrefuse offset).symm)

theorem hasVisited_of_perform (h : (l.perform ms).run s = .ok (vs, s')) : HasVisited l ms vs := by
  induction ms generalizing s vs with
  | nil =>
    cases h
    exact ⟨fun v hv => absurd hv List.not_mem_nil, fun d hd => absurd hd List.not_mem_nil,
      fun offset => List.not_mem_nil⟩
  | cons m ms ih =>
    cases m with
    | bind name => exact (ih h).skip (by simp) (by simp)
    | enter isClosed => exact (ih h).skip (by simp) (by simp)
    | leave => exact (ih h).skip (by simp) (by simp)
    | refuse offset => cases h
    | visit d =>
      rw [perform, run_bind_eq_ok] at h
      obtain ⟨t, s'', ht, h⟩ := h
      obtain ⟨ws, _, hws, h⟩ := run_bind_eq_ok.1 h
      cases h
      have hrest := ih hws
      refine ⟨List.forall_mem_cons.2 ⟨⟨List.mem_cons_self, s, s'', ht⟩, fun v hv => ?_⟩,
        fun e he => ?_, fun offset ho => ?_⟩
      · exact ⟨List.mem_cons_of_mem _ (hrest.laid v hv).1, (hrest.laid v hv).2⟩
      · rcases List.mem_cons.1 he with he | he
        · cases he
          exact ⟨t, List.mem_cons_self⟩
        · obtain ⟨t', ht'⟩ := hrest.exists_visited e he
          exact ⟨t', List.mem_cons_of_mem _ ht'⟩
      · rcases List.mem_cons.1 ho with ho | ho
        · cases ho
        · exact hrest.not_refused offset ho

theorem exists_failing_of_perform {e : LayoutError} (h : (l.perform ms).run s = .error e) :
    (∃ d before, .visit d ∈ ms ∧ (l.below d).run before = .error e) ∨
      ∃ offset, .refuse offset ∈ ms ∧ e = .noTarget offset := by
  induction ms generalizing s with
  | nil => cases h
  | cons m ms ih =>
    have hrest : ∀ {s}, (l.perform ms).run s = .error e →
        (∃ d before, .visit d ∈ m :: ms ∧ (l.below d).run before = .error e) ∨
          ∃ offset, .refuse offset ∈ m :: ms ∧ e = .noTarget offset := by
      intro s h
      rcases ih h with ⟨d, before, hd, he⟩ | ⟨offset, ho, he⟩
      · exact .inl ⟨d, before, List.mem_cons_of_mem m hd, he⟩
      · exact .inr ⟨offset, List.mem_cons_of_mem m ho, he⟩
    cases m with
    | bind name => exact hrest h
    | enter isClosed => exact hrest h
    | leave => exact hrest h
    | refuse offset =>
      cases h
      exact .inr ⟨offset, List.mem_cons_self, rfl⟩
    | visit d =>
      rw [perform, run_bind_eq_error] at h
      rcases h with h | ⟨t, s', -, h⟩
      · exact .inl ⟨d, s, List.mem_cons_self, h⟩
      · rcases run_bind_eq_error.1 h with h | ⟨_, _, _, h⟩
        · exact hrest h
        · cases h

end

/-! ## the moves of each construct -/

def reading (source : List Char) : Layout := ⟨source, fun c => throw (.tooDeep c.span.start)⟩

def visits (cs : List Concrete) : List Move := cs.map .visit

def visitPart (c : Concrete) (role : Role) : List Move := visits (c.part? role).toList

def visitNamed (c : Option Concrete) : List Move := visits (c.elim [] Concrete.named)

def ownScope (isClosed : Bool) (ms : List Move) : List Move := .enter isClosed :: ms ++ [.leave]

def isSuperCall (c : Concrete) : Bool :=
  (c.part? .method).any (fun m => m.construct == .superWord) && (c.part? .receiver).isNone

def branchMoves : Option Concrete → List Move
  | some d => if d.construct = .elsifBranch then [.visit d] else visits d.named
  | none => []

def caseBranchMoves (c : Concrete) : List Move :=
  match c.construct with
  | .whenBranch => [.visit c]
  | .elseBranch => visits c.named
  | _ => []

def caseMoves (c : Concrete) : List Move :=
  visitPart c .value ++ (c.named.filter fun d => d.role != .value).flatMap caseBranchMoves

def closedBodyMoves (c : Concrete) : List Move := ownScope true (visitNamed (c.part? .body))

def methodBodyMoves (c : Concrete) : List Move :=
  match c.part? .body with
  | some b => if b.construct = .bodyStatement then visits b.named else [.visit b]
  | none => visits (c.named.filter fun d =>
      d.role != .name && d.role != .parameters && d.role != .object)

def jumpMoves (c : Concrete) : List Move :=
  c.named.flatMap fun d => if d.construct = .argumentList then visits d.named else [.visit d]

def interpolatedMoves (c : Concrete) : List Move :=
  visits (c.named.filter fun d => d.construct == .interpolation)

section
variable (source : List Char)

/-- The name that a word stands for. -/
def wordName (c : Concrete) : String := String.ofList ((reading source).text c)

def bindText (c : Concrete) : Move := .bind (wordName source c)

def parameterMoves (c : Concrete) : List Move :=
  (c.part? .name).toList.map (bindText source) ++
    match c.construct with
    | .identifier => [bindText source c]
    | .optionalParameter | .keywordParameter => visitPart c .value
    | .destructuredParameter => c.children.attach.flatMap fun
      | ⟨d, _h⟩ => if d.isPassedOver then [] else parameterMoves d
    | _ => []
termination_by sizeOf c
decreasing_by exact Concrete.sizeOf_lt_of_mem _h

def parametersMoves (c : Concrete) : List Move := c.named.flatMap (parameterMoves source)

def blockMoves (c : Concrete) : List Move :=
  ownScope false ((blockParameters? c).elim [] (parametersMoves source) ++ visitNamed (blockBody? c))

def callMoves (c : Concrete) : List Move :=
  (if isSuperCall c then [] else visitPart c .receiver) ++ visitNamed (c.part? .arguments) ++
    (c.part? .block).elim [] (blockMoves source)

def unaryMoves (c : Concrete) : List Move :=
  if ((reading source).negativeNumber? c).isSome then [] else visitPart c .operand

def targetMoves (c : Concrete) : List Move :=
  match c.construct with
  | .identifier => [bindText source c]
  | .scopeResolution => visitPart c .scope
  | .call => visitPart c .receiver
  | .elementReference => visitPart c .object ++ visits (indices c)
  | .leftAssignmentList => (identifiersIn c).map (bindText source) ++ visits c.named
  | _ => []

/-- The names of a target are bound before the value is read. -/
def assignmentMoves (c : Concrete) : List Move :=
  match c.part? .left with
  | none => [.refuse c.span.start]
  | some left =>
    (match left.construct with
      | .identifier => [bindText source left]
      | .leftAssignmentList => (identifiersIn left).map (bindText source)
      | _ => []) ++
    (match c.part? .right with
      | some right => match right.construct with
        | .rightAssignmentList => visits right.named
        | _ => [.visit right]
      | none => []) ++
    targetMoves source left

def operatorAssignmentMoves (c : Concrete) : List Move :=
  match c.part? .left with
  | none => [.refuse c.span.start]
  | some left => targetMoves source left ++ visitPart c .right

def forMoves (c : Concrete) : List Move :=
  (c.part? .pattern).elim [] (targetMoves source) ++ visitPart c .value ++
    visitNamed (c.part? .body)

/-- A method; the object that it is of is read outside of it. -/
def methodMoves (c : Concrete) (isSingleton : Bool) : List Move :=
  (if isSingleton then visitPart c .object else []) ++
    ownScope true ((c.part? .parameters).elim [] (parametersMoves source) ++ methodBodyMoves c)

/-- **The moves of a node by its construct**, in the order of reading.  A word has none: what it becomes
goes by the scopes. -/
def moves (c : Concrete) : List Move :=
  match c.construct with
  | .identifier | .constant | .selfWord | .superWord | .nilWord | .trueWord | .falseWord
  | .instanceVariable | .classVariable | .globalVariable | .integer | .float | .character
  | .bareString | .simpleSymbol | .hashKeySymbol | .bareSymbol => []
  | .scopeResolution => visitPart c .scope
  | .string | .delimitedSymbol | .regex => interpolatedMoves c
  | .pair => visitPart c .key ++ visitPart c .value
  | .call => callMoves source c
  | .elementReference => visitPart c .object ++ visits (indices c)
  | .binary => visitPart c .left ++ visitPart c .right
  | .unary => unaryMoves source c
  | .whenPattern | .superclassPart | .inPart => visits c.named.head?.toList
  | .assignment => assignmentMoves source c
  | .operatorAssignment => operatorAssignmentMoves source c
  | .ifBranch | .elsifBranch | .conditional | .unlessBranch =>
    visitPart c .condition ++ branchMoves (c.part? .consequence) ++
      branchMoves (c.part? .alternative)
  | .ifModifier | .unlessModifier | .whileModifier | .untilModifier =>
    visitPart c .body ++ visitPart c .condition
  | .whileLoop | .untilLoop => visitPart c .condition ++ visitNamed (c.part? .body)
  | .forLoop => forMoves source c
  | .caseOf => caseMoves c
  | .whenBranch => visits (c.parts .pattern) ++ visitNamed (c.part? .body)
  | .methodDefinition => methodMoves source c false
  | .singletonMethod => methodMoves source c true
  | .classDefinition => visitPart c .name ++ visitPart c .superclass ++ closedBodyMoves c
  | .moduleDefinition => visitPart c .name ++ closedBodyMoves c
  | .singletonClass => visitPart c .value ++ closedBodyMoves c
  | .returnJump | .breakJump | .nextJump | .yieldCall => jumpMoves c
  | .range => visitPart c .lower ++ visitPart c .upper
  | .blockParameters | .methodParameters | .lambdaParameters => parametersMoves source c
  | _ => visits c.named

end

end Layout

end RubyLint.Ruby
