import RubyLint.Proofs.Layout.Moves

/-!
# The shape of moves

The moves of a node visit parts inside it, and every scope that they open they close again.

* `Shaped`            visits of smaller parts, names that are bound, and scopes around such moves;
* `shaped_or_refused` the moves of every node are shaped so, or refuse an assignment without a target;
* `Opens`             the constructs that have a scope of their own;
* `Reached`           what is visited from a node, or from what is visited.
-/

namespace RubyLint.Ruby

namespace Concrete

variable {c d : Concrete} {role : Role}

theorem sizeOf_lt_of_part? (h : c.part? role = some d) : sizeOf d < sizeOf c :=
  sizeOf_lt_of_mem (mem_children_of_part? h)

theorem sizeOf_lt_of_named (h : d ∈ c.named) : sizeOf d < sizeOf c :=
  sizeOf_lt_of_mem (mem_children_of_named h)

end Concrete

namespace Layout

/-- The moves visit parts smaller than `size`, and the scopes that they open are of the kinds that `P`
allows and are closed again. -/
inductive Shaped (size : Nat) (P : Bool → Prop) : List Move → Prop
  | nil : Shaped size P []
  | bind (name : String) {ms : List Move} (h : Shaped size P ms) : Shaped size P (.bind name :: ms)
  | visit {d : Concrete} {ms : List Move} (hd : sizeOf d < size) (h : Shaped size P ms) :
      Shaped size P (.visit d :: ms)
  | scope {isClosed : Bool} {inner ms : List Move} (hP : P isClosed) (hinner : Shaped size P inner)
      (h : Shaped size P ms) : Shaped size P (.enter isClosed :: (inner ++ .leave :: ms))

namespace Shaped

variable {source : List Char} {size : Nat} {P : Bool → Prop} {ms ms' : List Move} {c d : Concrete}
  {cs : List Concrete} {o : Option Concrete} {role : Role}

theorem append (h : Shaped size P ms) (h' : Shaped size P ms') : Shaped size P (ms ++ ms') := by
  induction h with
  | nil => exact h'
  | bind name _ ih => exact .bind name ih
  | visit hd _ ih => exact .visit hd ih
  | scope hP hinner _ _ ih =>
    rw [List.cons_append, List.append_assoc]
    exact .scope hP hinner ih

theorem flatMap {α : Type} {f : α → List Move} {l : List α} (h : ∀ a ∈ l, Shaped size P (f a)) :
    Shaped size P (l.flatMap f) := by
  induction l with
  | nil => exact nil
  | cons a l ih =>
    rw [List.flatMap_cons]
    exact (h a List.mem_cons_self).append (ih fun b hb => h b (List.mem_cons_of_mem a hb))

theorem elim {f : Concrete → List Move} (h : ∀ d ∈ o, Shaped size P (f d)) :
    Shaped size P (o.elim [] f) := by
  cases o with
  | none => exact nil
  | some d => exact h d rfl

theorem binds (cs : List Concrete) : Shaped size P (cs.map (bindText source)) := by
  induction cs with
  | nil => exact nil
  | cons d cs ih => exact .bind _ ih

theorem visits (h : ∀ d ∈ cs, sizeOf d < size) : Shaped size P (visits cs) := by
  induction cs with
  | nil => exact nil
  | cons d cs ih =>
    exact .visit (h d List.mem_cons_self) (ih fun e he => h e (List.mem_cons_of_mem d he))

theorem ownScope {isClosed : Bool} (hP : P isClosed) (h : Shaped size P ms) :
    Shaped size P (ownScope isClosed ms) := .scope hP h nil

/-! ## the parts of a node -/

theorem one (h : sizeOf d < size) : Shaped size P [.visit d] := .visit h nil

theorem part (hc : sizeOf c ≤ size) : Shaped size P (visitPart c role) :=
  visits fun _ hd => Nat.lt_of_lt_of_le (Concrete.sizeOf_lt_of_part? (Option.mem_toList.1 hd)) hc

theorem named (hc : sizeOf c ≤ size) : Shaped size P (Layout.visits c.named) :=
  visits fun _ hd => Nat.lt_of_lt_of_le (Concrete.sizeOf_lt_of_named hd) hc

theorem visitNamed (ho : ∀ d ∈ o, sizeOf d ≤ size) : Shaped size P (visitNamed o) := by
  cases o with
  | none => exact nil
  | some d => exact named (ho d rfl)

theorem namedOfPart (hc : sizeOf c ≤ size) : Shaped size P (Layout.visitNamed (c.part? role)) :=
  visitNamed fun _ hd => Nat.le_trans (Nat.le_of_lt (Concrete.sizeOf_lt_of_part? hd)) hc

theorem filtered {p : Concrete → Bool} (hc : sizeOf c ≤ size) :
    Shaped size P (Layout.visits (c.named.filter p)) :=
  visits fun _ hd =>
    Nat.lt_of_lt_of_le (Concrete.sizeOf_lt_of_named (List.mem_filter.1 hd).1) hc

/-! ## the constructs -/

theorem parameterMoves (hc : sizeOf c ≤ size) : Shaped size P (parameterMoves source c) := by
  induction c using Concrete.ind with
  | h c ih =>
    rw [Layout.parameterMoves.eq_def]
    refine (binds _).append ?_
    split
    · exact .bind _ nil
    · exact part hc
    · exact part hc
    · refine flatMap fun d _ => ?_
      show Shaped size P (if d.1.isPassedOver then _ else _)
      split
      · exact nil
      · exact ih d.1 d.2 (Nat.le_trans (Nat.le_of_lt (Concrete.sizeOf_lt_of_mem d.2)) hc)
    · exact nil

theorem parametersMoves (hc : sizeOf c ≤ size) : Shaped size P (parametersMoves source c) :=
  flatMap fun _ hd => parameterMoves (Nat.le_trans (Nat.le_of_lt (Concrete.sizeOf_lt_of_named hd)) hc)

theorem targetMoves (hc : sizeOf c ≤ size) : Shaped size P (targetMoves source c) := by
  unfold Layout.targetMoves
  split
  · exact .bind _ nil
  · exact part hc
  · exact part hc
  · exact (part hc).append (filtered hc)
  · exact (binds _).append (named hc)
  · exact nil

theorem blockMoves (hP : P false) (hc : sizeOf c ≤ size) : Shaped size P (blockMoves source c) := by
  have hle : ∀ {d}, d ∈ c.children → sizeOf d ≤ size := fun hd =>
    Nat.le_trans (Nat.le_of_lt (Concrete.sizeOf_lt_of_mem hd)) hc
  refine ownScope hP ((elim fun d hd => parametersMoves ?_).append (visitNamed fun d hd => ?_))
  · exact hle (Concrete.mem_of_part?_or_find? hd)
  · exact hle (Concrete.mem_of_part?_or_find? hd)

theorem callMoves (hP : P false) : Shaped (sizeOf c) P (callMoves source c) := by
  refine (append ?_ (namedOfPart (Nat.le_refl _))).append (elim fun b hb => blockMoves hP ?_)
  · split
    · exact nil
    · exact part (Nat.le_refl _)
  · exact Nat.le_of_lt (Concrete.sizeOf_lt_of_part? hb)

theorem unaryMoves : Shaped (sizeOf c) P (unaryMoves source c) := by
  unfold Layout.unaryMoves
  split
  · exact nil
  · exact part (Nat.le_refl _)

theorem assignmentMoves (hc : (c.part? .left).isSome) :
    Shaped (sizeOf c) P (assignmentMoves source c) := by
  obtain ⟨left, hleft⟩ := Option.isSome_iff_exists.1 hc
  unfold Layout.assignmentMoves
  rw [hleft]
  refine (append ?_ ?_).append (targetMoves (Nat.le_of_lt (Concrete.sizeOf_lt_of_part? hleft)))
  · split
    · exact .bind _ nil
    · exact binds _
    · exact nil
  · split
    · next right hright =>
      have hlt := Concrete.sizeOf_lt_of_part? hright
      split
      · exact named (Nat.le_of_lt hlt)
      · exact one hlt
    · exact nil

theorem operatorAssignmentMoves (hc : (c.part? .left).isSome) :
    Shaped (sizeOf c) P (operatorAssignmentMoves source c) := by
  obtain ⟨left, hleft⟩ := Option.isSome_iff_exists.1 hc
  unfold Layout.operatorAssignmentMoves
  rw [hleft]
  exact (targetMoves (Nat.le_of_lt (Concrete.sizeOf_lt_of_part? hleft))).append
    (part (Nat.le_refl _))

theorem branchMoves (ho : ∀ d ∈ o, sizeOf d < size) : Shaped size P (branchMoves o) := by
  unfold Layout.branchMoves
  split
  · next d =>
    split
    · exact one (ho d rfl)
    · exact named (Nat.le_of_lt (ho d rfl))
  · exact nil

theorem forMoves : Shaped (sizeOf c) P (forMoves source c) :=
  (append (elim fun _ hd => targetMoves (Nat.le_of_lt (Concrete.sizeOf_lt_of_part? hd)))
    (part (Nat.le_refl _))).append (namedOfPart (Nat.le_refl _))

theorem caseMoves : Shaped (sizeOf c) P (caseMoves c) := by
  refine (part (Nat.le_refl _)).append (flatMap fun d hd => ?_)
  have hlt := Concrete.sizeOf_lt_of_named (List.mem_filter.1 hd).1
  unfold caseBranchMoves
  split
  · exact one hlt
  · exact named (Nat.le_of_lt hlt)
  · exact nil

theorem closedBodyMoves (hP : P true) : Shaped (sizeOf c) P (closedBodyMoves c) :=
  ownScope hP (namedOfPart (Nat.le_refl _))

theorem methodMoves (hP : P true) (isSingleton : Bool) :
    Shaped (sizeOf c) P (methodMoves source c isSingleton) := by
  refine append ?_ (ownScope hP ((elim fun d hd => parametersMoves ?_).append ?_))
  · split
    · exact part (Nat.le_refl _)
    · exact nil
  · exact Nat.le_of_lt (Concrete.sizeOf_lt_of_part? hd)
  · unfold methodBodyMoves
    split
    · next b hb =>
      have hlt := Concrete.sizeOf_lt_of_part? hb
      split
      · exact named (Nat.le_of_lt hlt)
      · exact one hlt
    · exact filtered (Nat.le_refl _)

theorem jumpMoves : Shaped (sizeOf c) P (jumpMoves c) := by
  refine flatMap fun d hd => ?_
  have hlt := Concrete.sizeOf_lt_of_named hd
  split
  · exact named (Nat.le_of_lt hlt)
  · exact one hlt

end Shaped

/-- The construct has a scope of its own, in which the names of the scopes around it are seen or not. -/
inductive Opens (c : Concrete) : Bool → Prop
  /-- by the block of a call -/
  | call (h : c.construct = .call) : Opens c false
  | definition (h : c.construct ∈ [.methodDefinition, .singletonMethod, .classDefinition,
      .moduleDefinition, .singletonClass]) : Opens c true

/-- An assignment that has nothing to assign to. -/
structure HasNoTarget (c : Concrete) : Prop where
  isAssignment : c.construct = .assignment ∨ c.construct = .operatorAssignment
  noLeft : c.part? .left = none

variable {source : List Char} {c : Concrete}

/-- **Every node visits what is inside it and closes the scopes that it opens**, unless it is an assignment
without a target. -/
theorem shaped_or_refused (source : List Char) (c : Concrete) :
    Shaped (sizeOf c) (Opens c) (moves source c) ∨
      HasNoTarget c ∧ moves source c = [.refuse c.span.start] := by
  have hle : sizeOf c ≤ sizeOf c := Nat.le_refl _
  have hbranch : ∀ role, Shaped (sizeOf c) (Opens c) (branchMoves (c.part? role)) := fun role =>
    .branchMoves fun _ hd => Concrete.sizeOf_lt_of_part? hd
  unfold moves
  cases hc : c.construct with
  | assignment =>
    cases hleft : c.part? .left with
    | some left => exact .inl (.assignmentMoves (by rw [hleft]; rfl))
    | none =>
      refine .inr ⟨⟨.inl hc, hleft⟩, ?_⟩
      show assignmentMoves source c = _
      unfold assignmentMoves
      rw [hleft]
  | operatorAssignment =>
    cases hleft : c.part? .left with
    | some left => exact .inl (.operatorAssignmentMoves (by rw [hleft]; rfl))
    | none =>
      refine .inr ⟨⟨.inr hc, hleft⟩, ?_⟩
      show operatorAssignmentMoves source c = _
      unfold operatorAssignmentMoves
      rw [hleft]
  | identifier | constant | selfWord | superWord | nilWord | trueWord | falseWord
  | instanceVariable | classVariable | globalVariable | integer | float | character | bareString
  | simpleSymbol | hashKeySymbol | bareSymbol => exact .inl .nil
  | scopeResolution => exact .inl (.part hle)
  | string | delimitedSymbol | regex => exact .inl (.filtered hle)
  | call => exact .inl (.callMoves (.call hc))
  | unary => exact .inl .unaryMoves
  | elementReference => exact .inl (.append (.part hle) (.filtered hle))
  | pair | binary | range | ifModifier | unlessModifier | whileModifier | untilModifier =>
    exact .inl (.append (.part hle) (.part hle))
  | whileLoop | untilLoop => exact .inl (.append (.part hle) (.namedOfPart hle))
  | whenBranch =>
    refine .inl (.append (.visits fun d hd => ?_) (.namedOfPart hle))
    exact Concrete.sizeOf_lt_of_mem (Concrete.mem_children_of_parts hd)
  | whenPattern | superclassPart | inPart =>
    refine .inl (.visits fun d hd => Concrete.sizeOf_lt_of_named ?_)
    exact List.mem_of_mem_head? (Option.mem_toList.1 hd)
  | ifBranch | elsifBranch | conditional | unlessBranch =>
    exact .inl (.append (.append (.part hle) (hbranch _)) (hbranch _))
  | forLoop => exact .inl .forMoves
  | caseOf => exact .inl .caseMoves
  | methodDefinition => exact .inl (.methodMoves (.definition (by simp [hc])) false)
  | singletonMethod => exact .inl (.methodMoves (.definition (by simp [hc])) true)
  | classDefinition =>
    exact .inl (.append (.append (.part hle) (.part hle))
      (.closedBodyMoves (.definition (by simp [hc]))))
  | moduleDefinition | singletonClass =>
    exact .inl (.append (.part hle) (.closedBodyMoves (.definition (by simp [hc]))))
  | returnJump | breakJump | nextJump | yieldCall => exact .inl .jumpMoves
  | blockParameters | methodParameters | lambdaParameters => exact .inl (.parametersMoves hle)
  | _ => exact .inl (.named hle)

section
variable {size : Nat} {P : Bool → Prop} {ms : List Move}

theorem Shaped.sizeOf_lt (h : Shaped size P ms) {d : Concrete} (hd : .visit d ∈ ms) :
    sizeOf d < size := by
  induction h with
  | nil => exact absurd hd List.not_mem_nil
  | bind name _ ih => exact ih (by simpa using hd)
  | visit he _ ih =>
    rcases List.mem_cons.1 hd with hd | hd
    · cases hd
      exact he
    · exact ih hd
  | scope _ _ _ ihinner ih =>
    have hd := (List.mem_cons.1 hd).resolve_left (by simp)
    rcases List.mem_append.1 hd with hd | hd
    · exact ihinner hd
    · exact ih ((List.mem_cons.1 hd).resolve_left (by simp))

theorem Shaped.not_refuse (h : Shaped size P ms) (offset : Nat) : .refuse offset ∉ ms := by
  induction h with
  | nil => exact List.not_mem_nil
  | bind name _ ih => simpa using ih
  | visit he _ ih => simpa using ih
  | scope _ _ _ ihinner ih => simpa using ⟨ihinner, ih⟩

theorem Shaped.allowed (h : Shaped size P ms) {isClosed : Bool} (ho : .enter isClosed ∈ ms) :
    P isClosed := by
  induction h with
  | nil => exact absurd ho List.not_mem_nil
  | bind name _ ih => exact ih (by simpa using ho)
  | visit he _ ih => exact ih (by simpa using ho)
  | scope hP _ _ ihinner ih =>
    rcases List.mem_cons.1 ho with ho | ho
    · cases ho
      exact hP
    rcases List.mem_append.1 ho with ho | ho
    · exact ihinner ho
    · exact ih ((List.mem_cons.1 ho).resolve_left (by simp))

end

theorem sizeOf_lt_of_visit {d : Concrete} (h : .visit d ∈ moves source c) : sizeOf d < sizeOf c := by
  rcases shaped_or_refused source c with hshaped | ⟨-, hrefused⟩
  · exact hshaped.sizeOf_lt h
  · rw [hrefused] at h
    simp at h

theorem hasNoTarget_of_refuse {offset : Nat} (h : .refuse offset ∈ moves source c) :
    HasNoTarget c := by
  rcases shaped_or_refused source c with hshaped | ⟨hnone, -⟩
  · exact absurd h (hshaped.not_refuse offset)
  · exact hnone

theorem opens_of_enter {isClosed : Bool} (h : .enter isClosed ∈ moves source c) :
    Opens c isClosed := by
  rcases shaped_or_refused source c with hshaped | ⟨-, hrefused⟩
  · exact hshaped.allowed h
  · rw [hrefused] at h
    simp at h

/-! ## what is reached -/

/-- A part that is visited from the node, or from a part that is. -/
inductive Reached (source : List Char) (c : Concrete) : Concrete → Prop
  | self : Reached source c c
  | visit {d e : Concrete} (h : Reached source c d) (he : .visit e ∈ moves source d) :
      Reached source c e

theorem Reached.trans {c d e : Concrete} (h : Reached source c d) (h' : Reached source d e) :
    Reached source c e := by
  induction h' with
  | self => exact h
  | visit _ he ih => exact ih.visit he

end Layout

end RubyLint.Ruby
