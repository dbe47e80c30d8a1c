import RubyLint.Proofs.Pattern.Attempt

/-!
# A pattern matches what it says

A match fails with an error only if a predicate does, or if something stands for no placeholder.
Where neither happens (`Environment.NeverFails`, `Condition.isSupplied`) every attempt comes to an
answer, and by `Condition.decided_of_wellFormed` the answer is the reading of the condition:

* `isSome_matchChild_iff`   a compiled pattern matches a child exactly if its condition holds of it.
-/

namespace RubyLint.Pattern

/-- Whatever a predicate is asked, it answers. -/
def Environment.NeverFails (e : Environment) : Prop :=
  ∀ name (ask : Predicate), e.predicate? name = some @ask →
    ∀ (t : SyntaxTree) (c : NodeChild t) (values : List Value), ∃ b, ask c values = .ok b

namespace Condition

mutual

/-- Everything that the condition uses a placeholder for is supplied: a term may be compared with
whatever a placeholder stands for, a predicate can be given values only. -/
def isSupplied (s : Setting) : Condition → Bool
  | .param number => (s.param number).isOk
  | .external _ arguments => arguments.all fun a => (s.argument a).isOk
  | .capture _ inner => isSupplied s inner
  | .exactly head elements => isSupplied s head && isSuppliedEach s elements
  | .around head front middle _ _ back =>
    isSupplied s head && isSuppliedEach s front && isSupplied s middle && isSuppliedEach s back
  | .union branches => isSuppliedEach s branches
  | .intersection terms => isSuppliedEach s terms
  | .negation inner => isSupplied s inner
  | .parent inner => isSupplied s inner
  | .descendant inner => isSupplied s inner
  | _ => true

def isSuppliedEach (s : Setting) : List Condition → Bool
  | [] => true
  | p :: ps => isSupplied s p && isSuppliedEach s ps

end

theorem isSuppliedEach_eq {s : Setting} (ps : List Condition) :
    isSuppliedEach s ps = ps.all (isSupplied s) := by
  induction ps with
  | nil => rfl
  | cons p ps ih => rw [isSuppliedEach, ih, List.all_cons]

theorem isSupplied_of_mem {s : Setting} {ps : List Condition} (h : isSuppliedEach s ps = true)
    {p : Condition} (hp : p ∈ ps) : isSupplied s p = true := by
  rw [isSuppliedEach_eq, List.all_eq_true] at h
  exact h p hp

end Condition

theorem exists_of_isOk {ε α : Type} {x : Except ε α} (h : x.isOk = true) : ∃ a, x = .ok a := by
  cases x with
  | ok a => exact ⟨a, rfl⟩
  | error e => exact absurd h (by simp [Except.isOk, Except.toBool])

/-! ## attempts that come to an answer -/

namespace Attempt

variable {t : SyntaxTree}

/-- The attempt answers, whatever is bound already. -/
def Answers (a : Attempt t) : Prop := ∀ log, ∃ r, a log = .ok r

variable {a b : Attempt t}

theorem answers_ofBool (b : Bool) : (ofBool b : Attempt t).Answers := fun log => ⟨(b, log), rfl⟩

theorem answers_bind (slot : Nat) (capture : Capture t) : (bind slot capture).Answers := fun log =>
  ⟨(true, log ++ [⟨slot, capture⟩]), rfl⟩

theorem answers_bindTaken (slot : Option Nat) (cs : List (NodeChild t)) :
    (bindTaken slot cs).Answers := by
  cases slot with
  | some k => exact answers_bind k _
  | none => exact answers_ofBool true

theorem answers_ofAnswer {answer : Except PredicateError Bool} (h : ∃ b, answer = .ok b) :
    (ofAnswer answer : Attempt t).Answers := by
  intro log
  obtain ⟨b, rfl⟩ := h
  exact ⟨(b, log), rfl⟩

theorem Answers.both (ha : a.Answers) (hb : b.Answers) : (both a b).Answers := by
  intro log
  obtain ⟨⟨r, log'⟩, hr⟩ := ha log
  unfold Attempt.both
  rw [hr]
  cases r with
  | true => exact hb log'
  | false => exact ⟨_, rfl⟩

theorem Answers.negate (ha : a.Answers) : a.negate.Answers := by
  intro log
  obtain ⟨⟨r, log'⟩, hr⟩ := ha log
  unfold Attempt.negate
  rw [hr]
  exact ⟨_, rfl⟩

theorem answers_firstOf {α : Type} {f : α → Attempt t} {mark : Nat} {l : List α}
    (h : ∀ x ∈ l, (f x).Answers) : (firstOf f mark l).Answers := by
  induction l with
  | nil => exact answers_ofBool false
  | cons x l ih =>
    intro log
    obtain ⟨⟨r, log'⟩, hr⟩ := h x List.mem_cons_self log
    show ∃ r, orElseFrom mark (f x) (firstOf f mark l) log = .ok r
    unfold orElseFrom
    rw [hr]
    cases r with
    | true => exact ⟨_, rfl⟩
    | false => exact ih (fun y hy => h y (List.mem_cons_of_mem _ hy)) _

theorem answers_forAll {α : Type} {f : α → Attempt t} {l : List α}
    (h : ∀ x ∈ l, (f x).Answers) : (forAll f l).Answers := by
  induction l with
  | nil => exact answers_ofBool true
  | cons x l ih =>
    exact (h x List.mem_cons_self).both (ih fun y hy => h y (List.mem_cons_of_mem _ hy))

theorem answers_around {before behind : Nat} {arity : Arity} {slot : Option Nat}
    {front back : List (NodeChild t) → Attempt t} {middle : NodeChild t → Attempt t}
    (hf : ∀ cs, (front cs).Answers) (hm : ∀ c, (middle c).Answers) (hb : ∀ cs, (back cs).Answers)
    (cs : List (NodeChild t)) :
    (around before behind arity slot front middle back cs).Answers := by
  by_cases hfit : before + behind ≤ cs.length ∧
      arity.allows (cs.length - (before + behind)) = true
  · rw [around_of_fit hfit.1 hfit.2]
    exact (hf _).both ((hb _).both ((answers_forAll fun c _ => hm c).both (answers_bindTaken _ _)))
  · rw [around_of_misfit hfit]
    exact answers_ofBool false

end Attempt

/-! ## conditions that are always answered -/

section
variable {s : Setting} {t : SyntaxTree}

theorem Setting.exists_arguments {arguments : List Argument}
    (h : (arguments.all fun a => (s.argument a).isOk) = true) :
    ∃ values, arguments.mapM s.argument = .ok values := by
  induction arguments with
  | nil => exact ⟨[], rfl⟩
  | cons a rest ih =>
    rw [List.all_cons, Bool.and_eq_true] at h
    obtain ⟨v, hv⟩ := exists_of_isOk h.1
    obtain ⟨vs, hvs⟩ := ih h.2
    refine ⟨v :: vs, ?_⟩
    rw [List.mapM_cons, hv, hvs]
    rfl

/-- A predicate answers if there is one of that name and its arguments are there. -/
theorem Setting.ask_eq_ok_iff {name : String} {arguments : List Argument} {c : NodeChild t}
    {b : Bool} : s.ask name arguments c = .ok b ↔ ∃ (values : List Value) (ask : Predicate),
      arguments.mapM s.argument = .ok values ∧ s.environment.predicate? name = some @ask ∧
        ask c values = .ok b := by
  constructor
  · intro h
    obtain ⟨values, hvalues, hanswer⟩ := Compile.ok_of_bind h
    cases hname : s.environment.predicate? name with
    | none =>
      rw [hname] at hanswer
      cases hanswer
    | some ask =>
      simp only [hname] at hanswer
      refine ⟨values, @ask, hvalues, rfl, ?_⟩
      cases hok : ask c values with
      | ok b' =>
        rw [hok] at hanswer
        exact hanswer
      | error e =>
        rw [hok] at hanswer
        cases e <;> cases hanswer
  · rintro ⟨values, ask, hvalues, hask, hanswer⟩
    unfold Setting.ask
    simp only [hvalues, hask, bind, Except.bind, hanswer]

theorem Setting.exists_ask {name : String} {arguments : List Argument} (c : NodeChild t)
    (hn : s.environment.NeverFails) (hk : (s.environment.predicate? name).isSome)
    (ha : (arguments.all fun a => (s.argument a).isOk) = true) :
    ∃ b, s.ask name arguments c = .ok b := by
  obtain ⟨ask, hask⟩ := Option.isSome_iff_exists.1 hk
  obtain ⟨values, hvalues⟩ := exists_arguments ha
  obtain ⟨b, hb⟩ := hn name ask hask t c values
  exact ⟨b, ask_eq_ok_iff.2 ⟨values, @ask, hvalues, hask, hb⟩⟩

namespace Condition

open Attempt

theorem answers_attemptEach {ps : List Condition}
    (h : ∀ p ∈ ps, ∀ c : NodeChild t, (attempt s p c).Answers) (cs : List (NodeChild t)) :
    (attemptEach s ps cs).Answers := by
  induction ps generalizing cs with
  | nil =>
    rw [attemptEach]
    exact answers_ofBool true
  | cons p ps ih =>
    cases cs with
    | nil =>
      rw [attemptEach]
      exact answers_ofBool false
    | cons c cs =>
      rw [attemptEach]
      exact (h p List.mem_cons_self c).both (ih (fun q hq => h q (List.mem_cons_of_mem _ hq)) cs)

theorem answers_attempt {p : Condition} {lo hi : Nat} (hp : p.WellFormed s.environment lo hi)
    (hn : s.environment.NeverFails) (hs : p.isSupplied s = true) (c : NodeChild t) :
    (attempt s p c).Answers := by
  induction p using Condition.ind generalizing c lo hi with
  | plain p hplain =>
    cases p with
    | external name arguments =>
      rw [attempt]
      exact answers_ofAnswer (Setting.exists_ask c hn hp.2 hs)
    | param number =>
      rw [attempt]
      obtain ⟨q, hq⟩ := exists_of_isOk hs
      exact answers_ofAnswer ⟨q.holds c, by rw [hq]; rfl⟩
    | wildcard => rw [attempt]; exact answers_ofBool _
    | kind => rw [attempt]; exact answers_ofBool _
    | kindIn => rw [attempt]; exact answers_ofBool _
    | literal => rw [attempt]; exact answers_ofBool _
    | builtin => rw [attempt]; exact answers_ofBool _
    | oneOf => rw [attempt]; exact answers_ofBool _
    | _ => exact hplain.elim
  | capture slot inner ih =>
    rw [attempt]
    exact (ih hp.2 hs c).both (answers_bind slot _)
  | exactly head elements ihh ihe =>
    obtain ⟨a, hh, he⟩ := hp
    rw [isSupplied, Bool.and_eq_true] at hs
    obtain ⟨hsh, hse⟩ := hs
    have heach : ∀ p ∈ elements, ∀ c : NodeChild t, (attempt s p c).Answers := fun p hp =>
      he.forall ihe p hp (isSupplied_of_mem hse hp)
    cases c with
    | value v =>
      rw [attempt]
      exact answers_ofBool false
    | node n =>
      rw [attempt]
      refine (ihh hh hsh (.node n)).both ?_
      split
      · exact answers_attemptEach heach _
      · exact answers_ofBool false
  | around head front middle arity slot back ihh ihf ihm ihb =>
    obtain ⟨_, _, _, _, hh, hf, _, hm, hb⟩ := hp
    rw [isSupplied, Bool.and_eq_true, Bool.and_eq_true, Bool.and_eq_true] at hs
    obtain ⟨⟨⟨hsh, hsf⟩, hsm⟩, hsb⟩ := hs
    have hfront : ∀ p ∈ front, ∀ c : NodeChild t, (attempt s p c).Answers := fun p hp =>
      hf.forall ihf p hp (isSupplied_of_mem hsf hp)
    have hback : ∀ p ∈ back, ∀ c : NodeChild t, (attempt s p c).Answers := fun p hp =>
      hb.forall ihb p hp (isSupplied_of_mem hsb hp)
    cases c with
    | value v =>
      rw [attempt]
      exact answers_ofBool false
    | node n =>
      rw [attempt]
      exact (ihh hh hsh (.node n)).both (answers_around (answers_attemptEach hfront)
        (fun c => ihm hm hsm c) (answers_attemptEach hback) n.children)
  | union branches ih =>
    obtain ⟨_, halike⟩ := hp
    rw [wellFormedAlike_iff] at halike
    rw [attempt]
    intro log
    simp only [attemptAny_eq]
    exact answers_firstOf (fun p hp => ih p hp (halike p hp) (isSupplied_of_mem hs hp) c) log
  | intersection terms ih =>
    have heach : ∀ q ∈ terms, ∀ c : NodeChild t, (attempt s q c).Answers := fun q hq =>
      WellFormedEach.forall hp ih q hq (isSupplied_of_mem hs hq)
    rw [attempt, attemptAll_eq]
    exact answers_attemptEach heach _
  | negation inner ih =>
    rw [attempt]
    exact (ih hp.2 hs c).negate
  | parent inner ih =>
    rw [attempt]
    split
    · exact ih hp hs _
    · exact answers_ofBool false
  | descendant inner ih =>
    cases c with
    | value v =>
      rw [attempt]
      exact ih hp hs _
    | node n =>
      rw [attempt]
      intro log
      exact answers_firstOf (fun m _ => ih hp hs (.node m)) log

end Condition

end

/-! ## matching -/

/-- What a match comes from. -/
theorem attempt_of_matchChild {p : Pattern} {params : List Param} {t : SyntaxTree}
    {c : NodeChild t} {caps : Captures t} (h : p.matchChild params c = some caps) :
    ∃ bs, p.condition.attempt ⟨p.environment, params⟩ c [] = .ok (true, bs) ∧
      caps = Captures.ofBindings p.captureCount p.names bs := by
  unfold matchChild at h
  split at h
  · next bs ha => exact ⟨bs, ha, (Option.some.inj h).symm⟩
  · cases h

/-- **A compiled pattern matches a child exactly if its condition holds of it**, provided that no
predicate fails and that the placeholders of the pattern are supplied. -/
theorem isSome_matchChild_iff {source : String} {env : Environment} {p : Pattern}
    (h : compile source env = .ok p) (hn : env.NeverFails) {params : List Param}
    (hs : p.condition.isSupplied ⟨env, params⟩ = true) {t : SyntaxTree} (c : NodeChild t) :
    (p.matchChild params c).isSome = true ↔ p.condition.Holds ⟨env, params⟩ c := by
  obtain ⟨rfl, hwf⟩ := wellFormed_of_compile h
  obtain ⟨⟨b, log⟩, ha⟩ := Condition.answers_attempt hwf hn hs c []
  obtain ⟨bs, -, -, htrue, hfalse⟩ := Condition.decided_of_wellFormed hwf c [] b log ha
  unfold matchChild
  rw [ha]
  cases b with
  | true =>
    obtain ⟨d, hd, -⟩ := htrue rfl
    exact iff_of_true rfl hd.holds
  | false => exact iff_of_false (by simp) (hfalse rfl)

def absentOnly : Environment := ⟨[("absent?", fun c _ => .ok c.isNil)], []⟩

def bareCall : SyntaxTree :=
  SyntaxTree.ofNode "puts" .send ⟨0, 4⟩ Loc.none [.value .nil, .value (.sym "puts")]

theorem neverFails_absentOnly : absentOnly.NeverFails := by
  intro name ask h t c values
  unfold absentOnly Environment.predicate? at h
  rw [List.find?_cons] at h
  split at h
  · cases h
    exact ⟨c.isNil, rfl⟩
  · cases h

theorem bareCall_matches : ∃ p, compile "(send $#absent? %1 {(int $_) (str $_)}*)" absentOnly = .ok p ∧
    absentOnly.NeverFails ∧
    p.condition.isSupplied ⟨absentOnly, [.value (.sym "puts")]⟩ = true ∧
    p.condition.Holds ⟨absentOnly, [.value (.sym "puts")]⟩ (.node bareCall.rootNode) := by
  obtain ⟨p, hp, hcheck⟩ : ∃ p,
      compile "(send $#absent? %1 {(int $_) (str $_)}*)" absentOnly = .ok p ∧
      (p.condition.isSupplied ⟨absentOnly, [.value (.sym "puts")]⟩ &&
        (p.matchChild [.value (.sym "puts")] (.node bareCall.rootNode)).isSome) = true :=
    exists_compile (fun p => p.condition.isSupplied ⟨absentOnly, [.value (.sym "puts")]⟩ &&
        (p.matchChild [.value (.sym "puts")] (.node bareCall.rootNode)).isSome) (by decide +kernel)
  rw [Bool.and_eq_true] at hcheck
  exact ⟨p, hp, neverFails_absentOnly, hcheck.1,
    (isSome_matchChild_iff hp neverFails_absentOnly hcheck.1 _).1 hcheck.2⟩

end RubyLint.Pattern
