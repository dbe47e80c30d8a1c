import RubyLint.Pattern.Compile

/-!
# Inverting readers

A reader of tokens that succeeds is taken apart into its steps: `bind_inv` gives the step in front and
the rest, and each of the smallest readers has a lemma that says what it answers and leaves.
-/

namespace RubyLint.Pattern

namespace Compile

variable {α β : Type} {p q : Progress}

theorem ok_of_bind {ε : Type} {x : Except ε α} {f : α → Except ε β} {b : β}
    (h : (x >>= f) = .ok b) : ∃ a, x = .ok a ∧ f a = .ok b := by
  cases x with
  | error e => cases h
  | ok a => exact ⟨a, rfl, h⟩

theorem bind_inv {x : Compile α} {f : α → Compile β} {b : β} (h : (x >>= f) p = .ok (b, q)) :
    ∃ a m, x p = .ok (a, m) ∧ f a m = .ok (b, q) := by
  replace h : (x p >>= fun r => f r.1 r.2) = .ok (b, q) := h
  obtain ⟨⟨a, m⟩, hx, h⟩ := ok_of_bind h
  exact ⟨a, m, hx, h⟩

theorem map_inv {x : Compile α} {f : α → β} {b : β} (h : (f <$> x) p = .ok (b, q)) :
    ∃ a, x p = .ok (a, q) ∧ b = f a := by
  replace h : (x >>= fun a => pure (f a)) p = .ok (b, q) := h
  obtain ⟨a, m, hx, hf⟩ := bind_inv h
  cases hf
  exact ⟨a, hx, rfl⟩

theorem pure_inv {a b : α} (h : (pure a : Compile α) p = .ok (b, q)) : b = a ∧ q = p := by
  cases h
  exact ⟨rfl, rfl⟩

theorem fail_ne_ok {fault : PatternFault} {offset : Nat} {b : α}
    (h : (fail fault offset : Compile α) p = .ok (b, q)) : False := by
  cases h

theorem get_bind_inv {f : Progress → Compile β} {b : β} (h : (get >>= f) p = .ok (b, q)) :
    f p p = .ok (b, q) := h

theorem modify_bind_inv {g : Progress → Progress} {f : PUnit → Compile β} {b : β}
    (h : (modify g >>= f) p = .ok (b, q)) : f ⟨⟩ (g p) = .ok (b, q) := h

theorem peek_bind_inv {f : Option Placed → Compile β} {b : β}
    (h : (peek >>= f) p = .ok (b, q)) : f p.tokens.head? p = .ok (b, q) := h

theorem skip_bind_inv {f : Unit → Compile β} {b : β} (h : (skip >>= f) p = .ok (b, q)) :
    f () { p with tokens := p.tokens.drop 1 } = .ok (b, q) := h

/-- Whatever `accept` answers, no capture is made. -/
theorem captures_accept {token : Token} {b : Bool} (h : accept token p = .ok (b, q)) :
    q.captures = p.captures := by
  replace h := peek_bind_inv h
  cases ht : p.tokens.head? with
  | none =>
    rw [ht] at h
    rw [(pure_inv h).2]
  | some t =>
    rw [ht] at h
    by_cases heq : t.token = token
    · simp only [if_pos heq] at h
      replace h := skip_bind_inv h
      rw [(pure_inv h).2]
    · simp only [if_neg heq] at h
      rw [(pure_inv h).2]

theorem newSlot_inv {slot : Nat} (h : newSlot p = .ok (slot, q)) :
    slot = p.captures ∧ q.captures = p.captures + 1 := by
  cases h
  exact ⟨rfl, rfl⟩

/-- A chain of steps that a reader makes, each between the captures before and after it. -/
theorem collect_inv (each : List α → Nat → Nat → Prop) {x : Compile (Option α)} {limit : Nat}
    {as : List α} (hnil : ∀ p q, x p = .ok (none, q) → each [] p.captures q.captures)
    (hstop : ∀ k, each [] k k)
    (hcons : ∀ p m a as k, x p = .ok (some a, m) → each as m.captures k →
      each (a :: as) p.captures k)
    (h : collect x limit p = .ok (as, q)) : each as p.captures q.captures := by
  induction limit generalizing p as with
  | zero =>
    obtain ⟨rfl, rfl⟩ := pure_inv h
    exact hstop _
  | succ limit ih =>
    unfold collect at h
    obtain ⟨o, m, ho, h⟩ := bind_inv h
    cases o with
    | none =>
      obtain ⟨rfl, rfl⟩ := pure_inv h
      exact hnil _ _ ho
    | some a =>
      obtain ⟨rest, k, hrest, h⟩ := bind_inv h
      obtain ⟨rfl, rfl⟩ := pure_inv h
      exact hcons _ _ _ _ _ ho (ih hrest)

end Compile

/-- The characters of a text decide what it compiles to. -/
theorem exists_compile {cs : List Char} {env : Environment} (check : Pattern → Bool)
    (h : ((read cs env).toOption.map fun r =>
      check ⟨String.ofList cs, r.1, r.2.captures, r.2.names, env⟩) = some true) :
    ∃ p, compile (String.ofList cs) env = .ok p ∧ check p = true := by
  obtain ⟨r, hr, hcheck⟩ := Option.map_eq_some_iff.1 h
  refine ⟨_, ?_, hcheck⟩
  unfold compile
  rw [String.toList_ofList]
  cases hread : read cs env with
  | error e => rw [hread] at hr; cases hr
  | ok r' =>
    rw [hread] at hr
    cases hr
    rfl

end RubyLint.Pattern
