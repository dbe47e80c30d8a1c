import RubyLint.Ruby.Automaton.Reading

/-!
# What the items of a state have been followed over

An item fits the symbols that have been read if the steps behind it have just these symbols at their end.
So a production that is complete has all of its symbols at the end of what has been read.

* `Item.Fits`          an item fits the symbols that have been read;
* `State.Reached`      a state is reached by some symbols;
* `Reached.reduced`    what a state asks to reduce is a production whose symbols have just been read.
-/

namespace RubyLint.Ruby

/-! ## productions in tables -/

namespace Table

theorem mem_grouped {size : Nat} {key : Production → Option Nat} (n : Nat) {p : Production}
    (h : p ∈ (grouped size key).getD n []) : p ∈ productions := by
  rw [Array.getD_eq_getD_getElem?] at h
  revert n p
  unfold grouped
  refine List.foldrRecOn (motive := fun groups : Array (List Production) =>
    ∀ n {p}, p ∈ groups[n]?.getD [] → p ∈ productions) productions _ ?_ fun groups hgroups q hq => ?_
  · intro n p hp
    rw [Array.getElem?_replicate] at hp
    split at hp <;> cases hp
  · split
    · next k _ =>
      intro n p hp
      rw [Array.getElem?_modify] at hp
      split at hp
      · cases hn : groups[n]? with
        | none =>
          rw [hn] at hp
          cases hp
        | some ps =>
          rw [hn] at hp
          rcases List.mem_cons.1 hp with rfl | hp
          · exact hq
          · exact hgroups n (hn ▸ hp)
      · exact hgroups n hp
    · exact hgroups

theorem mem_starting {X : Symbol} {p : Production} (h : p ∈ rubyTable.starting X) :
    p ∈ productions := by
  unfold starting at h
  split at h
  · next code =>
    unfold rubyTable ofGrammar at h
    dsimp only at h
    exact mem_grouped code h
  · next n =>
    unfold rubyTable ofGrammar at h
    dsimp only at h
    exact mem_grouped n h

end Table

/-! ## items -/

section
variable {i j : Item} {X : Symbol} {Xs : List Symbol} {s s' : State} {p : Production}

theorem Item.advance?_eq_some (h : j.advance? X = some i) : i.production = j.production ∧
    ∃ step, step.symbol = X ∧ j.rest = step :: i.rest := by
  unfold advance? at h
  split at h
  · cases h
  · next step rest hrest =>
    split at h
    · next hX =>
      cases h
      exact ⟨rfl, step, hX, hrest⟩
    · cases h

/-- Behind the item stand steps with the last of some symbols, which come last first. -/
structure Item.Fits (i : Item) (Xs : List Symbol) : Prop where
  isProduction : i.production ∈ productions
  done : ∃ done : List Step, i.production.steps = done.reverse ++ i.rest ∧ done.map Step.symbol <+: Xs

theorem Item.Fits.start (h : i.production ∈ productions) (hrest : i.rest = i.production.steps) :
    i.Fits Xs := ⟨h, [], hrest.symm, List.nil_prefix⟩

theorem Item.Fits.advance (h : j.Fits Xs) (hi : j.advance? X = some i) : i.Fits (X :: Xs) := by
  obtain ⟨hproduction, step, rfl, hrest⟩ := advance?_eq_some hi
  obtain ⟨done, hsteps, hdone⟩ := h.done
  refine ⟨hproduction ▸ h.isProduction, step :: done, ?_, List.cons_prefix_cons.2 ⟨rfl, hdone⟩⟩
  rw [hproduction, hsteps, hrest, List.reverse_cons, List.append_assoc]
  rfl

/-! ## states -/

/-- The items of the second state are items of the first one behind a symbol, or have been started with
it. -/
def State.Follows (s s' : State) (X : Symbol) : Prop :=
  ∀ i ∈ s'.kernel, ∃ j : Item, j.advance? X = some i ∧
    (j ∈ s.kernel ∨ j.production ∈ productions ∧ j.rest = j.production.steps)

theorem State.follows_advance (s : State) (X : Symbol) : s.Follows (s.advance rubyTable X) X := by
  intro i hi
  rcases List.mem_append.1 hi with hi | hi
  · obtain ⟨j, hj, hi⟩ := List.mem_filterMap.1 hi
    exact ⟨j, hi, .inl hj⟩
  · obtain ⟨p, hp, hi⟩ := List.mem_filterMap.1 hi
    dsimp only at hi
    split at hi
    · cases hi
    · exact ⟨_, hi, .inr ⟨Table.mem_starting hp, rfl⟩⟩

theorem State.follows_heredocBody (s : State) : s.Follows (.heredocBody rubyTable)
    (.terminal (Terminal.scanned .heredocBodyStart).code) := by
  intro i hi
  unfold heredocBody ofKernel at hi
  dsimp only at hi
  obtain ⟨p, hp, hi⟩ := List.mem_filterMap.1 hi
  have hproduction := Table.mem_starting hp
  exact ⟨_, hi, .inr ⟨hproduction, rfl⟩⟩

/-- The state is reached by some symbols, the last first. -/
inductive State.Reached : List Symbol → State → Prop
  | first : Reached [] Reading.firstState
  | behind {Xs : List Symbol} {s s' : State} {X : Symbol} (h : Reached Xs s) (hs : s.Follows s' X) :
      Reached (X :: Xs) s'

theorem State.Reached.fits (h : State.Reached Xs s) : ∀ i ∈ s.kernel, i.Fits Xs := by
  induction h with
  | first =>
    intro i hi
    unfold Reading.firstState State.initial State.ofKernel at hi
    obtain ⟨p, hp, rfl⟩ := List.mem_map.1 hi
    have hproduction : p ∈ productions := (List.mem_filter.1 hp).1
    exact .start hproduction rfl
  | behind _ hs ih =>
    intro i hi
    obtain ⟨j, hij, hj | ⟨hproduction, hrest⟩⟩ := hs i hi
    · exact (ih j hj).advance hij
    · exact (Item.Fits.start hproduction hrest).advance hij

/-! ## reductions -/

theorem State.mem_of_mem_tightest {is : List Item} (h : i ∈ tightest is) : i ∈ is := by
  induction is with
  | nil => exact h
  | cons k is ih =>
    rw [tightest] at h
    split at h
    · exact List.mem_cons.2 (.inl (List.mem_singleton.1 h))
    · next heq =>
      rw [heq] at ih
      split at h
      · exact List.mem_cons_of_mem k (ih h)
      · split at h
        · exact List.mem_cons.2 (.inl (List.mem_singleton.1 h))
        · exact (List.mem_cons.1 h).elim (fun h => List.mem_cons.2 (.inl h))
            fun h => List.mem_cons_of_mem k (ih h)

theorem State.exists_complete {code : Nat} (h : s.action rubyTable code = .reduce p) :
    ∃ i ∈ s.kernel, i.rest = [] ∧ i.production = p := by
  have hcomplete : ∀ {i is}, tightest (s.completed code) = i :: is → i ∈ s.kernel ∧ i.rest = [] := by
    intro i is heq
    obtain ⟨hi, hdone⟩ := List.mem_filter.1 (mem_of_mem_tightest (heq ▸ List.mem_cons_self))
    exact ⟨hi, List.isEmpty_iff.1 (Bool.and_eq_true_iff.1 hdone).1⟩
  unfold action at h
  split at h
  · cases h
  dsimp only at h
  cases hcompleted : tightest (s.completed code) with
  | nil =>
    rw [hcompleted] at h
    cases h
  | cons i is =>
    obtain ⟨hi, hrest⟩ := hcomplete hcompleted
    have hproduction : i.production = p := by
      rw [hcompleted] at h
      cases hahead : s.continued rubyTable code with
      | nil =>
        rw [hahead] at h
        exact Action.reduce.inj h
      | cons j js =>
        rw [hahead] at h
        dsimp only at h
        split at h
        · cases h
        · exact Action.reduce.inj h
    exact ⟨i, hi, hrest, hproduction⟩

/-- **What is to be reduced is a production whose symbols have just been read.** -/
theorem State.Reached.reduced {code : Nat} (h : State.Reached Xs s)
    (hp : s.action rubyTable code = .reduce p) :
    p ∈ productions ∧ p.steps.reverse.map Step.symbol <+: Xs := by
  obtain ⟨i, hi, hrest, rfl⟩ := State.exists_complete hp
  have hfits := h.fits i hi
  obtain ⟨done, hsteps, hdone⟩ := hfits.done
  rw [hrest, List.append_nil] at hsteps
  rw [hsteps, List.reverse_reverse]
  exact ⟨hfits.isProduction, hdone⟩

end

end RubyLint.Ruby
