import RubyLint.Proofs.Layout.Constructs
import RubyLint.Proofs.Layout.Shape

/-!
# Which words are local variables

The reading of a text binds names, opens and closes scopes, and uses words.  A word is a local variable if
its name has been bound before, in a scope that is still open and that no method, class or module opened
since then shuts off.

* `Layout.events`        what the reading of a node does, in its order;
* `Visible`              the name is a local variable after the events;
* `isLocal_scopesAfter`  the scopes that the events leave say so;
* `run_within_reads`     a layout asks the scopes at each use of a word, and for nothing else makes a local
                         variable;
* `rootTerm_scoping`     in the tree of a text the words that are visible are local variables, and no
                         others.
-/

namespace RubyLint.Ruby

/-- What reading does to the scopes, or asks of them. -/
inductive Event where
  | binds (name : String)
  | opens (isClosed : Bool)
  | closes
  | uses (word : Concrete)

open Event

/-! ## scopes after events -/

/-- The scopes that the events leave. -/
def scopesAfter : List Event → List Scope → List Scope
  | [], s => s
  | binds name :: es, s => scopesAfter es (bindName name s)
  | opens isClosed :: es, s => scopesAfter es (Scope.fresh isClosed :: s)
  | closes :: es, s => scopesAfter es s.tail
  | uses _ :: es, s => scopesAfter es s

/-- How many of the scopes that are open before the events are closed by them. -/
def closedBy : List Event → Nat
  | [] => 0
  | binds _ :: es => closedBy es
  | opens _ :: es => closedBy es - 1
  | closes :: es => closedBy es + 1
  | uses _ :: es => closedBy es

/-- A method, class or module is open after the events that was not before. -/
def Walled (es : List Event) : Prop :=
  ∃ before after, es = before ++ opens true :: after ∧ closedBy after = 0

/-- The name has been bound in a scope that is still open, and that is seen from where the events end. -/
def Visible (name : String) (es : List Event) : Prop :=
  ∃ before after, es = before ++ binds name :: after ∧ closedBy after = 0 ∧ ¬ Walled after

section
variable {name : String} {es es' : List Event} {s : List Scope}

theorem scopesAfter_append : scopesAfter (es ++ es') s = scopesAfter es' (scopesAfter es s) := by
  induction es generalizing s with
  | nil => rfl
  | cons e es ih => cases e <;> exact ih

theorem closedBy_le_append : closedBy es ≤ closedBy (es ++ es') := by
  induction es with
  | nil => exact Nat.zero_le _
  | cons e es ih =>
    cases e with
    | binds name => exact ih
    | opens isClosed => exact Nat.sub_le_sub_right ih 1
    | closes => exact Nat.succ_le_succ ih
    | uses word => exact ih

theorem not_walled_nil : ¬ Walled [] := by
  rintro ⟨before, after, h, -⟩
  simp at h

theorem not_visible_nil : ¬ Visible name [] := by
  rintro ⟨before, after, h, -⟩
  simp at h

theorem walled_cons {e : Event} :
    Walled (e :: es) ↔ e = opens true ∧ closedBy es = 0 ∨ Walled es := by
  constructor
  · rintro ⟨before, after, h, hafter⟩
    rcases List.cons_eq_append_iff.1 h with ⟨rfl, h⟩ | ⟨before, rfl, rfl⟩
    · cases h
      exact .inl ⟨rfl, hafter⟩
    · exact .inr ⟨before, after, rfl, hafter⟩
  · rintro (⟨rfl, h⟩ | ⟨before, after, rfl, hafter⟩)
    · exact ⟨[], es, rfl, h⟩
    · exact ⟨e :: before, after, rfl, hafter⟩

theorem visible_cons {e : Event} : Visible name (e :: es) ↔
    e = binds name ∧ closedBy es = 0 ∧ ¬ Walled es ∨ Visible name es := by
  constructor
  · rintro ⟨before, after, h, hafter⟩
    rcases List.cons_eq_append_iff.1 h with ⟨rfl, h⟩ | ⟨before, rfl, rfl⟩
    · cases h
      exact .inl ⟨rfl, hafter⟩
    · exact .inr ⟨before, after, rfl, hafter⟩
  · rintro (⟨rfl, h⟩ | ⟨before, after, rfl, hafter⟩)
    · exact ⟨[], es, rfl, h⟩
    · exact ⟨e :: before, after, rfl, hafter⟩

theorem isLocal_bindName {name' : String} (hs : s ≠ []) :
    isLocal name (bindName name' s) = true ↔ name' = name ∨ isLocal name s = true := by
  cases s with
  | nil => exact absurd rfl hs
  | cons scope outer => simp [bindName, isLocal, or_assoc, @eq_comm _ name']

theorem length_bindName {name' : String} : (bindName name' s).length = s.length := by
  cases s <;> rfl

theorem drop_bindName {name' : String} {k : Nat} : (bindName name' s).drop (k + 1) = s.drop (k + 1) := by
  cases s <;> rfl

theorem isLocal_fresh {isClosed : Bool} :
    isLocal name (Scope.fresh isClosed :: s) = true ↔ isClosed = false ∧ isLocal name s = true := by
  simp [isLocal, Scope.fresh]

/-- A name is a local variable after the events if they make it visible, or if it has been one in the scopes
that they leave open and they do not shut these off. -/
theorem isLocal_scopesAfter (h : closedBy es < s.length) : isLocal name (scopesAfter es s) = true ↔
    Visible name es ∨ ¬ Walled es ∧ isLocal name (s.drop (closedBy es)) = true := by
  induction es generalizing s with
  | nil => simp [scopesAfter, closedBy, not_walled_nil, not_visible_nil]
  | cons e es ih =>
    rw [visible_cons, walled_cons]
    cases e with
    | uses word =>
      rw [scopesAfter, ih h]
      simp [closedBy]
    | closes =>
      rw [scopesAfter, ih (by rw [List.length_tail]; exact Nat.lt_sub_of_add_lt h)]
      simp [closedBy]
    | binds name' =>
      change closedBy es < s.length at h
      rw [scopesAfter, ih (by rwa [length_bindName])]
      cases hes : closedBy es with
      | zero =>
        have hs : s ≠ [] := List.ne_nil_of_length_pos (Nat.lt_of_le_of_lt (Nat.zero_le _) h)
        rw [List.drop_zero, isLocal_bindName hs]
        by_cases hname : name' = name <;> by_cases hw : Walled es <;>
          simp [closedBy, hes, hname, hw]
      | succ k =>
        rw [drop_bindName]
        simp [closedBy, hes]
    | opens isClosed =>
      change closedBy es - 1 < s.length at h
      rw [scopesAfter, ih (by rw [List.length_cons]; omega)]
      cases hes : closedBy es with
      | zero =>
        rw [List.drop_zero, isLocal_fresh]
        cases isClosed <;> simp [closedBy, hes]
      | succ k => simp [closedBy, hes]

end

namespace Layout

/-! ## the events of a node -/

/-- What the reading of a node does, in its order. -/
def events (source : List Char) (c : Concrete) : List Event :=
  if c.construct = .identifier then [uses c]
  else (moves source c).attach.flatMap fun
    | ⟨.bind name, _⟩ => [binds name]
    | ⟨.enter isClosed, _⟩ => [opens isClosed]
    | ⟨.leave, _⟩ => [closes]
    | ⟨.visit d, _h⟩ => events source d
    | ⟨.refuse _, _⟩ => []
termination_by sizeOf c
decreasing_by exact sizeOf_lt_of_visit _h

def moveEvents (source : List Char) : Move → List Event
  | .bind name => [binds name]
  | .enter isClosed => [opens isClosed]
  | .leave => [closes]
  | .visit d => events source d
  | .refuse _ => []

variable {source : List Char} {c d : Concrete} {s s' : List Scope}

theorem events_of_word (hc : c.construct = .identifier) : events source c = [uses c] := by
  rw [events.eq_def, if_pos hc]

theorem events_of_moves (hc : c.construct ≠ .identifier) :
    events source c = (moves source c).flatMap (moveEvents source) := by
  have hattach : (moves source c).flatMap (moveEvents source) =
      (moves source c).attach.flatMap fun m => moveEvents source m.1 := by
    rw [← List.flatMap_map Subtype.val (moveEvents source), List.attach_map_subtype_val]
  rw [events.eq_def, if_neg hc, hattach]
  refine congrArg (fun f => List.flatMap f _) (funext fun ⟨m, h⟩ => ?_)
  cases m <;> rfl

/-- The events close the scopes that they open, and no others. -/
def Balanced (es : List Event) : Prop := ∀ after, closedBy (es ++ after) = closedBy after

theorem Shaped.balanced {size : Nat} {P : Bool → Prop} {ms : List Move} (h : Shaped size P ms)
    (hbelow : ∀ d, sizeOf d < size → Balanced (events source d)) :
    Balanced (ms.flatMap (moveEvents source)) := by
  induction h with
  | nil => exact fun after => rfl
  | bind name _ ih => exact ih
  | visit hd _ ih =>
    intro after
    rw [List.flatMap_cons, List.append_assoc, moveEvents, hbelow _ hd, ih]
  | @scope isClosed inner ms _ _ _ ihinner ih =>
    intro after
    rw [List.flatMap_cons, List.flatMap_append, List.flatMap_cons]
    show closedBy (inner.flatMap (moveEvents source) ++
      closes :: ms.flatMap (moveEvents source) ++ after) - 1 = closedBy after
    rw [List.append_assoc, ihinner, List.cons_append, closedBy, ih, Nat.add_sub_cancel]

theorem balanced_events (source : List Char) (c : Concrete) : Balanced (events source c) := by
  by_cases hc : c.construct = .identifier
  · rw [events_of_word hc]
    exact fun after => rfl
  · rw [events_of_moves hc]
    rcases shaped_or_refused source c with h | ⟨-, h⟩
    · exact h.balanced fun d _hd => balanced_events source d
    · rw [h]
      exact fun after => rfl
termination_by sizeOf c
decreasing_by exact _hd

/-! ## the uses of words -/

/-- After the events `before`, the word is used. -/
def Uses (es before : List Event) (word : Concrete) : Prop := ∃ after, es = before ++ uses word :: after

/-- Every case that is read has at most one part that is left over. -/
def AllKept (source : List Char) (c : Concrete) : Prop := ∀ d, Reached source c d → KeepsAll d

def IsLocalVar (t : Term) : Prop := ∃ span loc children, t = .node .localVar span loc children

/-- In the terms stands what the scopes say of each word that is used, and no other local variable. -/
structure Reads (source : List Char) (es : List Event) (s s' : List Scope) (keeps : Prop)
    (ts : List Term) : Prop where
  leaves : s' = scopesAfter es s
  answered : keeps → ∀ before d, Uses es before d → ∃ t ∈ ts,
    (wordTerm source d (isLocal (wordName source d) (scopesAfter before s))).Within t
  only : ∀ t ∈ ts, ∀ x, IsLocalVar x → x.Within t → ∃ before d, Uses es before d ∧
    isLocal (wordName source d) (scopesAfter before s) = true ∧ x = wordTerm source d true

theorem uses_append {es es' before : List Event} : Uses (es ++ es') before d ↔
    Uses es before d ∨ ∃ rest, before = es ++ rest ∧ Uses es' rest d := by
  constructor
  · rintro ⟨after, h⟩
    rcases List.append_eq_append_iff.1 h with ⟨rest, rfl, rfl⟩ | ⟨rest, rfl, hrest⟩
    · exact .inr ⟨rest, rfl, after, rfl⟩
    · cases rest with
      | nil => exact .inr ⟨[], by simp, after, hrest.symm⟩
      | cons e rest =>
        cases hrest
        exact .inl ⟨rest, rfl⟩
  · rintro (⟨after, rfl⟩ | ⟨rest, rfl, after, rfl⟩)
    · exact ⟨after ++ es', by simp⟩
    · exact ⟨after, by simp⟩

theorem Made.within {vs : List Visited} {k : Nat} {t x : Term} (h : Made vs k t) (hx : IsLocalVar x)
    (hw : x.Within t) : ∃ v ∈ vs, x.Within v.2 := by
  obtain ⟨span, loc, children, rfl⟩ := hx
  induction h with
  | value v => cases hw
  | part h hd => exact ⟨_, h, hw⟩
  | node hkind _ ih =>
    cases hw with
    | self => exact absurd rfl hkind
    | child ht hw => exact ih _ ht hw

namespace Reads

variable {es es' : List Event} {s'' : List Scope} {keeps keeps' : Prop} {ts ts' : List Term}

theorem append (h : Reads source es s s'' keeps ts) (h' : Reads source es' s'' s' keeps ts') :
    Reads source (es ++ es') s s' keeps (ts ++ ts') where
  leaves := by rw [scopesAfter_append, ← h.leaves, h'.leaves]
  answered hk before d hd := by
    rcases uses_append.1 hd with hfirst | ⟨rest, rfl, hsecond⟩
    · obtain ⟨t, ht, hw⟩ := h.answered hk before d hfirst
      exact ⟨t, List.mem_append_left _ ht, hw⟩
    · obtain ⟨t, ht, hw⟩ := h'.answered hk rest d hsecond
      rw [h.leaves, ← scopesAfter_append] at hw
      exact ⟨t, List.mem_append_right _ ht, hw⟩
  only t ht x hx hw := by
    rcases List.mem_append.1 ht with ht | ht
    · obtain ⟨before, d, hd, hlocal, heq⟩ := h.only t ht x hx hw
      exact ⟨before, d, uses_append.2 (.inl hd), hlocal, heq⟩
    · obtain ⟨before, d, hd, hlocal, heq⟩ := h'.only t ht x hx hw
      rw [h.leaves, ← scopesAfter_append] at hlocal
      exact ⟨es ++ before, d, uses_append.2 (.inr ⟨before, rfl, hd⟩), hlocal, heq⟩

theorem imp (h : Reads source es s s' keeps ts) (hk : keeps' → keeps) :
    Reads source es s s' keeps' ts := ⟨h.leaves, fun hk' => h.answered (hk hk'), h.only⟩

theorem silent {e : Event} (he : ∀ d, e ≠ uses d) :
    Reads source [e] s (scopesAfter [e] s) keeps [] where
  leaves := rfl
  answered _ before d hd := by
    obtain ⟨after, h⟩ := hd
    rcases List.cons_eq_append_iff.1 h with ⟨rfl, h⟩ | ⟨rest, rfl, h⟩
    · cases h
      exact absurd rfl (he d)
    · simp at h
  only _ ht := absurd ht List.not_mem_nil

theorem nil : Reads source [] s s keeps [] where
  leaves := rfl
  answered _ before d hd := by
    obtain ⟨after, h⟩ := hd
    simp at h
  only _ ht := absurd ht List.not_mem_nil

theorem word : Reads source [uses d] s s keeps
    [wordTerm source d (isLocal (wordName source d) s)] where
  leaves := rfl
  answered _ before e he := by
    obtain ⟨after, h⟩ := he
    rcases List.cons_eq_append_iff.1 h with ⟨rfl, h⟩ | ⟨rest, rfl, h⟩
    · cases h
      exact ⟨_, List.mem_cons_self, .self⟩
    · simp at h
  only t ht x hx hw := by
    obtain rfl := List.mem_singleton.1 ht
    refine ⟨[], d, ⟨[], rfl⟩, ?_⟩
    obtain ⟨span, loc, children, rfl⟩ := hx
    cases hlocal : isLocal (wordName source d) s with
    | true =>
      rw [hlocal] at hw
      refine ⟨hlocal, ?_⟩
      cases hw with
      | self => rfl
      | child ht hw =>
        obtain rfl := List.mem_singleton.1 ht
        cases hw
    | false =>
      rw [hlocal] at hw
      cases hw with
      | child ht hw =>
        rcases List.mem_cons.1 ht with rfl | ht
        · cases hw
        · obtain rfl := List.mem_singleton.1 ht
          cases hw

theorem around {vs : List Visited} {k : Nat} {t : Term}
    (h : Reads source es s s' keeps (vs.map Prod.snd)) (hmade : Made vs k t)
    (hkept : keeps → ∀ v ∈ vs, v.2.Within t) : Reads source es s s' keeps [t] where
  leaves := h.leaves
  answered hk before d hd := by
    obtain ⟨t', ht', hw⟩ := h.answered hk before d hd
    obtain ⟨v, hv, rfl⟩ := List.mem_map.1 ht'
    exact ⟨t, List.mem_cons_self, hw.trans (hkept hk v hv)⟩
  only t' ht' x hx hw := by
    obtain rfl := List.mem_singleton.1 ht'
    obtain ⟨v, hv, hw⟩ := hmade.within hx hw
    exact h.only v.2 (List.mem_map_of_mem hv) x hx hw

end Reads

theorem reads_of_perform {l : Layout} {ms : List Move} {vs : List Visited}
    (hbelow : ∀ d s t s', .visit d ∈ ms → (l.below d).run s = .ok (t, s') →
      Reads source (events source d) s s' (AllKept source d) [t])
    (h : (l.perform ms).run s = .ok (vs, s')) :
    Reads source (ms.flatMap (moveEvents source)) s s' (∀ d, .visit d ∈ ms → AllKept source d)
      (vs.map Prod.snd) := by
  induction ms generalizing s vs with
  | nil =>
    cases h
    exact .nil
  | cons m ms ih =>
    have hrest : ∀ {s vs}, (l.perform ms).run s = .ok (vs, s') →
        Reads source (ms.flatMap (moveEvents source)) s s'
          (∀ d, .visit d ∈ m :: ms → AllKept source d) (vs.map Prod.snd) := fun h =>
      (ih (fun d s t s' hd => hbelow d s t s' (List.mem_cons_of_mem m hd)) h).imp
        fun hk d hd => hk d (List.mem_cons_of_mem m hd)
    cases m with
    | bind name => exact Reads.silent (e := binds name) (fun d he => nomatch he) |>.append (hrest h)
    | enter isClosed =>
      exact Reads.silent (e := opens isClosed) (fun d he => nomatch he) |>.append (hrest h)
    | leave => exact Reads.silent (e := closes) (fun d he => nomatch he) |>.append (hrest h)
    | refuse offset => cases h
    | visit d =>
      rw [perform, run_bind_eq_ok] at h
      obtain ⟨t, s'', ht, h⟩ := h
      obtain ⟨ws, _, hws, h⟩ := run_bind_eq_ok.1 h
      cases h
      have hd := hbelow d s t s'' List.mem_cons_self ht
      exact (hd.imp fun hk => hk d List.mem_cons_self).append (hrest hws)

/-- **What a layout reads.**  It leaves the scopes that the events of the node leave, and makes a local
variable of a word exactly where these say so. -/
theorem run_within_reads {n : Nat} {t : Term} (h : (within source n c).run s = .ok (t, s')) :
    Reads source (events source c) s s' (AllKept source c) [t] := by
  induction n generalizing c s s' t with
  | zero => cases h
  | succ n ih =>
    by_cases hc : c.construct = .identifier
    · rw [run_within_word hc] at h
      cases h
      rw [events_of_word hc]
      exact .word
    · have hlays := node_lays ⟨source, within source n⟩ c hc
      cases hms : (perform ⟨source, within source n⟩ (moves source c)).run s with
      | error e => exact nomatch (hlays.fails s e hms).symm.trans h
      | ok r =>
        obtain ⟨vs, s''⟩ := r
        obtain ⟨t', ht', hmade, hmakes⟩ := hlays.works s vs s'' hms
        cases ht'.symm.trans h
        have hreads := reads_of_perform (fun d s t s' _ hd => ih hd) hms
        rw [events_of_moves hc]
        have hparts : Reads source ((moves source c).flatMap (moveEvents source)) s s'
            (AllKept source c) (vs.map Prod.snd) :=
          hreads.imp fun hk d hd e he => hk e ((Reached.self.visit hd).trans he)
        refine hparts.around hmade fun hk v hv => ?_
        obtain ⟨t', ht', hw⟩ := (hmakes (hk c .self)).kept v hv
        obtain rfl := List.mem_singleton.1 ht'
        exact hw

end Layout

open Layout

/-! ## texts -/

/-- What the reading of a text does. -/
def forestEvents (source : List Char) (forest : List Concrete) : List Event :=
  forest.flatMap (events source)

theorem balanced_forestEvents (source : List Char) (forest : List Concrete) :
    Balanced (forestEvents source forest) := by
  induction forest with
  | nil => exact fun after => rfl
  | cons c forest ih =>
    intro after
    show closedBy (events source c ++ forestEvents source forest ++ after) = _
    rw [List.append_assoc, balanced_events, ih]

/-- in the scope that is around a text, a name is a local variable if it is visible -/
theorem isLocal_iff_visible {source : List Char} {forest : List Concrete} {before : List Event}
    {d : Concrete} {name : String} (h : Uses (forestEvents source forest) before d) :
    isLocal name (scopesAfter before [Scope.fresh true]) = true ↔ Visible name before := by
  obtain ⟨after, h⟩ := h
  have hclosed : closedBy before = 0 := by
    have hle : closedBy before ≤ closedBy (before ++ uses d :: after) := closedBy_le_append
    have hall := balanced_forestEvents source forest []
    rw [List.append_nil] at hall
    rw [← h, hall] at hle
    exact Nat.le_zero.1 hle
  rw [isLocal_scopesAfter (by rw [hclosed]; exact Nat.zero_lt_one), hclosed]
  simp [isLocal, Scope.fresh]

/-- The tree of a text is laid out in one scope, and its words are read in that. -/
theorem reads_of_rootTerm {source : List Char} {forest : List Concrete} {t : Term}
    (h : rootTerm source forest = .ok t) : ∃ s', Reads source (forestEvents source forest)
      [Scope.fresh true] s' (∀ c ∈ forest, AllKept source c) [t] := by
  obtain ⟨k, hk⟩ := Concrete.exists_unpacking_le forest
  have hlays := statements_lays (ofSource source) hk
  rw [rootTerm_eq] at h
  cases hms : ((ofSource source).perform (visits forest)).run [Scope.fresh true] with
  | error e =>
    rw [hlays.fails _ e hms] at h
    cases h
  | ok r =>
    obtain ⟨vs, s'⟩ := r
    obtain ⟨root, hroot, hmakes⟩ := hlays.works _ vs s' hms
    rw [hroot] at h
    have hreads := reads_of_perform (fun d s t s' _ hd => run_within_reads hd) hms
    have hevents : (visits forest).flatMap (moveEvents source) = forestEvents source forest :=
      List.flatMap_map ..
    rw [hevents] at hreads
    have hreads : Reads source (forestEvents source forest) [Scope.fresh true] s'
        (∀ c ∈ forest, AllKept source c) (vs.map Prod.snd) := hreads.imp fun hkept d hd => by
      obtain ⟨d', hd', heq⟩ := List.mem_map.1 hd
      cases heq
      exact hkept d hd'
    refine ⟨s', ?_⟩
    cases root with
    | some root =>
      cases h
      refine hreads.around (hmakes.made root List.mem_cons_self) fun _ v hv => ?_
      obtain ⟨t', ht', hw⟩ := hmakes.kept v hv
      obtain rfl := List.mem_singleton.1 ht'
      exact hw
    | none =>
      cases h
      refine hreads.around (k := 1) (.node (by decide) fun t ht => absurd ht List.not_mem_nil)
        fun _ v hv => ?_
      obtain ⟨t', ht', -⟩ := hmakes.kept v hv
      exact absurd ht' List.not_mem_nil

/-- no case with several parts that are left over is read, if there is none among nodes with all the parts
that are visited from them -/
theorem allKept_of_closed {source : List Char} {cs : List Concrete}
    (h : ∀ c ∈ cs, KeepsAll c ∧ ∀ d, .visit d ∈ moves source c → d ∈ cs) :
    ∀ c ∈ cs, AllKept source c := by
  intro c hc d hd
  have hmem : d ∈ cs := by
    induction hd with
    | self => exact hc
    | visit _ he ih => exact (h _ ih).2 _ he
  exact (h d hmem).1

/-- **Which words of a text are local variables.**  A word is one if its name is visible where the word is
used, and else a call on the current object; nothing else is a local variable.  Only the blocks of calls,
methods, classes and modules open scopes, and all but blocks shut the names around them off. -/
theorem rootTerm_scoping {source : List Char} {forest : List Concrete} {t : Term}
    (h : rootTerm source forest = .ok t) (hkept : ∀ c ∈ forest, AllKept source c) :
    (∀ before d, Uses (forestEvents source forest) before d →
      (Visible (wordName source d) before → (wordTerm source d true).Within t) ∧
      (¬ Visible (wordName source d) before → (wordTerm source d false).Within t)) ∧
    (∀ x, IsLocalVar x → x.Within t → ∃ before d, Uses (forestEvents source forest) before d ∧
      Visible (wordName source d) before ∧ x = wordTerm source d true) ∧
    ∀ c ∈ forest, ∀ d, Reached source c d → ∀ isClosed, .enter isClosed ∈ moves source d →
      Opens d isClosed := by
  obtain ⟨s', hreads⟩ := reads_of_rootTerm h
  refine ⟨fun before d hd => ?_, fun x hx hw => ?_, fun _ _ _ _ _ => opens_of_enter⟩
  · obtain ⟨t', ht', hw⟩ := hreads.answered hkept before d hd
    obtain rfl := List.mem_singleton.1 ht'
    constructor
    · intro hvisible
      rwa [(isLocal_iff_visible hd).2 hvisible] at hw
    · intro hvisible
      rwa [Bool.eq_false_iff.2 (mt (isLocal_iff_visible hd).1 hvisible)] at hw
  · obtain ⟨before, d, hd, hlocal, heq⟩ := hreads.only t List.mem_cons_self x hx hw
    exact ⟨before, d, hd, (isLocal_iff_visible hd).1 hlocal, heq⟩

def wordAt (role : Role) (start : Nat) : Concrete := .node role .identifier ⟨start, start + 1⟩ []

def methodText : List Char := "def f(x) x end\nx".toList

def methodNode : Concrete := .node .plain .methodDefinition ⟨0, 14⟩
  [wordAt .name 4, .node .parameters .methodParameters ⟨5, 8⟩ [wordAt .plain 6],
   .node .body .bodyStatement ⟨9, 10⟩ [wordAt .plain 9]]

def methodForest : List Concrete := [methodNode, wordAt .plain 15]

/-- the parameter is a local variable in the method, and not behind it -/
theorem methodForest_scoping : ∃ t, rootTerm methodText methodForest = .ok t ∧
    (∀ c ∈ methodForest, AllKept methodText c) ∧
    (wordTerm methodText (wordAt .plain 9) true).Within t ∧
    (wordTerm methodText (wordAt .plain 15) false).Within t := by
  obtain ⟨t, h⟩ : ∃ t, rootTerm methodText methodForest = .ok t := ⟨_, by with_unfolding_all rfl⟩
  have hmoves : moves methodText methodNode =
      [.enter true, .bind "x", .visit (wordAt .plain 9), .leave] := by with_unfolding_all rfl
  have hword : ∀ start, moves methodText (wordAt .plain start) = [] := fun _ => rfl
  have hclosed : ∀ c ∈ wordAt .plain 9 :: methodForest, KeepsAll c ∧
      ∀ d, .visit d ∈ moves methodText c → d ∈ wordAt .plain 9 :: methodForest := by
    refine List.forall_mem_cons.2 ⟨⟨nofun, by simp [hword]⟩, List.forall_mem_cons.2
      ⟨⟨nofun, fun d hd => ?_⟩, List.forall_mem_singleton.2 ⟨nofun, by simp [hword]⟩⟩⟩
    rw [hmoves] at hd
    have hd : d = wordAt .plain 9 := by simpa using hd
    exact hd ▸ List.mem_cons_self
  have hkept : ∀ c ∈ methodForest, AllKept methodText c := fun c hc =>
    allKept_of_closed hclosed c (List.mem_cons_of_mem _ hc)
  have hevents : forestEvents methodText methodForest =
      [opens true, binds "x", uses (wordAt .plain 9), closes, uses (wordAt .plain 15)] := by
    with_unfolding_all rfl
  have hscoping := (rootTerm_scoping h hkept).1
  rw [hevents] at hscoping
  have hx : ∀ start ∈ [9, 15], wordName methodText (wordAt .plain start) = "x" := by
    with_unfolding_all decide
  refine ⟨t, h, hkept, (hscoping [opens true, binds "x"] _ ⟨_, rfl⟩).1 ?_,
    (hscoping [opens true, binds "x", uses (wordAt .plain 9), closes] _ ⟨_, rfl⟩).2 ?_⟩
  · rw [hx 9 (by decide)]
    exact ⟨[opens true], [], rfl, rfl, not_walled_nil⟩
  · rw [hx 15 (by decide)]
    simp [visible_cons, not_visible_nil, closedBy]

/-- a lambda with a parameter, and a word of the same name behind the lambda -/
def lambdaText : List Char := "->(x) { x }\nx".toList

def lambdaForest : List Concrete :=
  [.node .plain (.other "lambda") ⟨0, 11⟩
    [.node .parameters .lambdaParameters ⟨2, 5⟩ [wordAt .plain 3],
     .node .body (.other "block") ⟨6, 11⟩ [.node .body .blockBody ⟨8, 9⟩ [wordAt .plain 8]]],
   wordAt .plain 12]

/-- a lambda has no scope of its own: behind it, its parameter is still a local variable -/
theorem rootTerm_lambda : rootTerm lambdaText lambdaForest = .ok (plainTerm .sequence ⟨0, 13⟩
    [plainTerm (.other "lambda") ⟨0, 11⟩
      [plainTerm .args ⟨2, 5⟩ [plainTerm .arg ⟨3, 4⟩ [symTerm ['x']]],
       plainTerm (.other "block") ⟨6, 11⟩
        [plainTerm (.other "block_body") ⟨8, 9⟩ [wordTerm lambdaText (wordAt .plain 8) true]]],
     wordTerm lambdaText (wordAt .plain 12) true]) := by
  with_unfolding_all rfl

end RubyLint.Ruby
