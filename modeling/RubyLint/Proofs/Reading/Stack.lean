import RubyLint.Proofs.Reading.Parts
import RubyLint.Proofs.Reading.Validity

/-!
# The stack of a reading

Each frame of the stack holds a part that has been read for a symbol, behind the parts below it, and in the
state to which the symbol leads.  The literals with delimiters that are open go along with the frames.

* `Stacked`          what holds of a stack, with the symbols and the open delimiters;
* `Stacked.popped`   the frames of a production, taken off the stack;
* `Stacked.reduce`   they become one part, which has been read for the phrase.
-/

namespace RubyLint.Ruby

open RubyLint.Ruby.Part (leftAll)

/-! ## delimiters -/

/-- What a symbol does to the literals that are open, which are known by what closes them, the innermost
first. -/
inductive Delimits (source : List Char) : Symbol → Span → List Char → List Char → Prop
  | neutral {X : Symbol} {span : Span} {closers : List Char} (h : X.IsNeutral) :
      Delimits source X span closers closers
  | opening {t : Scanned} {span : Span} {closer : Char} {closers : List Char} (h : t.isOpening = true)
      (hregex : t = .regexStart → closer.utf8Size = 1 ∧ isLower closer = false ∧
        ∃ opener, Concrete.opensRegex opener closer ∧ Covers source span opener) :
      Delimits source (.ofScanned t) span closers (closer :: closers)
  | closing {span : Span} {closer : Char} {flags closers : List Char} (hflags : ∀ c ∈ flags, isLower c = true)
      (h : Covers source span (closer :: flags)) :
      Delimits source .closing span (closer :: closers) closers

/-- What some parts do to the literals that are open. -/
def DelimitsAll (source : List Char) : List (Step × Part) → List Char → List Char → Prop
  | [], a, c => a = c
  | e :: es, a, c => ∃ b, Delimits source e.1.symbol e.2.span a b ∧ DelimitsAll source es b c

section
variable {source : List Char} {X : Symbol} {span : Span} {a b c : List Char} {es es' : List (Step × Part)}
  {e : Step × Part}

theorem mem_openings {t : Scanned} (h : t.isOpening = true) : .ofScanned t ∈ Symbol.openings := by
  refine List.mem_map_of_mem (List.mem_filter.2 ⟨?_, h⟩)
  cases t <;> revert h <;> decide

theorem isNeutral_nonterminal (n : Nat) : (Symbol.nonterminal n).IsNeutral := by
  intro h
  rcases List.mem_cons.1 h with h | h
  · exact Symbol.noConfusion h
  · obtain ⟨t, -, ht⟩ := List.mem_map.1 h
    exact Symbol.noConfusion ht

theorem Delimits.eq_of_neutral (h : Delimits source X span a b) (hX : X.IsNeutral) : a = b := by
  cases h with
  | neutral => rfl
  | opening h => exact absurd (List.mem_cons_of_mem _ (mem_openings h)) hX
  | closing => exact absurd List.mem_cons_self hX

theorem DelimitsAll.append :
    DelimitsAll source (es ++ es') a c ↔ ∃ b, DelimitsAll source es a b ∧ DelimitsAll source es' b c := by
  induction es generalizing a with
  | nil => exact ⟨fun h => ⟨a, rfl, h⟩, fun ⟨b, hab, h⟩ => hab ▸ h⟩
  | cons e es ih =>
    constructor
    · rintro ⟨b, hb, h⟩
      obtain ⟨d, hd, h⟩ := ih.1 h
      exact ⟨d, ⟨b, hb, hd⟩, h⟩
    · rintro ⟨d, ⟨b, hb, hd⟩, h⟩
      exact ⟨b, hb, ih.2 ⟨d, hd, h⟩⟩

theorem DelimitsAll.eq_of_neutral (h : DelimitsAll source es a b) (hes : ∀ e ∈ es, e.1.symbol.IsNeutral) :
    a = b := by
  induction es generalizing a with
  | nil => exact h
  | cons e es ih =>
    obtain ⟨d, hd, h⟩ := h
    obtain ⟨he, hes⟩ := List.forall_mem_cons.1 hes
    exact (hd.eq_of_neutral he).trans (ih h hes)

theorem Delimits.of_opening (h : Delimits source X span a b) (hX : X ∈ Symbol.openings) :
    ∃ t closer, X = .ofScanned t ∧ b = closer :: a ∧ (t = .regexStart → closer.utf8Size = 1 ∧
      isLower closer = false ∧ ∃ opener, Concrete.opensRegex opener closer ∧ Covers source span opener) := by
  cases h with
  | neutral h => exact absurd (List.mem_cons_of_mem _ hX) h
  | opening _ hregex => exact ⟨_, _, rfl, rfl, hregex⟩
  | closing => exact absurd hX (by decide)

theorem Delimits.of_closing (h : Delimits source .closing span a b) :
    ∃ closer flags, a = closer :: b ∧ (∀ c ∈ flags, isLower c = true) ∧
      Covers source span (closer :: flags) := by
  generalize hX : Symbol.closing = X at h
  cases h with
  | neutral h => exact absurd (hX ▸ List.mem_cons_self) h
  | opening h =>
    refine absurd (hX ▸ mem_openings h) ?_
    decide
  | closing hflags h => exact ⟨_, _, rfl, hflags, h⟩

theorem eq_regexStart {t : Scanned} (h : Symbol.ofScanned t = .ofScanned .regexStart) : t = .regexStart := by
  cases t <;> revert h <;> decide

end

/-! ## the stack -/

/-- Each frame holds what has been read for its symbol, behind the frames below it. -/
inductive Stacked (source : List Char) : List Symbol → List Char → List Frame → Prop
  | nil : Stacked source [] [] []
  | cons {Xs : List Symbol} {X : Symbol} {closers closers' : List Char} {below : List Frame} {f : Frame}
      (h : Stacked source Xs closers below) (hstate : (Reading.stateOf below).Follows f.state X)
      (hpart : f.part.Holds source X) (hbehind : ∀ g ∈ below, g.part.span.stop ≤ f.part.span.start)
      (hdelimits : Delimits source X f.part.span closers closers') :
      Stacked source (X :: Xs) closers' (f :: below)

/-- The steps and parts of some frames, which come last first. -/
def partsOf (ps : List (Step × Frame)) : List (Step × Part) := (ps.map fun e => (e.1, e.2.part)).reverse

section
variable {source : List Char} {Xs : List Symbol} {closers : List Char} {fs : List Frame}

theorem Stacked.reached (h : Stacked source Xs closers fs) : State.Reached Xs (Reading.stateOf fs) := by
  induction h with
  | nil => exact .first
  | cons _ hstate _ _ _ ih => exact ih.behind hstate

theorem map_partsOf {ps : List (Step × Frame)} : (partsOf ps).map Prod.fst = (ps.map Prod.fst).reverse := by
  rw [partsOf, List.map_reverse, List.map_map]
  rfl

theorem partsOf_cons {e : Step × Frame} {ps : List (Step × Frame)} :
    partsOf (e :: ps) = partsOf ps ++ [(e.1, e.2.part)] := List.reverse_cons

/-- **The frames of some steps, with what is below them.** -/
theorem Stacked.popped (h : Stacked source Xs closers fs) {done : List Step}
    (hdone : done.map Step.symbol <+: Xs) (hchecked : ∀ s ∈ done, s.Checked) :
    ∃ ps below Ys closers', ps.map Prod.fst = done ∧ fs = ps.map Prod.snd ++ below ∧
      Stacked source Ys closers' below ∧
      (∀ e ∈ ps, ∀ g ∈ below, g.part.span.stop ≤ e.2.part.span.start) ∧
      Part.Sequence source (partsOf ps) ∧ DelimitsAll source (partsOf ps) closers' closers := by
  induction done generalizing Xs closers fs with
  | nil =>
    exact ⟨[], fs, Xs, closers, rfl, rfl, h, List.forall_mem_nil _,
      ⟨List.forall_mem_nil _, List.forall_mem_nil _, List.Pairwise.nil⟩, rfl⟩
  | cons s done ih =>
    cases h with
    | nil => cases List.prefix_nil.1 hdone
    | cons h hstate hpart hbehind hdelimits =>
      rename_i f
      obtain ⟨rfl, hrest⟩ := List.cons_prefix_cons.1 hdone
      obtain ⟨hs, hchecked⟩ := List.forall_mem_cons.1 hchecked
      obtain ⟨ps, below, Ys, closers', hps, hfs, hbelow, hbefore, hsequence, hall⟩ := ih h hrest hchecked
      subst hfs
      refine ⟨(s, f) :: ps, below, Ys, closers', congrArg (s :: ·) hps, rfl, hbelow, ?_, ?_, ?_⟩
      · exact List.forall_mem_cons.2 ⟨fun g hg => hbehind g (List.mem_append_right _ hg), hbefore⟩
      · rw [partsOf_cons]
        have hlast : ∀ e ∈ partsOf ps, e.2.span.stop ≤ f.part.span.start := by
          intro e he
          obtain ⟨e', he', rfl⟩ := List.mem_map.1 (List.mem_reverse.1 he)
          exact hbehind e'.2 (List.mem_append_left _ (List.mem_map_of_mem he'))
        refine ⟨fun e he => ?_, fun e he => ?_, ?_⟩
        · exact (List.mem_append.1 he).elim (hsequence.checked e) fun he => List.mem_singleton.1 he ▸ hs
        · exact (List.mem_append.1 he).elim (hsequence.holds e) fun he => List.mem_singleton.1 he ▸ hpart
        · rw [List.map_append]
          refine List.pairwise_append.2 ⟨hsequence.ordered, List.pairwise_singleton _ _, ?_⟩
          intro span hspan span' hspan'
          obtain ⟨e, he, rfl⟩ := List.mem_map.1 hspan
          obtain rfl := List.mem_singleton.1 hspan'
          exact hlast e he
      · rw [partsOf_cons]
        exact DelimitsAll.append.2 ⟨_, hall, _, hdelimits, rfl⟩

end

/-! ## reductions -/

/-- The frames of a production on the stack, and what is below them. -/
structure Gathered (source : List Char) (closers : List Char) (r : Reading) (p : Production)
    (es : List (Step × Part)) (below : List Frame) : Prop where
  steps : es.map Prod.fst = p.steps
  sequence : Part.Sequence source es
  delimited : .nonterminal p.goal = Symbol.regex → Part.Delimited source es
  stacked : ∃ Ys, Stacked source Ys closers below
  lower : ∀ g ∈ below, g ∈ r.stack ∧ ∀ e ∈ es, g.part.span.stop ≤ e.2.span.start
  parts : ∀ e ∈ es, ∃ f ∈ r.stack, f.part = e.2
  gathered : ∃ span nodes, (p.steps ≠ [] → Part.Spans es span) ∧
    r.gathered p = (⟨span, p.construct, (leftAll es).reverse⟩, { r with stack := below, nodes })

section
variable {source : List Char} {Xs : List Symbol} {closers a b : List Char} {es : List (Step × Part)}
  {p : Production} {r : Reading} {below : List Frame}

/-- **The literals that are opened in a production are closed in it.** -/
theorem DelimitsAll.balanced (h : DelimitsAll source es a b) (hs : Part.Sequence source es)
    (hp : p.Checked) (hsteps : es.map Prod.fst = p.steps) :
    a = b ∧ (.nonterminal p.goal = Symbol.regex → Part.Delimited source es) := by
  rcases hp.balanced with hneutral | ⟨first, hfirst, last, hlast, hopens, hcloses, hmiddle⟩
  · refine ⟨h.eq_of_neutral fun e he => hneutral e.1 (hsteps ▸ List.mem_map_of_mem he), fun hX => ?_⟩
    obtain ⟨⟨s, hs, -, hsymbol⟩, -⟩ := hp.regex hX
    refine absurd (List.mem_cons_of_mem _ ?_) (hneutral s (List.mem_of_mem_head? hs))
    exact hsymbol ▸ mem_openings rfl
  · rw [← hsteps] at hfirst hlast hmiddle
    cases es with
    | nil => cases hfirst
    | cons e es =>
      obtain rfl : e.1 = first := Option.some.inj hfirst
      rcases List.eq_nil_or_concat es with rfl | ⟨middle, e', rfl⟩
      · obtain rfl : e.1 = last := Option.some.inj hlast
        exact absurd (hcloses ▸ hopens) (by decide)
      · rw [List.concat_eq_append] at *
        simp only [List.map_cons, List.map_append, List.map_nil, List.tail_cons, List.dropLast_concat,
          List.mem_map, forall_exists_index, and_imp, forall_apply_eq_imp_iff₂] at hmiddle
        rw [List.map_cons, List.map_append, ← List.cons_append] at hlast
        obtain rfl : e'.1 = last := Option.some.inj (List.getLast?_concat.symm.trans hlast)
        obtain ⟨c, hopening, hrest⟩ := h
        obtain ⟨d, hall, _, hclosing, rfl⟩ := DelimitsAll.append.1 hrest
        obtain rfl := hall.eq_of_neutral hmiddle
        rw [hcloses] at hclosing
        obtain ⟨t, closer, ht, rfl, hregex⟩ := hopening.of_opening hopens
        obtain ⟨closer', flags, heq, hflags, hcovers⟩ := hclosing.of_closing
        obtain ⟨rfl, rfl⟩ := List.cons.inj heq
        refine ⟨rfl, fun hX => ?_⟩
        obtain ⟨⟨s, hfirst', -, hsymbol⟩, -⟩ := hp.regex hX
        rw [← hsteps] at hfirst'
        obtain rfl : e.1 = s := Option.some.inj hfirst'
        obtain ⟨hsize, hlower, opener, hopens, hopener⟩ := hregex (eq_regexStart (ht.symm.trans hsymbol))
        refine ⟨e, rfl, e', ?_, opener, closer, flags, hopens, hsize, fun hmem => ?_, ?_, hopener, hcovers⟩
        · exact List.getLast?_concat (l := e :: middle)
        · exact absurd (hflags _ hmem) (Bool.eq_false_iff.1 hlower)
        · exact hs.stop_le (List.mem_singleton_self e) (List.mem_append_right _ List.mem_cons_self)

theorem gather_map (ps : List (Step × Frame)) (below : List Frame) (span : Span) (inside : List Concrete)
    (named : Nat) :
    ∃ named', Reading.gather (ps.map Prod.fst) (ps.map Prod.snd ++ below) span inside named =
      (⟨ps.getLast?.elim span.start fun e => e.2.part.span.start, span.stop⟩,
        inside ++ ps.flatMap fun e => e.2.part.nodes e.1, named', below) := by
  induction ps generalizing span inside named with
  | nil => exact ⟨named, by simp [Reading.gather]⟩
  | cons e ps ih =>
    obtain ⟨named', heq⟩ := ih ⟨e.2.part.span.start, span.stop⟩ (inside ++ e.2.part.nodes e.1)
      (named + if e.2.part.isNamedBy e.1 then 1 else 0)
    refine ⟨named', heq.trans ?_⟩
    rw [List.append_assoc, ← List.flatMap_cons (f := fun e : Step × Frame => e.2.part.nodes e.1)]
    cases hps : ps.getLast? with
    | none => rw [List.getLast?_eq_none_iff.1 hps]; rfl
    | some e' => rw [List.getLast?_cons, hps]; rfl

theorem reverse_leftAll {ps : List (Step × Frame)} :
    (leftAll (partsOf ps)).reverse = ps.flatMap fun e => e.2.part.nodes e.1 := by
  rw [leftAll, List.reverse_flatMap, partsOf, List.reverse_reverse, List.flatMap_map]
  exact congrArg (ps.flatMap ·) (funext fun e => List.reverse_reverse _)

theorem gathered_eq {ps : List (Step × Frame)} (hps : ps.map Prod.fst = p.steps.reverse)
    (hstack : r.stack = ps.map Prod.snd ++ below) :
    ∃ span nodes, (ps ≠ [] → Part.Spans (partsOf ps) span) ∧ r.gathered p =
      (⟨span, p.construct, (leftAll (partsOf ps)).reverse⟩, { r with stack := below, nodes }) := by
  obtain ⟨place, scanner, stack, nodes⟩ := r
  dsimp only at hstack
  subst hstack
  rw [reverse_leftAll]
  unfold Reading.gathered
  dsimp only
  rw [← hps]
  cases ps with
  | nil => exact ⟨_, _, fun h => absurd rfl h, rfl⟩
  | cons e ps =>
    obtain ⟨named, heq⟩ := gather_map (e :: ps) below ⟨e.2.part.span.stop, e.2.part.span.stop⟩ [] 0
    rw [List.map_cons, List.map_cons, List.cons_append] at heq ⊢
    dsimp only
    rw [heq]
    have hlast := List.getLast?_eq_some_getLast (List.cons_ne_nil e ps)
    refine ⟨_, _, fun _ => ⟨?_, ?_⟩, rfl⟩
    · rw [hlast, partsOf, List.head?_reverse, List.getLast?_map, hlast]
      exact ⟨_, rfl, rfl⟩
    · rw [partsOf_cons]
      exact ⟨_, List.getLast?_concat, rfl⟩

/-- **What a production asks for can be taken off the stack.** -/
theorem Stacked.gathered (h : Stacked source Xs closers r.stack) (hp : p.Checked)
    (hread : p.steps.reverse.map Step.symbol <+: Xs) :
    ∃ es below, Gathered source closers r p es below := by
  obtain ⟨ps, below, Ys, closers', hps, hstack, hbelow, hbefore, hsequence, hall⟩ :=
    h.popped hread fun s hs => hp.steps s (List.mem_reverse.1 hs)
  have hsteps : (partsOf ps).map Prod.fst = p.steps := by
    rw [map_partsOf, hps, List.reverse_reverse]
  obtain ⟨rfl, hdelimited⟩ := hall.balanced hsequence hp hsteps
  have hframe : ∀ e ∈ partsOf ps, ∃ e' ∈ ps, e = (e'.1, e'.2.part) := by
    intro e he
    obtain ⟨e', he', rfl⟩ := List.mem_map.1 (List.mem_reverse.1 he)
    exact ⟨e', he', rfl⟩
  refine ⟨partsOf ps, below, hsteps, hsequence, hdelimited, ⟨Ys, hbelow⟩, fun g hg => ⟨?_, ?_⟩, ?_, ?_⟩
  · exact hstack ▸ List.mem_append_right _ hg
  · intro e he
    obtain ⟨e', he', rfl⟩ := hframe e he
    exact hbefore e' he' g hg
  · intro e he
    obtain ⟨e', he', rfl⟩ := hframe e he
    exact ⟨e'.2, hstack ▸ List.mem_append_left _ (List.mem_map_of_mem he'), rfl⟩
  · obtain ⟨span, nodes, hspans, heq⟩ := gathered_eq hps hstack
    refine ⟨span, nodes, fun hne => hspans fun hnil => hne ?_, heq⟩
    rw [← hsteps, hnil]
    rfl

variable (h : Gathered source closers r p es below) (hp : p.Checked)
include h hp

/-- **The parts become one that has been read for the phrase**, and ends where the last of them does. -/
theorem Gathered.reduced (hgoal : p.goal ≠ Phrase.program.number) : ∃ part nodes,
    r.gathered p = (part, { r with stack := below, nodes }) ∧
      part.Holds source (.nonterminal p.goal) ∧
      (∀ g ∈ below, g.part.span.stop ≤ part.span.start) ∧
      ∃ f ∈ r.stack, part.span.stop = f.part.span.stop := by
  obtain ⟨span, nodes, hspans, heq⟩ := h.gathered
  have hspans := hspans (hp.ne_nil hgoal)
  obtain ⟨first, hfirst, hstart⟩ := hspans.start
  obtain ⟨last, hlast, hstop⟩ := hspans.stop
  refine ⟨_, nodes, heq, h.sequence.combine hp h.steps hspans h.delimited, fun g hg => ?_, ?_⟩
  · show _ ≤ span.start
    rw [← hstart]
    exact (h.lower g hg).2 first (List.mem_of_mem_head? hfirst)
  · obtain ⟨f, hf, hpart⟩ := h.parts last (List.mem_of_getLast? hlast)
    exact ⟨f, hf, hstop.symm.trans (hpart ▸ rfl)⟩

omit hp in
/-- What a production keeps of its parts is sound, and in order. -/
theorem Gathered.kept : (∀ c ∈ (Part.kept (r.gathered p).1.inside).reverse, c.Sound source) ∧
    Span.InOrder ((Part.kept (r.gathered p).1.inside).reverse.map Concrete.span) := by
  obtain ⟨span, nodes, -, heq⟩ := h.gathered
  rw [heq]
  constructor
  · intro c hc
    obtain ⟨-, -, -, hsound, -⟩ :=
      h.sequence.sound (List.mem_reverse.1 (Part.mem_kept.1 (List.mem_reverse.1 hc)).1)
    exact hsound
  · have hsublist := (List.filter_sublist (l := (leftAll es).reverse)
      (p := fun c => !(c.isToken && c.role == .plain))).reverse
    rw [List.reverse_reverse] at hsublist
    exact h.sequence.ordered_left.sublist (hsublist.map Concrete.span)

/-- **A reduction leaves a stack, with the same literals open**, that ends where it did. -/
theorem Gathered.reduce (hgoal : p.goal ≠ Phrase.program.number) :
    (∃ Ys, Stacked source Ys closers (r.reduce p).stack) ∧ (r.reduce p).place = r.place ∧
      (r.reduce p).scanner = r.scanner ∧
      ∀ f ∈ (r.reduce p).stack, ∃ g ∈ r.stack, f.part.span.stop = g.part.span.stop := by
  obtain ⟨part, nodes, heq, hholds, hbefore, hstop⟩ := h.reduced hp hgoal
  obtain ⟨Ys, hstacked⟩ := h.stacked
  have hlower : ∀ f ∈ below, ∃ g ∈ r.stack, f.part.span.stop = g.part.span.stop :=
    fun f hf => ⟨f, (h.lower f hf).1, rfl⟩
  unfold Reading.reduce
  rw [heq]
  dsimp only
  split
  · exact ⟨⟨Ys, hstacked⟩, rfl, rfl, hlower⟩
  · refine ⟨⟨_, hstacked.cons (State.follows_advance _ _) hholds hbefore ?_⟩, rfl, rfl,
      List.forall_mem_cons.2 ⟨hstop, hlower⟩⟩
    exact .neutral (isNeutral_nonterminal _)

end

end RubyLint.Ruby
