import RubyLint.Proofs.Layout.Parsed
import RubyLint.Proofs.Reading.Tokens

/-!
# What comes of a text

A reading stands at a place in its text, with the parts that have been read in front of the place
(`Reading.Reads`).  Each step keeps this, and so does a run to the end of a text.

* `Cursor.IsIn`         the place stands in a text;
* `Reading.Reads`       what holds of a reading;
* `reads_step`          a step keeps it;
* `reads_run`           a run keeps it;
* `areSound_ofText?`    the nodes of a text are sound, and stand one behind the other;
* `parseTree_placed`    the tree of a text by the grammar is well placed.
-/

namespace RubyLint.Ruby

/-! ## places -/

/-- What comes next is the rest of the text, behind so many bytes. -/
def Cursor.IsIn (source : List Char) (c : Cursor) : Prop :=
  ∃ front, source = front ++ c.rest ∧ Text.byteLength front = c.offset

section
variable {source : List Char} {c : Cursor}

theorem Cursor.IsIn.advance (h : c.IsIn source) (n : Nat) : (c.advance n).IsIn source := by
  obtain ⟨front, hsource, hfront⟩ := h
  refine ⟨front ++ c.rest.take n, ?_, ?_⟩
  · show source = front ++ c.rest.take n ++ c.rest.drop n
    rw [List.append_assoc, List.take_append_drop, hsource]
  · rw [Text.byteLength_append, hfront]
    rfl

theorem Cursor.IsIn.covers (h : c.IsIn source) (n : Nat) :
    Covers source ⟨c.offset, (c.advance n).offset⟩ (c.rest.take n) := by
  obtain ⟨front, hsource, hfront⟩ := h
  refine Text.slice_eq_some_iff.2 ⟨front, c.rest.drop n, ?_, hfront, rfl⟩
  rw [List.take_append_drop, hsource]

theorem Covers.cuts {span : Span} {text : List Char} (h : Covers source span text) : span.Cuts source := by
  obtain ⟨hle, hstart, hstop⟩ := Text.isSome_slice_iff.1 (Option.isSome_of_eq_some h)
  exact ⟨hle, hstart, hstop⟩

theorem isIn_front : (Reading.front source).IsIn source := by
  have hstart : (⟨source, 0⟩ : Cursor).IsIn source := ⟨[], rfl, rfl⟩
  unfold Reading.front
  extract_lets place
  split
  · exact hstart.advance 1
  · exact hstart

end

/-! ## readings -/

/-- The parts on the stack have been read in front of the place, and the literals that are open there go
along with them. -/
structure Reading.Reads (source : List Char) (r : Reading) : Prop where
  place : r.place.IsIn source
  stacked : ∃ Xs, Stacked source Xs r.scanner.closers r.stack
  behind : ∀ f ∈ r.stack, f.part.span.stop ≤ r.place.offset

/-- Sound nodes, one behind the other. -/
def AreSound (source : List Char) (cs : List Concrete) : Prop :=
  (∀ c ∈ cs, c.Sound source) ∧ Span.InOrder (cs.map Concrete.span)

inductive Reading.Outcome.Reads (source : List Char) : Outcome → Prop
  | read {r : Reading} (h : r.Reads source) : Outcome.Reads source (.read r)
  | complete {cs : List Concrete} (h : AreSound source cs) : Outcome.Reads source (.complete cs)
  | refused : Outcome.Reads source .refused

inductive Reading.Result.Reads (source : List Char) : Result → Prop
  | complete {cs : List Concrete} (h : AreSound source cs) : Result.Reads source (.complete cs)
  | stuck {r : Reading} (h : r.Reads source) : Result.Reads source (.stuck r)

namespace Reading

section
variable {source : List Char} {r : Reading} {Xs : List Symbol} {closers : List Char} {t : Terminal}
  {span : Span}

theorem reads_start : (start source).Reads source := ⟨isIn_front, ⟨_, .nil⟩, List.forall_mem_nil _⟩

theorem unscanned_of_looksLikeName (h : looksLikeName t = true) : ∀ s, t ≠ .scanned s := by
  rintro s rfl
  cases h

/-- **What comes of a terminal**, which has been read between the stack and the place. -/
theorem reads_feedFrom {fuel : Nat} (hplace : r.place.IsIn source) (hstack : Stacked source Xs closers r.stack)
    (hbehind : ∀ f ∈ r.stack, f.part.span.stop ≤ span.start) (hspan : span.stop ≤ r.place.offset)
    (ht : t.ReadsAt source span closers r.scanner.closers) : (feedFrom fuel r t span).Reads source := by
  induction fuel generalizing r t Xs with
  | zero => exact .refused
  | succ fuel ih =>
    have hle := ht.cuts.le
    have hbefore : ∀ f ∈ r.stack, f.part.span.stop ≤ r.place.offset := fun f hf => by
      have := hbehind f hf
      omega
    unfold feedFrom
    cases haction : r.state.action rubyTable t.code with
    | shift =>
      dsimp only
      split
      · exact .refused
      · exact .read ⟨hplace, ⟨_, hstack.cons (State.follows_advance _ _) ht.holds hbehind ht.delimits⟩,
          List.forall_mem_cons.2 ⟨hspan, hbefore⟩⟩
    | reduce p =>
      obtain ⟨hp, hread⟩ := hstack.reached.reduced haction
      have hchecked := productions_checked p hp
      obtain ⟨es, below, hgathered⟩ := hstack.gathered hchecked hread
      dsimp only
      split
      · exact .complete hgathered.kept
      · next hgoal =>
        obtain ⟨⟨Ys, hstacked⟩, hsame, hscanner, hstops⟩ := hgathered.reduce hchecked hgoal
        have hends : ∀ f ∈ (r.reduce p).stack, f.part.span.stop ≤ span.start := by
          intro f hf
          obtain ⟨g, hg, heq⟩ := hstops f hf
          exact heq ▸ hbehind g hg
        split
        · next hfinish =>
          subst hfinish
          obtain rfl := ht.delimits.eq_of_neutral (by decide)
          refine .read ⟨hsame ▸ hplace, ⟨Ys, hscanner ▸ hstacked⟩, fun f hf => ?_⟩
          have := hends f hf
          rw [hsame]
          omega
        · exact ih (hsame ▸ hplace) hstacked hends (hsame ▸ hspan) (hscanner ▸ ht)
    | refuse =>
      dsimp only
      split
      · next hname =>
        have hunscanned := unscanned_of_looksLikeName (Bool.and_eq_true_iff.1 hname).1
        obtain rfl := ht.delimits.eq_of_neutral (isNeutral_of_unscanned ht.known hunscanned)
        exact ih hplace hstack hbehind hspan
          (Terminal.readsAt_of_not_spelled (by decide) nofun (by decide) ht.cuts)
      · exact .refused

theorem Reads.feed_empty (h : r.Reads source) (ht : t ∈ Terminal.all) (hscanned : ∀ s, t ≠ .scanned s)
    (hspelled : t ∉ Terminal.spelled.map Prod.fst) : (r.feed t (.empty r.place.offset)).Reads source := by
  obtain ⟨Xs, hstack⟩ := h.stacked
  have hcuts := (h.place.covers 0).cuts
  rw [Cursor.advance_zero] at hcuts
  exact reads_feedFrom h.place hstack h.behind (Nat.le_refl _)
    (Terminal.readsAt_of_not_spelled ht hscanned hspelled hcuts)

/-- **A step keeps what holds of a reading.** -/
theorem Reads.step (h : r.Reads source) : r.step.Reads source := by
  unfold Reading.step
  split
  · exact h.feed_empty (by decide) nofun (by decide)
  split
  · exact .refused
  · next l hl =>
    extract_lets span
    obtain ⟨Xs, hstack⟩ := h.stacked
    have hcovers : Covers source span ((r.place.rest.drop l.before).take l.length) :=
      (h.place.advance l.before).covers l.length
    have hread := readsAt_lexeme? hl hcovers.cuts hcovers
    have hplace : (r.behind l).place.IsIn source := h.place.advance _
    have hstop : span.stop = (r.behind l).place.offset :=
      congrArg Cursor.offset (Cursor.advance_add r.place l.before l.length).symm
    have hbehind : ∀ f ∈ r.stack, f.part.span.stop ≤ span.start := fun f hf =>
      Nat.le_trans (h.behind f hf) (Cursor.offset_le_advance _ _)
    have hends : ∀ f ∈ r.stack, f.part.span.stop ≤ (r.behind l).place.offset := fun f hf =>
      Nat.le_trans (h.behind f hf) (Cursor.offset_le_advance _ _)
    split
    · next hcomment =>
      rw [hcomment] at hread
      have hclosers := hread.delimits.eq_of_neutral (by decide)
      exact .read ⟨hplace, ⟨Xs, hclosers ▸ hstack⟩, hends⟩
    · next hbody =>
      rw [hbody] at hread
      exact .read ⟨hplace, ⟨_, hstack.cons (State.follows_heredocBody _) hread.holds hbehind hread.delimits⟩,
        List.forall_mem_cons.2 ⟨Nat.le_of_eq hstop, hends⟩⟩
    · exact reads_feedFrom hplace hstack hbehind (Nat.le_of_eq hstop) hread

/-! ## runs -/

theorem Reads.runFor {n : Nat} (h : r.Reads source) : (runFor n r).Reads source := by
  induction n generalizing r with
  | zero => exact .stuck h
  | succ n ih =>
    have hstep := h.step
    unfold Reading.runFor
    cases hr : r.step with
    | read next =>
      rw [hr] at hstep
      cases hstep with
      | read h => exact ih h
    | complete cs =>
      rw [hr] at hstep
      cases hstep with
      | complete h => exact .complete h
    | refused => exact .stuck h

/-- **A run keeps what holds of a reading.** -/
theorem Reads.run (h : r.Reads source) : r.run.Reads source := h.runFor

theorem Reads.withKey? {next : Reading} (h : r.Reads source) (hkey : r.withKey? = some next) :
    next.Reads source := by
  unfold Reading.withKey? at hkey
  split at hkey
  · have hfeed := h.feed_empty (t := .shape .identifierSuffix) (by decide) nofun (by decide)
    split at hkey
    · next heq =>
      cases hkey
      rw [heq] at hfeed
      cases hfeed with
      | read h => exact h
    · cases hkey
  · cases hkey

/-- **What comes of a text with missing keys.** -/
theorem areSound_repaired {fuel : Nat} {result : Result} {cs : List Concrete} (h : result.Reads source)
    (hcs : repaired fuel result = some cs) : AreSound source cs := by
  induction fuel generalizing result with
  | zero =>
    cases h with
    | complete h =>
      cases hcs
      exact h
    | stuck => cases hcs
  | succ fuel ih =>
    cases h with
    | complete h =>
      cases hcs
      exact h
    | stuck h =>
      unfold repaired at hcs
      split at hcs
      · cases hcs
      · next keyed hkey =>
        extract_lets filled goesOn at hcs
        have hfilled : filled.Reads source := (h.withKey? hkey).run
        split at hcs
        · cases hcs
        split at hcs
        · exact ih hfilled hcs
        split at hcs
        · cases hcs
        · next heq =>
          cases hcs
          rw [heq] at hfilled
          cases hfilled with
          | complete h => exact h
        · split at hcs
          · exact ih hfilled hcs
          · cases hcs

end

end Reading

/-- **The nodes of a text are sound, and stand one behind the other.** -/
theorem areSound_ofText? {text : String} {cs : List Concrete} (h : Concrete.ofText? text = some cs) :
    AreSound text.toList cs :=
  Reading.areSound_repaired Reading.reads_start.run h

/-! ## the parser of the grammar -/

section
variable {text : String} {parsed : Parsed}

theorem sound_grammarParser (h : grammarParser text = .ok parsed) (hflaws : parsed.flaws = []) :
    parsed.root.Sound text.toList := by
  unfold grammarParser at h
  extract_lets program at h
  cases hread : Concrete.ofText? text with
  | none =>
    rw [hread] at h
    cases h
    cases hflaws
  | some statements =>
    rw [hread] at h
    cases h
    obtain ⟨hsound, hordered⟩ := areSound_ofText? hread
    have hinside : ∀ c ∈ statements, (⟨0, Text.byteLength text.toList⟩ : Span).contains c.span = true :=
      fun c hc => (hsound c hc).stands.cuts.inside_text
    have hmethod : Construct.other "program" ∉ [Construct.methodDefinition, .singletonMethod] := by decide
    exact .intro ⟨⟨Span.cuts_text _, hinside, hordered, nofun⟩,
      ⟨nofun, nofun, nofun, nofun, fun h => absurd h hmethod⟩⟩ hsound

theorem grammarParser_keepsLayout : grammarParser.KeepsLayout := fun _ _ h hflaws =>
  (sound_grammarParser h hflaws).imp fun _ h => h.toIsLaidOut

theorem grammarParser_followsGrammar : grammarParser.FollowsGrammar := fun _ _ h hflaws =>
  (sound_grammarParser h hflaws).imp fun _ h => h.toIsGrammatical

/-- **The tree of a text by the grammar is well placed.** -/
theorem parseTree_placed {t : SyntaxTree} (h : parseTree text = .ok t) : t.source = text ∧ t.WellPlaced :=
  wellPlaced_of_sound (fun _ => sound_grammarParser) h

end

end RubyLint.Ruby
