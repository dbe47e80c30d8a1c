import RubyLint.Proofs.Layout.Placement

/-!
# Placed literals

The segments of a text between its interpolations stand one behind the other, and so do the content and the
flags of a regular expression.

* `segments_placed`     the segments of a text;
* `regexpContent?_eq`   where the content of a regular expression stands.
-/

namespace RubyLint.Ruby.Layout

open Text (isBoundary)

section
variable {l : Layout} {c d : Concrete} {rs : List Span} {ts : List Term} {t : Term}
variable (hl : l.PlacesParts) (hc : c.Sound l.source)

include hl hc

def Segment.span : Segment → Span
  | .literal span => span
  | .interpolation c => c.span

omit hl hc in
/-- Each segment stands from the start of one part to the end of another, and so cuts the text; and the
segments stand one behind the other. -/
theorem segments_placed {source : List Char} {cs : List Concrete}
    (hcs : Span.InOrder (cs.map Concrete.span)) (hcuts : ∀ d ∈ cs, d.span.Cuts source) :
    Span.InOrder ((segments cs).map Segment.span) ∧ ∀ s ∈ segments cs, s.span.Cuts source ∧
      (∃ d ∈ cs, s.span.start = d.span.start) ∧ ∃ d ∈ cs, s.span.stop = d.span.stop := by
  induction cs with
  | nil => exact ⟨.nil, fun s hs => absurd hs List.not_mem_nil⟩
  | cons c cs ih =>
    obtain ⟨hfirst, hrest⟩ := List.pairwise_cons.1 hcs
    rw [List.forall_mem_map] at hfirst
    obtain ⟨hc, hcuts⟩ := List.forall_mem_cons.1 hcuts
    obtain ⟨hordered, hsegments⟩ := ih hrest hcuts
    have hbehind : ∀ s ∈ segments cs, c.span.stop ≤ s.span.start ∧ s.span.start ≤ s.span.stop := by
      intro s hs
      obtain ⟨hs, ⟨d, hd, hstart⟩, -⟩ := hsegments s hs
      exact ⟨hstart ▸ hfirst d hd, hs.le⟩
    have hmore : ∀ s ∈ segments cs, s.span.Cuts source ∧
        (∃ d ∈ c :: cs, s.span.start = d.span.start) ∧ ∃ d ∈ c :: cs, s.span.stop = d.span.stop := by
      intro s hs
      obtain ⟨hs, ⟨d, hd, hstart⟩, e, he, hstop⟩ := hsegments s hs
      exact ⟨hs, ⟨d, List.mem_cons_of_mem c hd, hstart⟩, e, List.mem_cons_of_mem c he, hstop⟩
    have hself : ∀ {s : Segment}, s.span = c.span → s.span.Cuts source ∧
        (∃ d ∈ c :: cs, s.span.start = d.span.start) ∧ ∃ d ∈ c :: cs, s.span.stop = d.span.stop := by
      intro s heq
      rw [heq]
      exact ⟨hc, ⟨c, List.mem_cons_self, rfl⟩, c, List.mem_cons_self, rfl⟩
    have hcons : ∀ {s : Segment}, s.span = c.span →
        Span.InOrder ((s :: segments cs).map Segment.span) := by
      intro s heq
      refine List.pairwise_cons.2 ⟨List.forall_mem_map.2 fun s' hs' => ?_, hordered⟩
      rw [heq]
      exact (hbehind s' hs').1
    rw [segments]
    split
    · exact ⟨hcons rfl, List.forall_mem_cons.2 ⟨hself rfl, hmore⟩⟩
    · split
      · next span rest heq =>
        rw [heq] at hordered hbehind hmore
        obtain ⟨hspan, hothers⟩ := List.forall_mem_cons.1 hmore
        have hnext : c.span.stop ≤ span.start ∧ span.start ≤ span.stop :=
          hbehind _ List.mem_cons_self
        have hjoin : c.span.join span = ⟨c.span.start, span.stop⟩ := by
          have hle := hc.le
          rw [Span.join, Nat.min_eq_left (by omega), Nat.max_eq_right (by omega)]
        rw [hjoin]
        refine ⟨?_, List.forall_mem_cons.2 ⟨⟨?_, ⟨c, List.mem_cons_self, rfl⟩, hspan.2.2⟩, hothers⟩⟩
        · exact List.pairwise_cons.2 (List.pairwise_cons.1 hordered)
        · exact hc.between hspan.1 (by have := hc.le; show c.span.start ≤ span.stop; omega)
      · exact ⟨hcons rfl, List.forall_mem_cons.2 ⟨hself rfl, hmore⟩⟩

omit hl in
/-- The segments of a literal stand in it, and end where parts of it end. -/
theorem segments_named : Span.InOrder ((segments c.named).map Segment.span) ∧
    ∀ s ∈ segments c.named, s.span.Cuts l.source ∧ c.span.contains s.span = true ∧
      ∃ d ∈ c.named, s.span.stop = d.span.stop := by
  have hnamed : c.named.Sublist c.children := List.filter_sublist
  obtain ⟨hordered, hsegments⟩ := segments_placed (hc.stands.ordered.sublist (hnamed.map _))
    fun d hd => (hc.child (hnamed.subset hd)).stands.cuts
  refine ⟨hordered, fun s hs => ?_⟩
  obtain ⟨hcuts, ⟨d, hd, hstart⟩, e, he, hstop⟩ := hsegments s hs
  have hinside := Span.contains_iff.1 (hc.stands.inside d (hnamed.subset hd))
  have hinside' := Span.contains_iff.1 (hc.stands.inside e (hnamed.subset he))
  exact ⟨hcuts, Span.contains_iff.2 ⟨by omega, by omega⟩, e, he, hstop⟩

theorem interpolated_gives (unescape : Bool) : Gives (l.interpolated c.named unescape)
    (FitEach l.source ((segments c.named).map Segment.span)) := by
  refine (Gives.mapM fun s hs => ?_).imp fun ts h => List.forall₂_map_left_iff.2 h
  cases s with
  | literal span =>
    have hcuts := ((segments_named hc).2 _ hs).1
    exact .pure ((Fits.nil.value _).node hcuts (fun _ h => absurd h List.not_mem_nil) .nil)
  | interpolation d =>
    exact hl d (hc.child (Concrete.mem_children_of_named (mem_of_mem_segments hs)))

omit hl in
theorem interpolated_placed {kind : Kind} {loc : Loc}
    (h : FitEach l.source ((segments c.named).map Segment.span) ts) :
    (Term.node kind c.span loc ts).PlacedIn l.source c.span := by
  obtain ⟨hordered, hsegments⟩ := segments_named hc
  exact h.fits.node hc.stands.cuts (List.forall_mem_map.2 fun s hs => (hsegments s hs).2.1)
    hordered.apart

theorem string_gives : Gives (l.string c) (Term.PlacedIn l.source c.span) := by
  unfold string
  extract_lets text delimiters loc isDouble
  split
  · exact (interpolated_gives hl hc _).bind fun ts hts => .pure (interpolated_placed hc hts)
  · exact .pure (leaf_placed hc [.str _])

theorem delimitedSymbol_gives : Gives (l.delimitedSymbol c) (Term.PlacedIn l.source c.span) := by
  unfold delimitedSymbol
  extract_lets text
  split
  · exact (interpolated_gives hl hc _).bind fun ts hts => .pure (interpolated_placed hc hts)
  · exact .pure (leaf_placed hc [.sym _])

omit hl hc in
theorem byteLength_reverse (cs : List Char) : Text.byteLength cs.reverse = Text.byteLength cs := by
  induction cs with
  | nil => rfl
  | cons c cs ih =>
    rw [List.reverse_cons, Text.byteLength_append, ih, Nat.add_comm]
    rfl

omit hl hc in
theorem lastOffset?_eq {x : Char} (front : List Char) {back : List Char} (h : x ∉ back) :
    lastOffset? x (front ++ x :: back) = some (Text.byteLength front) := by
  have hdrop : (front ++ x :: back).reverse.dropWhile (· != x) = x :: front.reverse := by
    rw [List.reverse_append, List.reverse_cons, List.append_assoc, List.dropWhile_append_of_pos]
    · rw [List.singleton_append, List.dropWhile_cons_of_neg (by simp)]
    · intro y hy
      exact bne_iff_ne.2 fun heq => h (heq ▸ List.mem_reverse.1 hy)
  rw [lastOffset?, hdrop, ← byteLength_reverse front]

omit hl hc in
/-- what a regular expression is written in starts behind what opens it, and ends where it is closed -/
theorem regexpContent?_eq {opener body flags : List Char} {closer : Char}
    (h : Concrete.opensRegex opener closer) (hflags : closer ∉ flags) :
    regexpContent? (opener ++ body ++ closer :: flags) =
      some (Text.byteLength opener, Text.byteLength (opener ++ body)) := by
  have hlast := lastOffset?_eq (opener ++ body) hflags
  have hle : Text.byteLength opener ≤ Text.byteLength (opener ++ body) := by
    rw [Text.byteLength_append]
    exact Nat.le_add_right _ _
  have hfound : regexpContent? (opener ++ body ++ closer :: flags) =
      (lastOffset? closer (opener ++ body ++ closer :: flags)).bind fun stop =>
        if Text.byteLength opener ≤ stop then some (Text.byteLength opener, stop) else none := by
    rcases h with ⟨rfl, rfl⟩ | ⟨d, rfl, rfl⟩
    · rfl
    · have hlength : Text.byteLength ['%', 'r', d] = 2 + d.utf8Size := by
        show 1 + (1 + (d.utf8Size + 0)) = _
        omega
      rw [hlength]
      rfl
  rw [hfound, hlast]
  exact if_pos hle

theorem regexp_gives (hregex : c.IsRegex l.source) :
    Gives (l.regexp c) (Term.PlacedIn l.source c.span) := by
  obtain ⟨opener, body, closer, flags, hopens, htext, hsize, hflags, hparts⟩ := hregex
  have hread : l.text c = opener ++ body ++ closer :: flags := by
    rw [Layout.text, textAt, htext]
    rfl
  have hends : (regexpContent? (l.text c)).getD (0, Text.byteLength (l.text c)) =
      (Text.byteLength opener, Text.byteLength (opener ++ body)) := by
    rw [hread, regexpContent?_eq hopens hflags]
    rfl
  unfold regexp
  extract_lets span text noLoc
  rw [hends]
  dsimp -zeta only
  extract_lets content flagsStart flags' options loc rest
  have hstop := htext.stop_eq
  rw [Text.byteLength_append, Text.byteLength_append, Text.byteLength_cons, hsize] at hstop
  have hlength := Text.byteLength_append opener body
  have hflagsStart : flagsStart = c.span.start + Text.byteLength (opener ++ body) + 1 :=
    Nat.min_eq_left (by show c.span.start + _ + 1 ≤ c.span.stop; omega)
  have hstart : isBoundary l.source content.start = true :=
    Covers.isBoundary opener (body ++ closer :: flags) (by rwa [← List.append_assoc])
  have hclosed : isBoundary l.source flagsStart = true := by
    have hboundary := Covers.isBoundary (opener ++ body ++ [closer]) flags (by rwa [List.append_assoc])
    rw [Text.byteLength_append, Text.byteLength_cons, hsize] at hboundary
    rwa [hflagsStart]
  have hstopped : isBoundary l.source content.stop = true :=
    htext.isBoundary (opener ++ body) (closer :: flags)
  -- a node with values inside what is between two cuts
  have hvalues : ∀ (kind : Kind) {start stop : Nat} (vs : List Value), start ≤ stop →
      isBoundary l.source start = true → isBoundary l.source stop = true →
      (plainTerm kind ⟨start, stop⟩ (vs.map Term.value)).PlacedIn l.source ⟨start, stop⟩ := by
    intro kind start stop vs hle hstart hstop
    have hfits : Fits l.source [] (vs.map Term.value ++ []) := Fits.nil.values vs
    rw [List.append_nil] at hfits
    exact hfits.node ⟨hle, hstart, hstop⟩ (fun _ h => absurd h List.not_mem_nil) .nil
  have hoptions : options.PlacedIn l.source ⟨flagsStart, c.span.stop⟩ := by
    have h := hvalues .regexpOptions (flags'.map fun f => .sym (String.ofList [f]))
      (by omega) hclosed hc.stands.cuts.stop
    rwa [List.map_map] at h
  have hnode : ∀ {rs ts}, Fits l.source rs ts → (∀ r ∈ rs, span.contains r = true) →
      rs.Pairwise Span.Apart → (∀ r ∈ rs, r.stop ≤ flagsStart) →
      (Term.node .regexp span loc (ts ++ [options])).PlacedIn l.source span := by
    intro rs ts hts hin hapart hbefore
    refine (hts.append (.one hoptions)).node hc.stands.cuts ?_ ?_
    · refine List.forall_mem_append.2 ⟨hin, List.forall_mem_singleton.2 (Span.contains_iff.2 ⟨?_, Nat.le_refl _⟩)⟩
      show c.span.start ≤ flagsStart
      omega
    · exact List.pairwise_append.2 ⟨hapart, List.pairwise_singleton _ _,
        fun r hr s hs => .inl (List.mem_singleton.1 hs ▸ hbefore r hr)⟩
  split
  · refine (interpolated_gives hl hc _).bind fun ts hts => .pure ?_
    obtain ⟨hordered, hsegments⟩ := segments_named hc
    refine hnode hts.fits (List.forall_mem_map.2 fun s hs => (hsegments s hs).2.1) hordered.apart
      (List.forall_mem_map.2 fun s hs => ?_)
    obtain ⟨-, -, d, hd, hstop⟩ := hsegments s hs
    have hd := hparts d hd
    omega
  · split
    · rw [pure_bind]
      exact .pure (hnode .nil (fun _ h => absurd h List.not_mem_nil) .nil fun _ h => absurd h List.not_mem_nil)
    · rw [pure_bind]
      have hliteral : (l.literalPart content false).PlacedIn l.source content :=
        hvalues _ [.str _] (by show c.span.start + _ ≤ c.span.start + _; omega) hstart hstopped
      refine .pure (hnode (.one hliteral) (List.forall_mem_singleton.2 ?_)
        (List.pairwise_singleton _ _) (List.forall_mem_singleton.2 ?_))
      · refine Span.contains_iff.2 ⟨Nat.le_add_right _ _, ?_⟩
        show c.span.start + _ ≤ c.span.stop
        omega
      · show c.span.start + _ ≤ flagsStart
        omega

theorem named_gives {kind : Kind} {loc : Loc} : Gives (l.all c.named)
    fun ts => (Term.node kind c.span loc ts).PlacedIn l.source c.span :=
  (filtered_gives hl hc isNamed).imp fun _ h => h.inNode hc.stands (List.pairwise_singleton _ _)

theorem array_gives : Gives (l.array c) (Term.PlacedIn l.source c.span) :=
  (named_gives hl hc).bind fun _ h => .pure h

theorem hash_gives : Gives (l.hash c) (Term.PlacedIn l.source c.span) :=
  (named_gives hl hc).bind fun _ h => .pure h

theorem pair_gives : Gives (l.pair c) (Term.PlacedIn l.source c.span) := by
  refine (part_gives hl hc .key).bind fun key hkey => ?_
  refine (part_gives hl hc .value).bind fun value hvalue => .pure ?_
  exact (hkey.region.orNil.parts hvalue.region.orNil).inRoles [.key, .value] hc.stands (by decide)

end

end RubyLint.Ruby.Layout
