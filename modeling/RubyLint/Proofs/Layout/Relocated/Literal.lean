import RubyLint.Proofs.Layout.Placed.Literal
import RubyLint.Proofs.Layout.Relocation

/-!
# Literals in another place

What a literal denotes is read from its text and from the texts of its parts, so it is the same wherever
the literal stands.

* `segments_shift`       neighbouring parts of text are joined in the same way;
* `regexpContent?_le`    the content of a regular expression is no longer than its text;
* `string_alike`, `regexp_alike`, `pair_alike`   one lemma for each kind of literal.
-/

namespace RubyLint.Ruby.Layout

open Text (byteLength byteLength_append)

@[simp] theorem outline_symTerm (name : List Char) :
    (symTerm name).outline = .value (.sym (String.ofList name)) := Term.outline_value _

/-! ## segments -/

def Segment.shift (a : Nat) : Segment → Segment
  | .literal span => .literal (span.shift a)
  | .interpolation c => .interpolation (c.shift a)

def Segment.Inside (n : Nat) : Segment → Prop
  | .literal span => span.stop ≤ n
  | .interpolation c => c.Inside n

theorem segments_shift (a : Nat) (cs : List Concrete) :
    segments (cs.map (Concrete.shift a)) = (segments cs).map (Segment.shift a) := by
  induction cs with
  | nil => rfl
  | cons c cs ih =>
    rw [List.map_cons, segments, segments, Concrete.shift_construct, Concrete.shift_span, ih]
    split
    · rfl
    · cases segments cs with
      | nil => rfl
      | cons s rest =>
        cases s with
        | interpolation d => rfl
        | literal span =>
          show Segment.literal ((c.span.shift a).join (span.shift a)) :: _ = _
          rw [Span.shift_join]
          rfl

theorem segments_inside {n : Nat} {cs : List Concrete} (h : ∀ c ∈ cs, c.Inside n) :
    ∀ s ∈ segments cs, s.Inside n := by
  induction cs with
  | nil => exact fun _ hs => absurd hs List.not_mem_nil
  | cons c cs ih =>
    obtain ⟨hc, hcs⟩ := List.forall_mem_cons.1 h
    have hrest := ih hcs
    rw [segments]
    split
    · exact List.forall_mem_cons.2 ⟨hc, hrest⟩
    · split
      · next span rest heq =>
        obtain ⟨hspan, hrest⟩ := List.forall_mem_cons.1 (heq ▸ hrest)
        exact List.forall_mem_cons.2 ⟨Nat.max_le.2 ⟨hc.stop_le, hspan⟩, hrest⟩
      · exact List.forall_mem_cons.2 ⟨hc.stop_le, hrest⟩

theorem hasInterpolation_shift (a : Nat) (c : Concrete) :
    hasInterpolation (c.shift a) = hasInterpolation c := by
  rw [hasInterpolation, Concrete.shift_named, List.any_map, hasInterpolation]
  exact congrArg _ (funext fun d => by rw [Function.comp, Concrete.shift_construct])

/-! ## the content of a regular expression -/

theorem lastOffset?_le {c : Char} {text : List Char} {k : Nat} (h : lastOffset? c text = some k) :
    k ≤ byteLength text := by
  unfold lastOffset? at h
  split at h
  · cases h
  · next x before heq =>
    obtain rfl := Option.some.inj h
    obtain ⟨front, hfront⟩ := heq ▸ List.dropWhile_suffix (· != c) (l := text.reverse)
    have hlength := congrArg byteLength hfront
    rw [byteLength_append, byteLength_reverse, Text.byteLength_cons] at hlength
    omega

theorem regexpContent?_le {text : List Char} {start stop : Nat}
    (h : regexpContent? text = some (start, stop)) : stop ≤ byteLength text := by
  have hlast : ∀ {first : Nat} {closer : Char}, ((lastOffset? closer text).bind fun last =>
      if first ≤ last then some (first, last) else none) = some (start, stop) →
        stop ≤ byteLength text := by
    intro first closer h
    obtain ⟨last, hlast, h⟩ := Option.bind_eq_some_iff.1 h
    split at h
    · obtain ⟨-, rfl⟩ := Prod.mk.inj (Option.some.inj h)
      exact lastOffset?_le hlast
    · cases h
  unfold regexpContent? at h
  extract_lets rest at h
  split at h
  · exact hlast h
  · exact hlast h
  · cases h

theorem contentStop_le (text : List Char) :
    ((regexpContent? text).getD (0, byteLength text)).2 ≤ byteLength text := by
  cases hcontent : regexpContent? text with
  | none => exact Nat.le_refl _
  | some offsets => exact regexpContent?_le hcontent

theorem start_add_byteLength_le (l : Layout) {span : Span} (h : span.start ≤ span.stop) :
    span.start + byteLength (l.textAt span) ≤ span.stop := by
  unfold textAt
  cases hslice : Text.slice l.source span.start span.stop with
  | none => exact h
  | some text =>
    obtain ⟨_, _, -, -, hstop⟩ := Text.slice_eq_some_iff.1 hslice
    exact Nat.le_of_eq hstop

/-! ## the literals -/

namespace Relocates

variable {l l' : Layout} {a n : Nat} {c : Concrete}
variable (h : l.Relocates l' a n) (hc : c.Inside n)

include h

theorem literalPart_eq {span : Span} (hspan : span.stop ≤ n) (unescape : Bool) :
    (l.literalPart (span.shift a) unescape).outline = (l'.literalPart span unescape).outline := by
  rw [literalPart, literalPart, outline_plainTerm, outline_plainTerm, h.textAt span hspan]

theorem interpolated_alike {cs : List Concrete} (hcs : ∀ d ∈ cs, d.Inside n) (unescape : Bool) :
    Alike (List.map Term.outline) (l.interpolated (cs.map (Concrete.shift a)) unescape)
      (l'.interpolated cs unescape) := by
  unfold interpolated
  rw [segments_shift]
  refine .mapM (List.forall₂_map_left_iff.2 (List.forall₂_same.2 fun s hs => ?_))
  have hinside := segments_inside hcs s hs
  cases s with
  | literal span => exact .pure (h.literalPart_eq hinside unescape)
  | interpolation d => exact h.below d hinside

include hc

theorem string_alike : Alike Term.outline (l.string (c.shift a)) (l'.string c) := by
  unfold string
  rw [h.text_eq hc, hasInterpolation_shift, Concrete.shift_named]
  split
  · exact (h.interpolated_alike hc.named _).bind fun ts ts' hts => .pure (by
      rw [Term.outline_node, Term.outline_node, hts])
  · exact .pure (by rw [Term.outline_node, Term.outline_node])

theorem delimitedSymbol_alike :
    Alike Term.outline (l.delimitedSymbol (c.shift a)) (l'.delimitedSymbol c) := by
  unfold delimitedSymbol
  rw [h.text_eq hc, hasInterpolation_shift, Concrete.shift_named]
  split
  · exact (h.interpolated_alike hc.named true).bind fun ts ts' hts => .pure (by
      rw [outline_plainTerm, outline_plainTerm, hts])
  · exact .pure (by rw [outline_plainTerm, outline_plainTerm])

theorem regexp_alike : Alike Term.outline (l.regexp (c.shift a)) (l'.regexp c) := by
  unfold regexp
  rw [h.text_eq hc, hasInterpolation_shift, Concrete.shift_named, Concrete.shift_span]
  dsimp only
  have hstop := contentStop_le (l'.text c)
  generalize (regexpContent? (l'.text c)).getD (0, byteLength (l'.text c)) = offsets at hstop ⊢
  obtain ⟨start, stop⟩ := offsets
  have hlength := start_add_byteLength_le l' hc.start_le
  have hinside : c.span.start + stop ≤ n :=
    Nat.le_trans (Nat.le_trans (Nat.add_le_add_left hstop _) hlength) hc.stop_le
  have hcontent : (⟨(c.span.shift a).start + start, (c.span.shift a).start + stop⟩ : Span) =
      Span.shift a ⟨c.span.start + start, c.span.start + stop⟩ := by
    simp only [Span.shift, Nat.add_assoc]
  have hflags : l.textAt ⟨min ((c.span.shift a).start + stop + 1) (c.span.shift a).stop,
      (c.span.shift a).stop⟩ = l'.textAt ⟨min (c.span.start + stop + 1) c.span.stop, c.span.stop⟩ := by
    have hspan := h.textAt ⟨min (c.span.start + stop + 1) c.span.stop, c.span.stop⟩ hc.stop_le
    rwa [Span.shift, ← Nat.add_min_add_left, ← Nat.add_assoc, ← Nat.add_assoc] at hspan
  -- the parts, with the options behind them
  have hnode : ∀ {ts ts' flags : List Term} {span span' options options' : Span} {loc loc' : Loc},
      ts.map Term.outline = ts'.map Term.outline → Alike Term.outline
        (pure (.node .regexp span loc (ts ++ [plainTerm .regexpOptions options flags])))
        (pure (.node .regexp span' loc' (ts' ++ [plainTerm .regexpOptions options' flags]))) := by
    intro ts ts' flags _ _ _ _ _ _ hts
    refine .pure ?_
    simp only [Term.outline_node, List.map_append, hts, List.map_cons, outline_plainTerm]
  rw [hcontent, hflags, Span.shift_isEmpty]
  split
  · exact (h.interpolated_alike hc.named false).bind fun ts ts' hts => hnode hts
  · split
    · exact hnode rfl
    · exact hnode (congrArg (fun t => [t]) (h.literalPart_eq hinside false))

theorem pair_alike : Alike Term.outline (l.pair (c.shift a)) (l'.pair c) := by
  unfold pair
  refine (h.part_alike hc).bind fun key key' hkey => (h.part_alike hc).bind fun value value' hvalue =>
    .pure ?_
  simp only [Term.outline_node, List.map_cons, List.map_nil, outline_orNil, hkey, hvalue]

end Relocates

end RubyLint.Ruby.Layout
