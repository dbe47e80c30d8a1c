import Mathlib.Data.List.Pairwise
import RubyLint.Proofs.Reading.Grammar
import RubyLint.Ruby.Automaton.Reading

/-!
# Parts

A part that has been read for a symbol (`Part.Holds`) stands in the text, and the nodes in it are sound and
stand one behind the other.  Where it may become a node of a construct whose parts have places of their own,
they stand there.

* `Part.Holds.sound_node`   a part becomes a sound node;
* `Part.Holds.left`         what a part leaves in the node around it;
-/

namespace RubyLint.Ruby

theorem Construct.mark_eq_token {k : Construct} : k.mark = .token ↔ k = .token := by
  cases k <;> simp [mark]

theorem Construct.mark_eq_parameters {k : Construct} : k.mark = .parameters ↔ k = .blockParameters := by
  cases k <;> simp [mark]

theorem Construct.mark_eq_body {k : Construct} : k.mark = .body ↔ k ∈ [.blockBody, .bodyStatement] := by
  cases k <;> simp [mark]

namespace Part

/-- The node that a part becomes. -/
def node (part : Part) (role : Role) (k : Construct) : Concrete :=
  .node role k part.span (kept part.inside).reverse

/-- The traits of the nodes in a part, in the order in which they stand. -/
def traits (part : Part) : List Trait := part.inside.reverse.map Concrete.trait

/-- The part has been read for the symbol. -/
structure Holds (source : List Char) (X : Symbol) (part : Part) : Prop where
  cuts : part.span.Cuts source
  inside : ∀ c ∈ part.inside, part.span.contains c.span = true
  ordered : Span.InOrder (part.inside.reverse.map Concrete.span)
  sound : ∀ c ∈ part.inside, c.Sound source
  mark : part.construct.map Construct.mark = X.mark?
  made : ∀ k ∈ part.construct, k.MayBe X
  leaf : ∀ code, X = .terminal code → part.inside = []
  shape : ∀ n, X = .nonterminal n → ∀ M ∈ shapes? n, part.traits ∈ M
  text : ∀ e ∈ Terminal.spelled, X = .ofTerminal e.1 → Covers source part.span e.2
  call : X ∈ Symbol.calls → ∀ role k, (part.node role k).IsCall
  opened : X ∈ Symbol.blocks → ∀ role k, (part.node role k).IsOpened source
  block : X ∈ Symbol.blocks → ∀ role k, (part.node role k).IsBlock
  regex : X = .regex → ∀ role k, (part.node role k).IsRegex source
  scope : X ∈ Symbol.scopes → ∀ role k, (part.node role k).part? .scope = none →
    ∃ rest, Covers source part.span (':' :: ':' :: rest)
  method : X ∈ Symbol.methods ++ Symbol.methodRests → ∀ c ∈ part.inside, IsMethodTrait c.trait

section
variable {source : List Char} {X : Symbol} {part : Part} {role : Role} {k : Construct} {c : Concrete}

theorem mem_kept {cs : List Concrete} : c ∈ kept cs ↔ c ∈ cs ∧ c.trait ≠ (.plain, .token) := by
  unfold kept
  rw [List.mem_filter]
  refine and_congr_right fun _ => ?_
  simp only [Concrete.isToken, Concrete.trait, ne_eq, Prod.mk.injEq, Construct.mark_eq_token,
    Bool.not_eq_true', ← Bool.not_eq_true, Bool.and_eq_true, beq_iff_eq, and_comm]

theorem mem_node : c ∈ (part.node role k).children ↔ c ∈ part.inside ∧ c.trait ≠ (.plain, .token) :=
  List.mem_reverse.trans mem_kept

theorem sublist_node : (part.node role k).children.Sublist part.inside.reverse := by
  show (kept part.inside).reverse.Sublist part.inside.reverse
  exact (List.filter_sublist (l := part.inside)).reverse

/-- A part becomes a sound node, if it may become one of the construct. -/
theorem Holds.sound_node (h : part.Holds source X) (hk : k.MayBe X)
    (hrole : role = .block → X ∈ Symbol.blocks) : (part.node role k).Sound source := by
  obtain ⟨hcall, hregex, hscope, hmethod⟩ := hk
  have hlaidOut : (part.node role k).IsLaidOut source :=
    ⟨h.cuts, fun d hd => h.inside d (mem_node.1 hd).1, h.ordered.sublist (sublist_node.map Concrete.span),
      fun hr => h.opened (hrole hr) role k⟩
  refine .intro ⟨hlaidOut, ⟨fun hc => h.call (hcall hc) role k, fun hr => h.block (hrole hr) role k,
    fun hc => h.regex (hregex hc) role k, fun hc => h.scope (hscope hc) role k, fun hc hbody => ?_⟩⟩
    fun d hd => h.sound d (mem_node.1 hd).1
  -- without a body no node of a method is a statement of it
  refine List.pairwise_of_forall_mem_list fun d hd e _ hstatement => ?_
  obtain ⟨hpassed, hhead⟩ := hstatement
  rcases h.method (List.mem_append_left _ (hmethod hc)) d (mem_node.1 hd).1 with htoken | hpart
  · rw [Concrete.isPassedOver, Concrete.isToken, Construct.mark_eq_token.1 htoken] at hpassed
    cases hpassed
  · have hnone := List.find?_eq_none.1 hbody d hd
    have hrole : d.role ∈ [.name, .parameters, .object, .body] := hpart
    simp only [List.mem_cons, List.not_mem_nil, or_false, not_or, beq_iff_eq] at hrole hhead hnone
    obtain ⟨hobject, hname, hparameters⟩ := hhead
    simp only [hobject, hname, hparameters, hnone, or_false] at hrole

end

/-! ## what a part leaves -/

/-- The nodes that a part leaves in the node around it, in the order in which they stand. -/
def left (part : Part) (s : Step) : List Concrete := (part.nodes s).reverse

section
variable {source : List Char} {s : Step} {part : Part} {c : Concrete}

theorem left_eq_node {k : Construct} (h : s.construct.or part.construct = some k) :
    part.left s = [part.node s.role k] := by
  unfold left nodes
  rw [h]
  rfl

theorem left_eq_reverse (h : s.construct.or part.construct = none) (hrole : s.role = .plain) :
    part.left s = part.inside.reverse := by
  unfold left nodes
  rw [h]
  exact congrArg List.reverse (if_pos hrole)

theorem left_eq_inside (h : s.construct.or part.construct = none) : part.left s =
    part.inside.reverse.map fun c => if c.role = .plain then c.withRole s.role else c := by
  by_cases hplain : s.role = .plain
  · have hid : ∀ c : Concrete, (if c.role = .plain then c.withRole s.role else c) = c := by
      rintro ⟨role, k, span, children⟩
      split
      · next hrole => exact congrArg (Concrete.node · k span children) (hplain.trans (Eq.symm hrole))
      · rfl
    simp only [left_eq_reverse h hplain, hid, List.map_id']
  · unfold left nodes
    rw [h]
    exact (congrArg List.reverse (if_neg hplain)).trans List.map_reverse.symm

theorem block_mark? : ∀ X ∈ Symbol.blocks, X.mark? ≠ none := by decide +kernel

theorem methodRests_mark? : ∀ X ∈ Symbol.methodRests, X.mark? = none := by decide +kernel

theorem Holds.left_sound (h : part.Holds source s.symbol) (hs : s.Checked) (hc : c ∈ part.left s) :
    c.Sound source ∧ part.span.contains c.span = true := by
  cases hk : s.construct.or part.construct with
  | some k =>
    rw [left_eq_node hk] at hc
    obtain rfl := List.mem_singleton.1 hc
    have hmade : k.MayBe s.symbol :=
      (Option.or_eq_some_iff.1 hk).elim (hs.made k) fun hk => h.made k hk.2
    exact ⟨h.sound_node hmade fun hrole => (hs.block hrole).1, Span.contains_refl _⟩
  | none =>
    have hrole : s.role ≠ .block := by
      intro hrole
      have hmark := h.mark
      rw [(Option.or_eq_none_iff.1 hk).2] at hmark
      exact block_mark? _ (hs.block hrole).1 hmark.symm
    rw [left_eq_inside hk] at hc
    obtain ⟨d, hd, rfl⟩ := List.mem_map.1 hc
    have hd := List.mem_reverse.1 hd
    split
    · refine ⟨(h.sound d hd).withRole hrole, ?_⟩
      have hin := h.inside d hd
      cases d
      exact hin
    · exact ⟨h.sound d hd, h.inside d hd⟩

theorem Holds.left_ordered (h : part.Holds source s.symbol) :
    Span.InOrder ((part.left s).map Concrete.span) := by
  cases hk : s.construct.or part.construct with
  | some k =>
    rw [left_eq_node hk]
    exact List.pairwise_singleton _ _
  | none =>
    have hspan : ∀ c : Concrete, (if c.role = .plain then c.withRole s.role else c).span = c.span := by
      intro c
      split
      · cases c
        rfl
      · rfl
    have hspans : (part.left s).map Concrete.span = part.inside.reverse.map Concrete.span := by
      rw [left_eq_inside hk, List.map_map]
      exact List.map_congr_left fun c _ => hspan c
    exact hspans ▸ h.ordered

/-- What a part leaves is listed for its step. -/
theorem Holds.left_traits (h : part.Holds source s.symbol) {M : List (List Trait)}
    (hM : stepShapes? s = some M) : (part.left s).map Concrete.trait ∈ M := by
  have hmark : (s.construct.or part.construct).map Construct.mark =
      (s.construct.map Construct.mark).or s.symbol.mark? := by
    rw [← h.mark]
    cases s.construct <;> rfl
  unfold stepShapes? at hM
  rw [← hmark] at hM
  cases hk : s.construct.or part.construct with
  | some k =>
    rw [hk] at hM
    cases hM
    rw [left_eq_node hk]
    exact List.mem_singleton_self _
  | none =>
    rw [hk] at hM
    rw [left_eq_inside hk]
    cases hX : s.symbol with
    | terminal code =>
      rw [hX] at hM
      cases hM
      rw [h.leaf code hX]
      exact List.mem_singleton_self _
    | nonterminal n =>
      rw [hX] at hM
      obtain ⟨L, hL, rfl⟩ := Option.map_eq_some_iff.1 hM
      have htraits : (part.inside.reverse.map fun c => if c.role = .plain then c.withRole s.role else c).map
          Concrete.trait = part.traits.map (Trait.within s.role) := by
        rw [traits, List.map_map, List.map_map]
        refine List.map_congr_left ?_
        rintro ⟨r, k, span, children⟩ -
        show Concrete.trait (if r = .plain then _ else _) = if r = .plain then _ else _
        split <;> rfl
      rw [htraits]
      exact List.mem_map_of_mem (h.shape n hX L hL)

end

/-! ## parts one behind the other -/

/-- Parts that have been read for steps, one behind the other. -/
structure Sequence (source : List Char) (es : List (Step × Part)) : Prop where
  checked : ∀ e ∈ es, e.1.Checked
  holds : ∀ e ∈ es, e.2.Holds source e.1.symbol
  ordered : Span.InOrder (es.map fun e => e.2.span)

/-- The nodes that parts leave. -/
def leftAll (es : List (Step × Part)) : List Concrete := es.flatMap fun e => e.2.left e.1

section
variable {source : List Char} {es es' : List (Step × Part)} {e e' : Step × Part} {c : Concrete}

theorem Sequence.stop_le (h : Sequence source (es ++ es')) (he : e ∈ es) (he' : e' ∈ es') :
    e.2.span.stop ≤ e'.2.span.start := by
  have hordered := h.ordered
  rw [List.map_append] at hordered
  exact Span.InOrder.stop_le_start hordered (List.mem_map_of_mem he) (List.mem_map_of_mem he')

theorem Sequence.sound (h : Sequence source es) (hc : c ∈ leftAll es) :
    ∃ e ∈ es, c ∈ e.2.left e.1 ∧ c.Sound source ∧ e.2.span.contains c.span = true := by
  obtain ⟨e, he, hc⟩ := List.mem_flatMap.1 hc
  exact ⟨e, he, hc, (h.holds e he).left_sound (h.checked e he) hc⟩

theorem Sequence.ordered_left (h : Sequence source es) :
    Span.InOrder ((leftAll es).map Concrete.span) := by
  refine List.pairwise_map.2 (List.pairwise_flatMap.2 ⟨fun e he => ?_, ?_⟩)
  · exact List.pairwise_map.1 (h.holds e he).left_ordered
  · refine List.Pairwise.imp_of_mem ?_ (List.pairwise_map.1 h.ordered)
    intro e e' he he' hbefore c hc d hd
    have hc := Span.contains_iff.1 ((h.holds e he).left_sound (h.checked e he) hc).2
    have hd := Span.contains_iff.1 ((h.holds e' he').left_sound (h.checked e' he') hd).2
    omega

theorem Sequence.traits (h : Sequence source es) {M : List (List Trait)}
    (hM : sequenceShapes? (es.map Prod.fst) = some M) : (leftAll es).map Concrete.trait ∈ M := by
  induction es generalizing M with
  | nil =>
    cases hM
    exact List.mem_singleton_self _
  | cons e es ih =>
    obtain ⟨L, hL, hM⟩ := Option.bind_eq_some_iff.1 hM
    obtain ⟨N, hN, rfl⟩ := Option.map_eq_some_iff.1 hM
    have hrest : Sequence source es := ⟨fun e' he' => h.checked e' (List.mem_cons_of_mem e he'),
      fun e' he' => h.holds e' (List.mem_cons_of_mem e he'), (List.pairwise_cons.1 h.ordered).2⟩
    have hfirst := (h.holds e List.mem_cons_self).left_traits hL
    refine List.mem_flatMap.2 ⟨_, hfirst, List.mem_map.2 ⟨_, ih hrest hN, ?_⟩⟩
    exact List.map_append.symm

theorem Sequence.leave (h : Sequence source es) {P : List Trait → Prop}
    (hP : Leave P (es.map Prod.fst)) : P ((leftAll es).map Concrete.trait) := by
  obtain ⟨M, hM, hall⟩ := hP
  exact hall _ (h.traits hM)

/-- The span goes from the start of the first part to the end of the last. -/
structure Spans (es : List (Step × Part)) (span : Span) : Prop where
  start : ∃ e ∈ es.head?, e.2.span.start = span.start
  stop : ∃ e ∈ es.getLast?, e.2.span.stop = span.stop

theorem Sequence.start_le (h : Sequence source es) (hfirst : e ∈ es.head?) (he : e' ∈ es) :
    e' = e ∨ e.2.span.stop ≤ e'.2.span.start := by
  obtain ⟨rest, rfl⟩ := List.head?_eq_some_iff.1 hfirst
  rcases List.mem_cons.1 he with rfl | he
  · exact .inl rfl
  · exact .inr (h.stop_le (List.mem_singleton_self e) he)

theorem Sequence.le_stop (h : Sequence source es) (hlast : e ∈ es.getLast?) (he : e' ∈ es) :
    e' = e ∨ e'.2.span.stop ≤ e.2.span.start := by
  obtain ⟨front, rfl⟩ := List.getLast?_eq_some_iff.1 hlast
  rcases List.mem_append.1 he with he | he
  · exact .inr (h.stop_le he List.mem_cons_self)
  · exact .inl (List.mem_singleton.1 he)

theorem Sequence.contains (h : Sequence source es) {span : Span} (hspan : Spans es span) (he : e ∈ es) :
    span.contains e.2.span = true := by
  obtain ⟨first, hfirst, hstart⟩ := hspan.start
  obtain ⟨last, hlast, hstop⟩ := hspan.stop
  have hfirst' := (h.holds first (List.mem_of_mem_head? hfirst)).cuts.le
  have hlast' := (h.holds last (List.mem_of_getLast? hlast)).cuts.le
  refine Span.contains_iff.2 ⟨?_, ?_⟩
  · rcases h.start_le hfirst he with rfl | hle <;> omega
  · rcases h.le_stop hlast he with rfl | hle <;> omega

theorem Sequence.cuts (h : Sequence source es) {span : Span} (hspan : Spans es span) :
    span.Cuts source := by
  obtain ⟨first, hfirst, hstart⟩ := hspan.start
  obtain ⟨last, hlast, hstop⟩ := hspan.stop
  have hmem := List.mem_of_mem_head? hfirst
  have hin := Span.contains_iff.1 (h.contains hspan hmem)
  have hcuts := (h.holds first hmem).cuts
  have hle := hcuts.le
  exact ⟨by omega, hstart ▸ hcuts.start, hstop ▸ (h.holds last (List.mem_of_getLast? hlast)).cuts.stop⟩

end

/-! ## nodes whose parts have places of their own -/

section
variable {source : List Char} {part : Part} {role : Role} {k : Construct}

theorem isCall_node (h : IsCallShape part.traits) : (part.node role k).IsCall where
  ordered := by
    have hroles : part.traits.map Prod.fst = part.inside.reverse.map Concrete.role := List.map_map
    have hall := h.1
    rw [hroles] at hall
    exact ((sublist_node.map Concrete.role).filter _).trans hall
  called := by
    intro hblock
    obtain ⟨b, hb⟩ := Option.isSome_iff_exists.1 hblock
    have hrole : b.role = .block := Concrete.role_of_part? hb
    have hmem := (mem_node.1 (Concrete.mem_children_of_part? hb)).1
    have htraits : Role.block ∈ part.traits.map Prod.fst :=
      List.mem_map.2 ⟨b.trait, List.mem_map_of_mem (List.mem_reverse.2 hmem), hrole⟩
    obtain ⟨t, ht, hcalled⟩ := h.2 htraits
    obtain ⟨d, hd, rfl⟩ := List.mem_map.1 ht
    refine ⟨d, mem_node.2 ⟨List.mem_reverse.1 hd, fun htoken => ?_⟩, hcalled⟩
    rw [htoken] at hcalled
    exact absurd hcalled (by decide)

theorem Holds.left_token {s : Step} {c : Concrete} (h : part.Holds source s.symbol) (hs : s.IsToken)
    (hc : c ∈ part.left s) : c.trait = (.plain, .token) := by
  have hmark : (s.construct.or part.construct).map Construct.mark = some .token := by
    rw [← hs.2, ← h.mark]
    cases s.construct <;> rfl
  obtain ⟨k, hk, hk'⟩ := Option.map_eq_some_iff.1 hmark
  rw [left_eq_node hk] at hc
  obtain rfl := List.mem_singleton.1 hc
  show (s.role, k.mark) = _
  rw [hs.1, hk']

variable {es : List (Step × Part)} {p : Production} {span : Span}

theorem exists_head (hsteps : es.map Prod.fst = p.steps) {P : Step → Prop}
    (h : ∃ s ∈ p.steps.head?, P s) : ∃ e ∈ es.head?, P e.1 := by
  obtain ⟨s, hs, hP⟩ := h
  rw [← hsteps, List.head?_map] at hs
  obtain ⟨e, he, rfl⟩ := Option.map_eq_some_iff.1 hs
  exact ⟨e, he, hP⟩

theorem exists_last (hsteps : es.map Prod.fst = p.steps) {P : Step → Prop}
    (h : ∃ s ∈ p.steps.getLast?, P s) : ∃ e ∈ es.getLast?, P e.1 := by
  obtain ⟨s, hs, hP⟩ := h
  rw [← hsteps, List.getLast?_map] at hs
  obtain ⟨e, he, rfl⟩ := Option.map_eq_some_iff.1 hs
  exact ⟨e, he, hP⟩

theorem Sequence.front (h : Sequence source es) (hspan : Spans es span) {e : Step × Part}
    (he : e ∈ es.head?) {text : List Char} (htext : Covers source e.2.span text) :
    e.2.span.start = span.start ∧ ∃ rest, Covers source span (text ++ rest) := by
  obtain ⟨first, hfirst, hstart⟩ := hspan.start
  obtain rfl := Option.some.inj (he.symm.trans hfirst)
  have hin := Span.contains_iff.1 (h.contains hspan (List.mem_of_mem_head? he))
  exact ⟨hstart, htext.extend (h.cuts hspan) hstart hin.2⟩

/-- The first part opens a regular expression, and the last one closes it. -/
def Delimited (source : List Char) (es : List (Step × Part)) : Prop :=
  ∃ first ∈ es.head?, ∃ last ∈ es.getLast?, ∃ opener closer flags, Concrete.opensRegex opener closer ∧
    closer.utf8Size = 1 ∧ closer ∉ flags ∧ first.2.span.stop ≤ last.2.span.start ∧
    Covers source first.2.span opener ∧ Covers source last.2.span (closer :: flags)

variable (h : Sequence source es) (hp : p.Checked) (hsteps : es.map Prod.fst = p.steps)
  (hspan : Spans es span)
include h hp hsteps hspan

theorem Sequence.isBlock (hX : .nonterminal p.goal ∈ Symbol.blocks) :
    ((⟨span, p.construct, (leftAll es).reverse⟩ : Part).node role k).IsOpened source ∧
      ((⟨span, p.construct, (leftAll es).reverse⟩ : Part).node role k).IsBlock := by
  obtain ⟨hopens, htraits⟩ := hp.block hX
  obtain ⟨e, he, htoken, hsymbol⟩ := exists_head hsteps hopens
  have hmem := List.mem_of_mem_head? he
  have hcover : ∃ opener ∈ [['{'], ['d', 'o']], Covers source e.2.span opener := by
    rcases List.mem_cons.1 hsymbol with hsymbol | hsymbol
    · exact ⟨_, List.mem_cons_self, (h.holds e hmem).text _ List.mem_cons_self hsymbol⟩
    · exact ⟨_, List.mem_cons_of_mem _ List.mem_cons_self,
        (h.holds e hmem).text _ (List.mem_cons_of_mem _ List.mem_cons_self) (List.mem_singleton.1 hsymbol)⟩
  obtain ⟨opener, hopener, hcover⟩ := hcover
  obtain ⟨hstart, hrest⟩ := h.front hspan he hcover
  have hchild : ∀ {d}, d ∈ ((⟨span, p.construct, (leftAll es).reverse⟩ : Part).node role k).children →
      ∃ e' ∈ es, d ∈ e'.2.left e'.1 ∧ d.trait ≠ (.plain, .token) ∧ e'.2.span.contains d.span = true := by
    intro d hd
    obtain ⟨hd, htrait⟩ := mem_node.1 hd
    obtain ⟨e', he', hd, -, hin⟩ := h.sound (List.mem_reverse.1 hd)
    exact ⟨e', he', hd, htrait, hin⟩
  have htrait : ∀ {d}, d ∈ ((⟨span, p.construct, (leftAll es).reverse⟩ : Part).node role k).children →
      d.trait ∈ [(.parameters, .parameters), (.body, .body)] := by
    intro d hd
    obtain ⟨e', he', hd, htrait, -⟩ := hchild hd
    have hone : Sequence source [e'] := ⟨List.forall_mem_singleton.2 (h.checked e' he'),
      List.forall_mem_singleton.2 (h.holds e' he'), List.pairwise_singleton _ _⟩
    have hleave := hone.leave (htraits e'.1 (hsteps ▸ List.mem_map_of_mem he'))
    rw [leftAll, List.flatMap_singleton] at hleave
    exact (List.mem_cons.1 (hleave d.trait (List.mem_map_of_mem hd))).resolve_left htrait
  refine ⟨⟨opener, hopener, hrest, fun d hd => ?_⟩, fun d hd => ?_, fun d hd => ?_⟩
  · obtain ⟨e', he', hd, htrait, hin⟩ := hchild (Concrete.mem_children_of_named hd)
    have hin := Span.contains_iff.1 hin
    have hstop := hcover.stop_eq
    rcases h.start_le he he' with rfl | hle
    · exact absurd ((h.holds _ he').left_token htoken hd) htrait
    · show span.start + _ ≤ d.span.start
      omega
  · refine Construct.mark_eq_parameters.1 ?_
    have htrait := htrait (Concrete.mem_children_of_part? hd)
    rw [Concrete.trait, Concrete.role_of_part? hd] at htrait
    simpa using htrait
  · refine Construct.mark_eq_body.1 ?_
    have htrait := htrait (Concrete.mem_children_of_part? hd)
    rw [Concrete.trait, Concrete.role_of_part? hd] at htrait
    simpa using htrait

theorem Sequence.scope (hX : .nonterminal p.goal ∈ Symbol.scopes)
    (hnone : ((⟨span, p.construct, (leftAll es).reverse⟩ : Part).node role k).part? .scope = none) :
    ∃ rest, Covers source span (':' :: ':' :: rest) := by
  rcases hp.scope hX with hroot | hscope
  · obtain ⟨e, he, hsymbol⟩ := exists_head hsteps hroot
    have hcover := (h.holds e (List.mem_of_mem_head? he)).text (.sign "::", [':', ':'])
      (List.mem_cons_of_mem _ (List.mem_cons_of_mem _ List.mem_cons_self)) hsymbol
    exact (h.front hspan he hcover).2
  · obtain ⟨t, ht, hrole⟩ := h.leave (hsteps ▸ hscope)
    obtain ⟨c, hc, rfl⟩ := List.mem_map.1 ht
    have hchild : c ∈ ((⟨span, p.construct, (leftAll es).reverse⟩ : Part).node role k).children := by
      refine mem_node.2 ⟨List.mem_reverse.2 hc, fun htoken => ?_⟩
      rw [htoken] at hrole
      cases hrole
    exact absurd (beq_iff_eq.2 hrole) (List.find?_eq_none.1 hnone c hchild)

theorem Sequence.isRegex (hX : .nonterminal p.goal = Symbol.regex) (hdelimited : Delimited source es) :
    ((⟨span, p.construct, (leftAll es).reverse⟩ : Part).node role k).IsRegex source := by
  obtain ⟨first, hfirst, last, hlast, opener, closer, flags, hopens, hsize, hflags, hle, hopener, hclosing⟩ :=
    hdelimited
  obtain ⟨e, he, htoken⟩ := exists_last hsteps (hp.regex hX).2
  obtain rfl := Option.some.inj (he.symm.trans hlast)
  have hfirst' := (h.holds first (List.mem_of_mem_head? hfirst)).cuts
  have hlast' := (h.holds e (List.mem_of_getLast? hlast)).cuts
  have hmiddle : (⟨first.2.span.stop, e.2.span.start⟩ : Span).Cuts source :=
    ⟨hle, hfirst'.stop, hlast'.start⟩
  obtain ⟨body, hbody⟩ := exists_covers hmiddle
  obtain ⟨first', hhead, hstart⟩ := hspan.start
  obtain rfl := Option.some.inj (hfirst.symm.trans hhead)
  obtain ⟨last', hend, hstop⟩ := hspan.stop
  obtain rfl := Option.some.inj (hlast.symm.trans hend)
  have hfront : Covers source ⟨span.start, e.2.span.start⟩ (opener ++ body) :=
    Covers.append (by rwa [← hstart]) hbody
  have htext : Covers source span (opener ++ body ++ closer :: flags) :=
    Covers.append hfront (by rwa [← hstop])
  refine ⟨opener, body, closer, flags, hopens, htext, hsize, hflags, fun d hd => ?_⟩
  obtain ⟨hd, htrait⟩ := mem_node.1 (Concrete.mem_children_of_named hd)
  obtain ⟨e', he', hd, -, hin⟩ := h.sound (List.mem_reverse.1 hd)
  have hin := Span.contains_iff.1 hin
  have hlength : span.start + Text.byteLength (opener ++ body) = e.2.span.start := hfront.stop_eq
  rcases h.le_stop hlast he' with rfl | hbefore
  · exact absurd ((h.holds _ he').left_token htoken hd) htrait
  · show d.span.stop ≤ span.start + _
    omega

omit hspan in
theorem Sequence.isMethod (hX : .nonterminal p.goal ∈ Symbol.methods ++ Symbol.methodRests) :
    ∀ c ∈ leftAll es, IsMethodTrait c.trait := by
  intro c hc
  obtain ⟨e, he, hc, -⟩ := h.sound hc
  have hholds := h.holds e he
  have hstep : e.1 ∈ p.steps := hsteps ▸ List.mem_map_of_mem he
  rcases hp.method hX e.1 hstep with hleave | ⟨hrests, hrole, hconstruct⟩
  · have hone : Sequence source [e] := ⟨List.forall_mem_singleton.2 (h.checked e he),
      List.forall_mem_singleton.2 hholds, List.pairwise_singleton _ _⟩
    have hleave := hone.leave hleave
    rw [leftAll, List.flatMap_singleton] at hleave
    exact hleave c.trait (List.mem_map_of_mem hc)
  · have hmark := hholds.mark
    rw [methodRests_mark? _ hrests, Option.map_eq_none_iff] at hmark
    have hnone : e.1.construct.or e.2.construct = none := by rw [hconstruct, hmark]; rfl
    rw [left_eq_reverse hnone hrole] at hc
    exact hholds.method (List.mem_append_right _ hrests) c (List.mem_reverse.1 hc)

/-- **The parts of a production make a part that has been read for its phrase.** -/
theorem Sequence.combine (hdelimited : .nonterminal p.goal = Symbol.regex → Delimited source es) :
    (⟨span, p.construct, (leftAll es).reverse⟩ : Part).Holds source (.nonterminal p.goal) := by
  have hordered := h.ordered_left
  have htraits : ∀ {P : List Trait → Prop}, Leave P p.steps →
      P (⟨span, p.construct, (leftAll es).reverse⟩ : Part).traits := by
    intro P hP
    have hleave := h.leave (hsteps ▸ hP)
    rwa [← List.reverse_reverse (leftAll es)] at hleave
  rw [← List.reverse_reverse (leftAll es)] at hordered
  refine ⟨h.cuts hspan, fun c hc => ?_, hordered, fun c hc => ?_, hp.mark, hp.made,
    nofun, fun n hX M hM => ?_, nofun,
    fun hX role k => isCall_node (htraits (hp.call hX)),
    fun hX role k => (h.isBlock hp hsteps hspan hX).1,
    fun hX role k => (h.isBlock hp hsteps hspan hX).2,
    fun hX role k => h.isRegex hp hsteps hspan hX (hdelimited hX),
    fun hX role k => h.scope hp hsteps hspan hX,
    fun hX c hc => h.isMethod hp hsteps hX c (List.mem_reverse.1 hc)⟩
  · obtain ⟨e, he, -, -, hin⟩ := h.sound (List.mem_reverse.1 hc)
    exact Span.contains_trans (h.contains hspan he) hin
  · obtain ⟨-, -, -, hsound, -⟩ := h.sound (List.mem_reverse.1 hc)
    exact hsound
  · cases hX
    exact htraits (hp.listed M hM)

end

end Part

end RubyLint.Ruby
