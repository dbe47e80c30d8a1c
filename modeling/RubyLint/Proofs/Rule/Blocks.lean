import RubyLint.Proofs.Pattern.Reach
import RubyLint.Proofs.Rule.Finding
import RubyLint.Proofs.Rule.Matching
import RubyLint.Rule.Accumulation
import RubyLint.Rule.Block

/-!
# The rules about blocks

The name in the call of a block stands in front of the parameters, and these stand in front of the
body; `reduceMerge` edits all three.
-/

namespace RubyLint.Rule

open Pattern (Captures Condition Derivation)

section
variable {t : SyntaxTree} {n m : Node t} {caps : Captures t}

/-! ## sorting -/

def sortWithBlockCompiled : Pattern.Compiled sortWithBlock := .ofText
  (.exactly (.kind .block) [
    .capture 0 (.exactly (.kind .send) [.wildcard, .literal (.sym "sort")]),
    .exactly (.kind .args) [.exactly (.kind .arg) [.capture 1 .wildcard],
      .exactly (.kind .arg) [.capture 2 .wildcard]],
    .capture 3 (.kind .send)])
  (by decide +kernel)

theorem sends_of_sortWithBlock (hm : sortWithBlock.match? n = some caps)
    (hcall : caps.node? 0 = some m) : n.kind = .block ∧ n.Covers m ∧ m.Sends ["sort"] := by
  obtain ⟨d, hd, hcaps⟩ := sortWithBlockCompiled.exists_derives hm
  obtain ⟨r, k, rest, hkind, hchildren, hcovers, hsends, hlast⟩ :=
    (capturesCall_capture ["sort"] rfl rfl).first hd (by decide)
  obtain rfl := eq_of_node? hcaps hlast hcall
  have hr := Node.mem_childNodes_of_childNode? (Node.childNode?_zero hchildren)
  exact ⟨hkind, .through hr hcovers, hsends⟩

theorem encloses_sortBlock (ht : t.WellFormed) {isReversed : Bool} {b : SortBlock}
    (h : sortBlock? n isReversed = some b) : n.Encloses b.span := by
  obtain ⟨caps, hm, h⟩ := Option.bind_eq_some_iff.1 h
  obtain ⟨call, hcall, h⟩ := Option.bind_eq_some_iff.1 h
  obtain ⟨first, -, h⟩ := Option.bind_eq_some_iff.1 h
  obtain ⟨second, -, h⟩ := Option.bind_eq_some_iff.1 h
  obtain ⟨body, -, h⟩ := Option.bind_eq_some_iff.1 h
  obtain ⟨_, -, h⟩ := Option.bind_eq_some_iff.1 h
  obtain ⟨selector, hselector, h⟩ := Option.bind_eq_some_iff.1 h
  obtain ⟨closing, hclosing, h⟩ := Option.bind_eq_some_iff.1 h
  cases h
  obtain ⟨hblock, hcovers, hsends⟩ := sends_of_sortWithBlock hm hcall
  have hinner := hsends.encloses_selector ht (by decide) hselector
  have hselector' := (ht.encloses_covered hcovers).trans hinner
  exact hselector'.upTo (ht.encloses_blockClosing (ht.orders_block n hblock) hclosing)

theorem sortVerdict_answers (ht : t.WellFormed) (n : Node t) :
    Verdict.Answers (fun f => f.SoundAt n) (sortVerdict n) := by
  refine .ofOption fun f hf => ?_
  obtain ⟨b, hb, hf⟩ := Option.bind_eq_some_iff.1 hf
  cases hf
  exact .replacing (encloses_sortBlock ht hb) (encloses_sortBlock ht hb) _ _

theorem redundantSortBlock_sound : redundantSortBlock.Sound :=
  sound_of_answers (fun _ _ => rfl) fun ht _ n => sortVerdict_answers ht n

theorem sortReverseVerdict_answers (ht : t.WellFormed) (n : Node t) :
    Verdict.Answers (fun f => f.SoundAt n) (sortReverseVerdict n) := by
  refine .ofOption fun f hf => ?_
  obtain ⟨b, hb, hf⟩ := Option.bind_eq_some_iff.1 hf
  cases hf
  exact .replacing (encloses_sortBlock ht hb) (encloses_sortBlock ht hb) _ _

theorem sortReverse_sound : sortReverse.Sound :=
  sound_of_answers (fun _ _ => rfl) fun ht _ n => sortReverseVerdict_answers ht n

/-! ## yielding -/

theorem yieldVerdict_answers (ht : t.WellFormed) (n : Node t) :
    Verdict.Answers (fun f => f.SoundAt n) (yieldVerdict n) := by
  rw [yieldVerdict]
  split
  · exact .found (.plain (ht.encloses_span n) _)
  · exact .nothing

theorem unnecessaryStackframe_sound : unnecessaryStackframe.Sound :=
  sound_of_answers (fun _ _ => rfl) fun ht _ n => yieldVerdict_answers ht n

/-! ## merging -/

def mergeCall : Condition :=
  .capture 3 (.around (.kind .send)
    [.exactly (.kind .localVar) [.capture 4 .wildcard], .literal (.sym "merge")]
    .wildcard .anyNumber none [])

set_option maxRecDepth 4000 in
def reduceWithMergeCompiled : Pattern.Compiled reduceWithMerge := .ofText
  (.exactly (.kind .block) [
    .capture 0 (.exactly (.kind .send) [.wildcard, .literal (.sym "reduce"),
      .union [.kind .hash, .exactly (.kind .send) [
        .exactly (.kind .constant) [.builtin .absent, .literal (.sym "Hash")],
        .literal (.sym "new")]]]),
    .capture 1 (.around (.kind .args) [.exactly (.kind .arg) [.capture 2 .wildcard]]
      .wildcard .anyNumber none []),
    .union [.around (.kind .sequence) [] .wildcard .anyNumber none [mergeCall], mergeCall]])
  (by decide +kernel)

structure MergesInto (m : Node t) (name : NodeChild t) : Prop where
  kind : m.kind = .send
  exists_variable : ∃ v rest, m.children = .node v :: .value (.sym "merge") :: rest ∧
    v.kind = .localVar ∧ v.children = [name]

theorem mergeCall_inv {s : Pattern.Setting} {c : NodeChild t} {d : Derivation t}
    (h : mergeCall.Derives s c d) : ∃ m name, c = .node m ∧ MergesInto m name ∧
      d.bindings = [⟨4, .single name⟩, ⟨3, .single (.node m)⟩] := by
  obtain ⟨e, he, rfl⟩ := h.capture_inv
  obtain ⟨m, xs, ys, zs, fs, bs, rfl, hkind, hchildren, hfs, hbs, hbindings⟩ := he.aroundKind_inv
  obtain ⟨c, rest, e₁, es, rfl, rfl, hvariable, hrest⟩ := hfs.cons_inv
  obtain ⟨c', rest, e₂, es, rfl, rfl, hmerge, hrest⟩ := hrest.cons_inv
  obtain ⟨rfl, rfl⟩ := hrest.nil_inv
  obtain ⟨-, rfl⟩ := hbs.nil_inv
  obtain ⟨v, ds, rfl, hv, hds, he₁⟩ := hvariable.exactlyKind_inv
  obtain ⟨name, rest, e₃, es, hname, rfl, hcapture, hrest⟩ := hds.cons_inv
  obtain ⟨rfl, rfl⟩ := hrest.nil_inv
  obtain ⟨-, he₃⟩ := capture_inv hcapture rfl
  obtain rfl := eq_sym_of_literal hmerge.holds
  refine ⟨m, name, rfl, ⟨hkind, v, ys ++ zs, by simpa using hchildren, hv, hname⟩, ?_⟩
  have he₂ := Condition.bindings_eq_nil hmerge rfl
  simp [Derivation.bindings, hbindings, Derivation.bindingsEach, he₁, he₂, he₃]

theorem mergeBody_inv {s : Pattern.Setting} {c : NodeChild t} {d : Derivation t}
    (h : (Condition.union [.around (.kind .sequence) [] .wildcard .anyNumber none [mergeCall],
      mergeCall]).Derives s c d) : ∃ body m name, c = .node body ∧ body.Covers m ∧
      MergesInto m name ∧ d.bindings = [⟨4, .single name⟩, ⟨3, .single (.node m)⟩] := by
  obtain ⟨branch, hbranch, htaken⟩ := h.union_inv
  rcases List.mem_cons.1 hbranch.mem with rfl | hbranch
  · obtain ⟨body, xs, ys, zs, fs, bs, rfl, -, hchildren, hfs, hbs, hbindings⟩ :=
      htaken.aroundKind_inv
    obtain ⟨c, rest, e, es, rfl, rfl, hcall, hnil⟩ := hbs.cons_inv
    obtain ⟨-, rfl⟩ := hfs.nil_inv
    obtain ⟨-, rfl⟩ := hnil.nil_inv
    obtain ⟨m, name, rfl, hm, he⟩ := mergeCall_inv hcall
    have hmem : m ∈ body.childNodes := by
      rw [Node.mem_childNodes, hchildren]
      exact List.mem_append_right _ List.mem_cons_self
    refine ⟨body, m, name, rfl, .through hmem (.self m), hm, ?_⟩
    rw [hbindings]
    show [] ++ (e.bindings ++ []) = _
    rw [List.nil_append, List.append_nil, he]
  · obtain rfl := List.mem_singleton.1 hbranch
    obtain ⟨m, name, rfl, hm, he⟩ := mergeCall_inv htaken
    exact ⟨m, m, name, rfl, .self m, hm, he⟩

structure MergeBlock (n call parameters merge : Node t) : Prop where
  kind : n.kind = .block
  exists_first : ∃ r, n.childNode? 0 = some r ∧ r.Covers call
  sends : call.Sends ["reduce"]
  childNode?_one : n.childNode? 1 = some parameters
  exists_body : ∃ body, n.childNode? 2 = some body ∧ body.Covers merge
  isCall : merge.isCall = true

theorem exists_mergeBlock (hm : reduceWithMerge.match? n = some caps) :
    ∃ call parameters merge name, MergeBlock n call parameters merge ∧ MergesInto merge name ∧
      caps.get? 0 = some (.single (.node call)) ∧ caps.get? 1 = some (.single (.node parameters)) ∧
      caps.get? 3 = some (.single (.node merge)) ∧ caps.get? 4 = some (.single name) := by
  obtain ⟨d, hd, hcaps⟩ := reduceWithMergeCompiled.exists_derives hm
  obtain ⟨r, k, rest, hkind, hchildren, hcovers, hsends, hlast⟩ :=
    (capturesCall_capture ["reduce"] rfl rfl).first hd (by decide)
  obtain ⟨k', ds, hk, -, hds, hbindings⟩ := hd.exactlyKind_inv
  obtain rfl := NodeChild.node.inj hk
  obtain ⟨c₀, rest₀, e₀, es₀, hc₀, rfl, -, hrest₀⟩ := hds.cons_inv
  obtain ⟨c₁, rest₁, e₁, es₁, rfl, rfl, hparameters', hrest₁⟩ := hrest₀.cons_inv
  obtain ⟨c₂, rest₂, e₂, es₂, rfl, rfl, hbody, hrest₂⟩ := hrest₁.cons_inv
  obtain ⟨-, rfl⟩ := hrest₂.nil_inv
  obtain ⟨e, he, rfl⟩ := hparameters'.capture_inv
  obtain ⟨k₁, _, _, _, _, _, rfl, -⟩ := he.aroundKind_inv
  obtain ⟨body, m, name, rfl, hbelow, hm, he₂⟩ := mergeBody_inv hbody
  have hlast₁ : Captures.lastOf d.bindings 1 = some (.single (.node k₁)) := by
    -- behind the parameters, only the body binds anything, and it has other slots
    have hbehind : ∀ b ∈ Derivation.bindingsEach [e₂], b.slot ≠ 1 :=
      slot_ne_of_derivesEach hrest₁ (by decide)
    rw [hbindings, Derivation.bindingsEach, Derivation.bindingsEach, Derivation.bindings,
      ← List.append_assoc, lastOf_append hbehind, ← List.append_assoc, lastOf_snoc]
  have hbody : ∃ bs, d.bindings = bs ++ [⟨4, .single name⟩, ⟨3, .single (.node m)⟩] := by
    rw [hbindings, Derivation.bindingsEach, Derivation.bindingsEach, Derivation.bindingsEach, he₂,
      Derivation.bindingsEach, List.append_nil, ← List.append_assoc]
    exact ⟨_, rfl⟩
  obtain ⟨bs, hbs⟩ := hbody
  refine ⟨k, k₁, m, name, ⟨hkind, ⟨r, Node.childNode?_zero hchildren, hcovers⟩, hsends,
    Node.childNode?_one hc₀, ⟨body, Node.childNode?_two hc₀, hbelow⟩, Node.isCall_of_kind hm.kind⟩, hm,
    ?_, ?_, ?_, ?_⟩
  · rw [hcaps, hlast]
  · rw [hcaps, hlast₁]
  · rw [hcaps, hbs]
    simp [Captures.lastOf]
  · rw [hcaps, hbs]
    simp [Captures.lastOf]

theorem mergeBlock_of_reduceWithMerge {call parameters merge : Node t}
    (hm : reduceWithMerge.match? n = some caps) (hcall : caps.node? 0 = some call)
    (hparameters : caps.node? 1 = some parameters) (hmerge : caps.node? 3 = some merge) :
    MergeBlock n call parameters merge := by
  obtain ⟨call', parameters', merge', name, hblock, -, hget₀, hget₁, hget₃, -⟩ := exists_mergeBlock hm
  cases eq_node_of_get? hget₀ hcall
  cases eq_node_of_get? hget₁ hparameters
  cases eq_node_of_get? hget₃ hmerge
  exact hblock

theorem mergesInto_of_reduceWithMerge {merge : Node t} {name : String}
    (hm : reduceWithMerge.match? n = some caps) (hmerge : caps.node? 3 = some merge)
    (hname : caps.sym? 4 = some name) : MergesInto merge (.value (.sym name)) := by
  obtain ⟨_, _, merge', name', -, hinto, -, -, hget₃, hget₄⟩ := exists_mergeBlock hm
  cases eq_node_of_get? hget₃ hmerge
  cases eq_sym_of_get? hget₄ hname
  exact hinto

theorem MergeBlock.covers_merge {call parameters merge : Node t} (h : MergeBlock n call parameters merge) :
    n.Covers merge := by
  obtain ⟨body, hbody, hmerge⟩ := h.exists_body
  exact .through (Node.mem_childNodes_of_childNode? hbody) hmerge

/-- the name of the call, the parameters and the merge can be edited together -/
theorem MergeBlock.soundAt {call parameters merge : Node t} (ht : t.WellFormed)
    (h : MergeBlock n call parameters merge) {selector : Span}
    (hselector : call.loc.selector = some selector) (name names statements : String) :
    (((Correction.empty.replace selector name).replace parameters.span names).replace
      merge.span statements).SoundAt n := by
  obtain ⟨r, hr, hcall⟩ := h.exists_first
  obtain ⟨body, hbody, hmerge⟩ := h.exists_body
  have hblock := ht.orders_block n h.kind
  have hinner := (ht.encloses_covered hcall).trans
    (h.sends.encloses_selector ht (by decide) hselector)
  have hinner' := ht.encloses_covered hmerge
  have hselector' := (ht.encloses_child (Node.mem_childNodes_of_childNode? hr)).trans hinner
  have hparameters := ht.encloses_child (Node.mem_childNodes_of_childNode? h.childNode?_one)
  have hmerge' := (ht.encloses_child (Node.mem_childNodes_of_childNode? hbody)).trans hinner'
  -- the call of the block, its parameters and its body stand one behind the other
  have hfirst : selector.stop ≤ parameters.span.start :=
    Nat.le_trans hinner.le.2.2 (hblock.call_le_parameters hr h.childNode?_one)
  have hsecond : parameters.span.stop ≤ merge.span.start :=
    Nat.le_trans (hblock.parameters_le_body h.childNode?_one hbody) hinner'.le.1
  have hthird : selector.stop ≤ merge.span.start :=
    Nat.le_trans hfirst (Nat.le_trans hparameters.le.2.1 hsecond)
  have hpos := ht.selector_pos hselector
  exact .three hselector' hparameters hmerge' ⟨Or.inl hfirst, Or.inl hpos⟩
    ⟨Or.inl hthird, Or.inl hpos⟩ ⟨Or.inl hsecond, Or.inr (ht.call_pos merge h.isCall)⟩ _ _ _

end

end RubyLint.Rule
