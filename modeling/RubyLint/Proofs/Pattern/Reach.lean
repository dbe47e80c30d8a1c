import RubyLint.Proofs.Pattern.Compiled

/-!
# How far a capture reaches

A condition without `^` only looks at the child that it is asked of and at what stands below it, so
that its captures bind nothing else.

* `Condition.looksUp`      the condition goes to the parent of a node;
* `covers_of_node?`        if it does not, every captured node is the one that was matched, or stands
                           below it.
-/

namespace RubyLint

def NodeChild.Reaches {t : SyntaxTree} (c : NodeChild t) (m : Node t) : Prop :=
  ∃ n, c = .node n ∧ n.Covers m

namespace Pattern

namespace Condition

mutual

/-- the condition goes to the parent of a node; under a negation nothing is captured -/
def looksUp : Condition → Bool
  | .capture _ inner => inner.looksUp
  | .exactly head elements => head.looksUp || looksUpEach elements
  | .around head front middle _ _ back =>
    head.looksUp || looksUpEach front || middle.looksUp || looksUpEach back
  | .union branches => looksUpEach branches
  | .intersection terms => looksUpEach terms
  | .parent _ => true
  | .descendant inner => inner.looksUp
  | _ => false

def looksUpEach : List Condition → Bool
  | [] => false
  | p :: ps => p.looksUp || looksUpEach ps

end

theorem looksUpEach_eq_false {ps : List Condition} (h : looksUpEach ps = false) :
    ∀ p ∈ ps, p.looksUp = false := by
  induction ps with
  | nil => exact fun p hp => absurd hp List.not_mem_nil
  | cons q ps ih =>
    rw [looksUpEach, Bool.or_eq_false_iff] at h
    exact List.forall_mem_cons.2 ⟨h.1, ih h.2⟩

section
variable {s : Setting} {t : SyntaxTree}

def BindsBelow (bs : List (Binding t)) (c : NodeChild t) : Prop :=
  ∀ b ∈ bs, ∀ m ∈ b.capture.nodes, c.Reaches m

theorem BindsBelow.append {as bs : List (Binding t)} {c : NodeChild t} (ha : BindsBelow as c)
    (hb : BindsBelow bs c) : BindsBelow (as ++ bs) c := by
  intro b hmem
  rcases List.mem_append.1 hmem with hmem | hmem
  · exact ha b hmem
  · exact hb b hmem

theorem exists_reaches_of_derivesEach {ps : List Condition} {cs : List (NodeChild t)}
    {ds : List (Derivation t)}
    (h : ∀ p ∈ ps, ∀ {c : NodeChild t} {d : Derivation t}, Derives s p c d → BindsBelow d.bindings c)
    (hd : DerivesEach s ps cs ds) :
    ∀ b ∈ Derivation.bindingsEach ds, ∀ m ∈ b.capture.nodes, ∃ c ∈ cs, c.Reaches m := by
  induction ps generalizing cs ds with
  | nil =>
    obtain ⟨-, rfl⟩ := hd.nil_inv
    exact fun b hb => absurd hb List.not_mem_nil
  | cons p ps ih =>
    obtain ⟨c, rest, e, es, rfl, rfl, hp, hs⟩ := hd.cons_inv
    intro b hb m hm
    rcases List.mem_append.1 hb with hb | hb
    · exact ⟨c, List.mem_cons_self, h p List.mem_cons_self hp b hb m hm⟩
    · obtain ⟨c', hc', hreaches⟩ := ih (fun q hq => h q (List.mem_cons_of_mem _ hq)) hs b hb m hm
      exact ⟨c', List.mem_cons_of_mem _ hc', hreaches⟩

theorem bindsBelow_of_derivesEach {ps : List Condition} {cs : List (NodeChild t)}
    {ds : List (Derivation t)} {n : Node t}
    (h : ∀ p ∈ ps, ∀ {c : NodeChild t} {d : Derivation t}, Derives s p c d → BindsBelow d.bindings c)
    (hd : DerivesEach s ps cs ds) (hcs : ∀ c ∈ cs, c ∈ n.children) :
    BindsBelow (Derivation.bindingsEach ds) (.node n) := by
  intro b hb m hm
  obtain ⟨c, hc, k, rfl, hcovers⟩ := exists_reaches_of_derivesEach h hd b hb m hm
  exact ⟨n, rfl, .through (Node.mem_childNodes.2 (hcs _ hc)) hcovers⟩

theorem bindsBelow_of_derives {p : Condition} (hp : p.looksUp = false) {c : NodeChild t}
    {d : Derivation t} (h : Derives s p c d) : BindsBelow d.bindings c := by
  induction p using Condition.ind generalizing c d with
  | plain p hplain =>
    obtain ⟨-, rfl⟩ := h.plain_inv hplain
    exact fun b hb => absurd hb List.not_mem_nil
  | capture slot inner ih =>
    obtain ⟨e, he, rfl⟩ := h.capture_inv
    refine (ih hp he).append fun b hb m hm => ?_
    obtain rfl := List.mem_singleton.1 hb
    cases c with
    | node n =>
      obtain rfl : m = n := List.mem_singleton.1 hm
      exact ⟨m, rfl, .self m⟩
    | value v => exact absurd hm List.not_mem_nil
  | exactly head elements ihh ihe =>
    rw [looksUp, Bool.or_eq_false_iff] at hp
    obtain ⟨n, e, ds, rfl, hh, hds, rfl⟩ := h.exactly_inv
    have hall := looksUpEach_eq_false hp.2
    exact (ihh hp.1 hh).append
      (bindsBelow_of_derivesEach (fun p hmem => ihe p hmem (hall p hmem)) hds fun c hc => hc)
  | around head front middle arity slot back ihh ihf ihm ihb =>
    simp only [looksUp, Bool.or_eq_false_iff] at hp
    obtain ⟨⟨⟨hhead, hfront⟩, hmiddle⟩, hback⟩ := hp
    obtain ⟨n, xs, ys, zs, e, fs, bs, ms, rfl, hcut, hh, hf, hb, -, hm, rfl⟩ := h.around_inv
    have hxs : ∀ c ∈ xs, c ∈ n.children := fun c hc => by
      rw [hcut]
      exact List.mem_append_left _ (List.mem_append_left _ hc)
    have hys : ∀ c ∈ ys, c ∈ n.children := fun c hc => by
      rw [hcut]
      exact List.mem_append_left _ (List.mem_append_right _ hc)
    have hzs : ∀ c ∈ zs, c ∈ n.children := fun c hc => by
      rw [hcut]
      exact List.mem_append_right _ hc
    have hf' := bindsBelow_of_derivesEach
      (fun p hmem => ihf p hmem (looksUpEach_eq_false hfront p hmem)) hf hxs
    have hb' := bindsBelow_of_derivesEach
      (fun p hmem => ihb p hmem (looksUpEach_eq_false hback p hmem)) hb hzs
    have hm' := bindsBelow_of_derivesEach (fun p hmem => by
      obtain ⟨_, _, rfl⟩ := List.mem_map.1 hmem
      exact ihm hmiddle) hm hys
    rw [Derivation.bindings_around]
    refine (ihh hhead hh).append ((hf'.append hb').append (hm'.append fun b hmem m hmany => ?_))
    -- all that the middle element takes
    obtain ⟨k, -, rfl⟩ := List.mem_map.1 hmem
    obtain ⟨c, hc, hcm⟩ := List.mem_filterMap.1 hmany
    cases c with
    | node k =>
      obtain rfl : k = m := Option.some.inj hcm
      exact ⟨n, rfl, .through (Node.mem_childNodes.2 (hys _ hc)) (.self k)⟩
    | value v => cases hcm
  | union branches ih =>
    obtain ⟨p, hfirst, hd⟩ := h.union_inv
    exact ih p hfirst.mem (looksUpEach_eq_false hp p hfirst.mem) hd
  | intersection terms ih =>
    obtain ⟨ds, hds, rfl⟩ := h.intersection_inv
    intro b hb m hm
    have hall := looksUpEach_eq_false hp
    obtain ⟨c', hc', hreaches⟩ :=
      exists_reaches_of_derivesEach (fun p hmem => ih p hmem (hall p hmem)) hds b hb m hm
    obtain ⟨_, _, rfl⟩ := List.mem_map.1 hc'
    exact hreaches
  | negation inner _ =>
    obtain ⟨-, rfl⟩ := h.negation_inv
    exact fun b hb => absurd hb List.not_mem_nil
  | parent inner _ => cases hp
  | descendant inner ih =>
    cases c with
    | node n =>
      obtain ⟨k, hfirst, hd⟩ := h.descendant_inv
      intro b hb m hm
      obtain ⟨k', hk, hcovers⟩ := ih hp hd b hb m hm
      obtain rfl := NodeChild.node.inj hk
      exact ⟨n, rfl, (Node.mem_descendants.1 hfirst.mem).trans hcovers⟩
    | value v => exact ih hp h.itself_inv

end

end Condition

theorem Capture.mem_nodes_of_node? {t : SyntaxTree} {x : Capture t} {m : Node t}
    (h : x.node? = some m) : m ∈ x.nodes := by
  cases x with
  | single c =>
    cases c with
    | node k =>
      obtain rfl : k = m := Option.some.inj h
      exact List.mem_singleton_self k
    | value v => cases h
  | many cs => cases h

/-- **A pattern that does not go to the parent of a node captures only what it matches and what stands
below that.** -/
theorem Compiled.covers_of_node? {p : Pattern} (w : Compiled p) (hw : w.condition.looksUp = false)
    {t : SyntaxTree} {n m : Node t} {caps : Captures t} (hm : p.match? n = some caps) {slot : Nat}
    (hslot : caps.node? slot = some m) : n.Covers m := by
  obtain ⟨d, hd, hcaps⟩ := w.exists_derives hm
  obtain ⟨x, hx, hnode⟩ := Option.bind_eq_some_iff.1 hslot
  rw [hcaps] at hx
  obtain ⟨before, after, hbindings, -⟩ := Captures.lastOf_eq_some_iff.1 hx
  have hmem : (⟨slot, x⟩ : Binding t) ∈ d.bindings := by
    rw [hbindings]
    exact List.mem_append_right _ List.mem_cons_self
  have hnodes := Capture.mem_nodes_of_node? hnode
  obtain ⟨k, hk, hcovers⟩ := Condition.bindsBelow_of_derives hw hd _ hmem m hnodes
  obtain rfl := NodeChild.node.inj hk
  exact hcovers

end Pattern

end RubyLint
