import RubyLint.Proofs.Pattern.Captures
import RubyLint.Proofs.Pattern.Parsing
import RubyLint.Proofs.Pattern.Relabel

/-!
# What a name finds

A name stands for a slot, that of the capture which is written first with the name, and branches of a
union share their slots.  The captures that a match goes through are therefore looked at in the
condition in which each has a number of its own (`Phrase.numbered`).

* `named?_of_matchChild`   a name finds what was bound last to the slot of the first capture of that
                           name; if the name has the slot for itself, that is what a capture of the
                           name has bound;
* `named?_of_otherBranch`  a name that does not have its slot for itself finds what another bound.
-/

namespace RubyLint.Pattern

namespace Captures

variable {t : SyntaxTree} {bs : List (Binding t)}

/-- what has been bound last of the captures of some numbers -/
def lastWhere (bs : List (Binding t)) (number : Nat → Bool) : Option (Capture t) :=
  (bs.reverse.find? fun b => number b.slot).map Binding.capture

theorem lastWhere_congr {number number' : Nat → Bool} (h : ∀ k, number k = number' k) :
    lastWhere bs number = lastWhere bs number' := by
  rw [show number = number' from funext h]

/-- nothing is found if nothing has been bound by these captures, and only then -/
theorem lastWhere_eq_none_iff {number : Nat → Bool} :
    lastWhere bs number = none ↔ ∀ b ∈ bs, number b.slot = false := by
  unfold lastWhere
  rw [Option.map_eq_none_iff, List.find?_eq_none]
  constructor
  · exact fun h b hb => Bool.eq_false_iff.2 (h b (List.mem_reverse.2 hb))
  · exact fun h b hb => Bool.eq_false_iff.1 (h b (List.mem_reverse.1 hb))

theorem lastOf_relabel (f : Nat → Nat) (slot : Nat) :
    lastOf (bs.map fun b => (⟨f b.slot, b.capture⟩ : Binding t)) slot =
      lastWhere bs fun k => f k == slot := by
  unfold lastOf lastWhere
  rw [← List.map_reverse, List.find?_map, Option.map_map]
  rfl

theorem AreThoseOf.get?_eq {caps : Captures t} {d : Derivation t} {count : Nat}
    (h : caps.AreThoseOf d count) (slot : Nat) : caps.get? slot = lastOf d.bindings slot := by
  refine Option.ext fun x => ?_
  rw [h.get?_eq_some_iff, lastOf_eq_some_iff]

end Captures

namespace Phrase

/-- the capture with the number has the slot -/
def hasSlot (d : Phrase) (slot number : Nat) : Bool :=
  (d.written 0)[number]?.any fun w => w.slot == slot

/-- the capture with the number has the name -/
def isNamed (d : Phrase) (name : String) (number : Nat) : Bool :=
  (d.written 0)[number]?.any fun w => w.name == some name

/-- The captures of the name have one slot and share it with no other capture. -/
def KeepsApart (d : Phrase) (name : String) : Prop :=
  ∀ w ∈ d.written 0, w.name = some name → ∀ v ∈ d.written 0, v.slot = w.slot ↔ v.name = some name

theorem KeepsApart.hasSlot_eq {d : Phrase} {name : String} (h : d.KeepsApart name) {w : Written}
    (hw : w ∈ d.written 0) (hname : w.name = some name) (number : Nat) :
    d.hasSlot w.slot number = d.isNamed name number := by
  unfold hasSlot isNamed
  cases hv : (d.written 0)[number]? with
  | none => rfl
  | some v =>
    have hiff := h w hw hname v (List.mem_of_getElem? hv)
    show (v.slot == w.slot) = (v.name == some name)
    rw [Bool.eq_iff_iff, beq_iff_eq, beq_iff_eq]
    exact hiff

theorem isNamed_of_find? {d : Phrase} {name : String}
    (h : ((d.written 0).find? fun w => w.name == some name) = none) (number : Nat) :
    d.isNamed name number = false := by
  unfold isNamed
  cases hv : (d.written 0)[number]? with
  | none => rfl
  | some v =>
    have hnot := List.find?_eq_none.1 h v (List.mem_of_getElem? hv)
    exact Bool.eq_false_iff.2 hnot

theorem exists_fresh (ws : List Written) : ∃ k, ∀ w ∈ ws, w.slot < k := by
  induction ws with
  | nil => exact ⟨0, fun w hw => absurd hw List.not_mem_nil⟩
  | cons w ws ih =>
    obtain ⟨k, hk⟩ := ih
    refine ⟨k + w.slot + 1, List.forall_mem_cons.2 ⟨by omega, fun v hv => ?_⟩⟩
    have hlt := hk v hv
    omega

/-- the numbers of a phrase can be renamed to its slots so that nothing else gets one of them -/
theorem exists_renaming (d : Phrase) : ∃ f, Numbers f 0 (d.written 0) ∧
    ∀ w ∈ d.written 0, ∀ number, (f number == w.slot) = d.hasSlot w.slot number := by
  obtain ⟨fresh, hfresh⟩ := exists_fresh (d.written 0)
  refine ⟨fun k => ((d.written 0)[k]?.map Written.slot).getD fresh, ?_, fun w hw number => ?_⟩
  · refine numbers_iff.2 fun i w hi => ?_
    rw [Nat.zero_add, hi]
    rfl
  · show (((d.written 0)[number]?.map Written.slot).getD fresh == w.slot) =
      (d.written 0)[number]?.any fun v => v.slot == w.slot
    cases (d.written 0)[number]? with
    | some v => rfl
    | none =>
      have hne : fresh ≠ w.slot := Nat.ne_of_gt (hfresh w hw)
      exact beq_eq_false_iff_ne.2 hne

end Phrase

theorem names_of_matchChild {p : Pattern} {params : List Param} {t : SyntaxTree} {c : NodeChild t}
    {caps : Captures t} (hm : p.matchChild params c = some caps) : caps.names = p.names := by
  obtain ⟨log, -, rfl⟩ := attempt_of_matchChild hm
  rfl

theorem exists_numbered_of_matchChild {source : String} {env : Environment} {p : Pattern}
    (h : compile source env = .ok p) {d : Phrase} (hd : p.condition = d.toCondition env false 0)
    {params : List Param} {t : SyntaxTree} {c : NodeChild t} {caps : Captures t}
    (hm : p.matchChild params c = some caps) :
    ∃ e, (d.numbered env false 0).Derives ⟨env, params⟩ c e ∧
      (∀ e', (d.numbered env false 0).Derives ⟨env, params⟩ c e' → e' = e) ∧
      ∀ w ∈ d.written 0, caps.get? w.slot = Captures.lastWhere e.bindings (d.hasSlot w.slot) := by
  obtain ⟨f, hnumbers, hslots⟩ := d.exists_renaming
  obtain ⟨e', he', hunique, hcaps⟩ := exists_derivation_of_matchChild h hm
  have hrelabel : (d.numbered env false 0).relabel f = p.condition :=
    (relabel_numbered d false 0 0 hnumbers).trans hd.symm
  have hholds : (d.numbered env false 0).Holds ⟨env, params⟩ c := by
    rw [← Condition.holds_relabel, hrelabel]
    exact he'.holds
  obtain ⟨e, he⟩ := Condition.exists_derives_iff.2 hholds
  have hsame : e.relabel f = e' := by
    have hrenamed := Condition.derives_relabel (f := f) _ c e he
    rw [hrelabel] at hrenamed
    exact hunique _ hrenamed
  refine ⟨e, he, fun _ h' => Condition.derives_unique h' he, fun w hw => ?_⟩
  rw [hcaps.get?_eq, ← hsame, Derivation.bindings_relabel, Captures.lastOf_relabel]
  exact Captures.lastWhere_congr (hslots w hw)

/-- **What a name finds.**  It is what has been bound last by a capture with the slot of the first
capture of that name.  If the captures of the name have one slot and share it with no other, it is
what has been bound last by a capture of the name, and nothing if none has bound anything. -/
theorem named?_of_matchChild {source : String} {tokens : List Placed} {env : Environment}
    {p : Pattern} (hs : Token.scan source.toList = .ok tokens) (h : compile source env = .ok p)
    {params : List Param} {t : SyntaxTree} {c : NodeChild t} {caps : Captures t}
    (hm : p.matchChild params c = some caps) :
    ∃ (d : Phrase) (e : Derivation t), Spells d tokens [] ∧ (∀ d', Spells d' tokens [] → d' = d) ∧
      (d.numbered env false 0).Derives ⟨env, params⟩ c e ∧
      (∀ e', (d.numbered env false 0).Derives ⟨env, params⟩ c e' → e' = e) ∧
      ∀ name,
        caps.named? name = (((d.written 0).find? fun w => w.name == some name).bind fun w =>
          Captures.lastWhere e.bindings (d.hasSlot w.slot)) ∧
        (d.KeepsApart name →
          caps.named? name = Captures.lastWhere e.bindings (d.isNamed name)) := by
  obtain ⟨d, hd, -, hcondition, -, hnames⟩ := exists_phrase_of_compile hs h
  obtain ⟨e, he, hunique, hget⟩ := exists_numbered_of_matchChild h hcondition hm
  refine ⟨d, e, hd, fun d' hd' => (spells_unique hd' hd).1, he, hunique, fun name => ?_⟩
  have hfound : caps.named? name = (((d.written 0).find? fun w => w.name == some name).bind fun w =>
      Captures.lastWhere e.bindings (d.hasSlot w.slot)) := by
    unfold Captures.named?
    rw [names_of_matchChild hm, hnames, find?_addNames, List.find?_nil, Option.none_or]
    cases hfirst : (d.written 0).find? fun w => w.name == some name with
    | none => rfl
    | some w => exact hget w (List.mem_of_find?_eq_some hfirst)
  refine ⟨hfound, fun hapart => ?_⟩
  rw [hfound]
  cases hfirst : (d.written 0).find? fun w => w.name == some name with
  | none => exact (Captures.lastWhere_eq_none_iff.2 fun b _ => d.isNamed_of_find? hfirst b.slot).symm
  | some w =>
    have hw := List.mem_of_find?_eq_some hfirst
    have hname := List.find?_some hfirst
    exact Captures.lastWhere_congr (hapart.hasSlot_eq hw (beq_iff_eq.1 hname))

/-! ## one union, two names -/

/-- the call of a method on what another call without arguments returns -/
def chainedCall : SyntaxTree :=
  SyntaxTree.ofNode "x.bar" .send ⟨0, 5⟩ Loc.none
    [.node .send ⟨0, 1⟩ Loc.none [.value .nil, .value (.sym "x")], .value (.sym "bar")]

def namedCall (name method : String) : Phrase :=
  .sequence (.leaf (.word "send"))
    [.item true (.leaf (.word name)) none, .item false (.leaf (.sym method)) none]

theorem spells_leaf {t : Placed} {token : Token} {rest : List Placed} (ht : t.token = token)
    (h : token.isLeaf = true) : Spells (.leaf token) (t :: rest) rest := by
  subst ht
  exact .leaf h

theorem spells_namedCall {o h s a l c : Placed} {name method : String} {rest : List Placed}
    (ho : o.token = .openParen) (hh : h.token = .word "send") (hs : s.token = .dollar)
    (ha : a.token = .word name) (hl : l.token = .sym method) (hc : c.token = .closeParen) :
    Spells (namedCall name method) (o :: h :: s :: a :: l :: c :: rest) rest := by
  have hdollar : l.token ≠ .dollar := fun hd => nomatch hl.symm.trans hd
  have hcapture : SpellsPart (.item true (.leaf (.word name)) none)
      (s :: a :: l :: c :: rest) (l :: c :: rest) := .capturedItem hs (spells_leaf ha rfl) .none
  have hmethod : SpellsPart (.item false (.leaf (.sym method)) none) (l :: c :: rest) (c :: rest) :=
    .item hdollar (spells_leaf hl rfl) .none
  exact .sequence ho (spells_leaf hh rfl) (.cons hcapture (.cons hmethod .nil)) hc

def placedCalls (name : String) : List Placed := [
  ⟨.openBrace, 0, 1⟩,
  ⟨.openParen, 1, 2⟩, ⟨.word "send", 2, 6⟩, ⟨.dollar, 7, 8⟩, ⟨.word "_a", 8, 10⟩,
  ⟨.sym "foo", 11, 15⟩, ⟨.closeParen, 15, 16⟩,
  ⟨.openParen, 17, 18⟩, ⟨.word "send", 18, 22⟩, ⟨.dollar, 23, 24⟩, ⟨.word name, 24, 26⟩,
  ⟨.sym "bar", 27, 31⟩, ⟨.closeParen, 31, 32⟩,
  ⟨.closeBrace, 32, 33⟩]

theorem spells_placedCalls (name : String) :
    Spells (.union [namedCall "_a" "foo", namedCall name "bar"]) (placedCalls name) [] :=
  .union rfl (List.cons_ne_nil _ _)
    (.cons (spells_namedCall rfl rfl rfl rfl rfl rfl)
      (.cons (spells_namedCall rfl rfl rfl rfl rfl rfl) .nil)) rfl

theorem scan_eq_ok {cs : List Char} {tokens : List Placed}
    (h : (Token.scan cs).toOption = some tokens) : Token.scan cs = .ok tokens := by
  cases hs : Token.scan cs with
  | error e =>
    rw [hs] at h
    cases h
  | ok tokens' =>
    rw [hs] at h
    cases h
    rfl

/-- a name that both branches have -/
theorem chainedCall_named? : ∃ tokens p caps,
    Token.scan "{(send $_a :foo) (send $_a :bar)}".toList = .ok tokens ∧
    compile "{(send $_a :foo) (send $_a :bar)}" .empty = .ok p ∧
    p.matchChild [] (.node chainedCall.rootNode) = some caps ∧
    ∃ (d : Phrase) (e : Derivation chainedCall), Spells d tokens [] ∧
      (d.numbered .empty false 0).Derives ⟨.empty, []⟩ (.node chainedCall.rootNode) e ∧
      d.KeepsApart "a" ∧ caps.named? "a" = Captures.lastWhere e.bindings (d.isNamed "a") := by
  have hs : Token.scan "{(send $_a :foo) (send $_a :bar)}".toList = .ok (placedCalls "_a") :=
    scan_eq_ok (by decide +kernel)
  obtain ⟨p, hp, hcheck⟩ : ∃ p, compile "{(send $_a :foo) (send $_a :bar)}" .empty = .ok p ∧
      (p.matchChild [] (.node chainedCall.rootNode)).isSome = true :=
    exists_compile (fun p => (p.matchChild [] (.node chainedCall.rootNode)).isSome)
      (by decide +kernel)
  obtain ⟨caps, hm⟩ := Option.isSome_iff_exists.1 hcheck
  obtain ⟨d, e, hd, honly, he, -, hnames⟩ := named?_of_matchChild hs hp hm
  have hapart : d.KeepsApart "a" := by
    rw [← honly _ (spells_placedCalls "_a")]
    show ∀ w ∈ Phrase.written (.union [namedCall "_a" "foo", namedCall "_a" "bar"]) 0, _
    decide
  exact ⟨_, p, caps, hs, hp, hm, d, e, hd, he, hapart, (hnames "a").2 hapart⟩

/-- a union whose branches have different names for the receiver -/
def eitherCall : Phrase := .union [namedCall "_a" "foo", namedCall "_b" "bar"]

theorem not_holds_firstBranch : ¬ (Condition.exactly (.kind .send)
    [.capture 0 .wildcard, .literal (.sym "foo")]).Holds ⟨.empty, []⟩
      (.node chainedCall.rootNode) := by
  have hmethod : (chainedCall.rootNode.children[1]?.bind NodeChild.asValue?) = some (.sym "bar") := by
    decide +kernel
  intro h
  obtain ⟨-, c, rest, hc, -, m, more, rfl, ⟨w, rfl, hsame⟩, rfl⟩ := Condition.holds_exactly_node.1 h
  rw [hc] at hmethod
  cases hmethod
  exact absurd hsame (by decide)

/-- the union holds of the call by its second branch, so only the second capture is bound -/
theorem bindings_chainedCall {e : Derivation chainedCall}
    (h : (eitherCall.numbered .empty false 0).Derives ⟨.empty, []⟩ (.node chainedCall.rootNode) e) :
    ∀ b ∈ e.bindings, b.slot = 1 := by
  have hcondition : eitherCall.numbered .empty false 0 =
      .union [.exactly (.kind .send) [.capture 0 .wildcard, .literal (.sym "foo")],
        .exactly (.kind .send) [.capture 1 .wildcard, .literal (.sym "bar")]] := rfl
  rw [hcondition] at h
  obtain ⟨branch, hbranch, hd⟩ := h.union_inv
  have hsecond : branch = .exactly (.kind .send) [.capture 1 .wildcard, .literal (.sym "bar")] := by
    cases hbranch with
    | here hfirst => exact absurd hfirst not_holds_firstBranch
    | later _ hrest => exact List.mem_singleton.1 hrest.mem
  rw [hsecond] at hd
  obtain ⟨n, head, ds, -, hhead, hds, rfl⟩ := hd.exactly_inv
  obtain ⟨c, _, receiver, _, -, rfl, hreceiver, hrest⟩ := hds.cons_inv
  obtain ⟨_, _, method, _, -, rfl, hmethod, hnil⟩ := hrest.cons_inv
  obtain ⟨inner, hinner, rfl⟩ := hreceiver.capture_inv
  obtain rfl := (Condition.Derives.plain_inv (by trivial) hhead).2
  obtain rfl := (Condition.Derives.plain_inv (by trivial) hinner).2
  obtain rfl := (Condition.Derives.plain_inv (by trivial) hmethod).2
  obtain rfl := hnil.nil_inv.2
  intro b hb
  obtain rfl := List.mem_singleton.1 (show b ∈ [(⟨1, .single c⟩ : Binding chainedCall)] from hb)
  rfl

/-- **A name finds what another has bound.**  No capture of the first name takes part in the match,
and yet the name finds something. -/
theorem named?_of_otherBranch : ∃ tokens p caps e,
    Token.scan "{(send $_a :foo) (send $_b :bar)}".toList = .ok tokens ∧
    compile "{(send $_a :foo) (send $_b :bar)}" .empty = .ok p ∧
    p.matchChild [] (.node chainedCall.rootNode) = some caps ∧
    Spells eitherCall tokens [] ∧
    (eitherCall.numbered .empty false 0).Derives ⟨.empty, []⟩ (.node chainedCall.rootNode) e ∧
    (∀ b ∈ e.bindings, eitherCall.isNamed "a" b.slot = false) ∧
    (caps.named? "a").isSome = true := by
  have hs : Token.scan "{(send $_a :foo) (send $_b :bar)}".toList = .ok (placedCalls "_b") :=
    scan_eq_ok (by decide +kernel)
  have hspells : Spells eitherCall (placedCalls "_b") [] := spells_placedCalls "_b"
  obtain ⟨p, hp, hcheck⟩ : ∃ p, compile "{(send $_a :foo) (send $_b :bar)}" .empty = .ok p ∧
      ((p.matchChild [] (.node chainedCall.rootNode)).any fun caps =>
        (caps.named? "a").isSome) = true :=
    exists_compile (fun p => (p.matchChild [] (.node chainedCall.rootNode)).any fun caps =>
      (caps.named? "a").isSome) (by decide +kernel)
  rw [Option.any_eq_true] at hcheck
  obtain ⟨caps, hm, hnamed⟩ := hcheck
  obtain ⟨d, hd, -, hcondition, -⟩ := exists_phrase_of_compile hs hp
  obtain rfl : d = eitherCall := (spells_unique hd hspells).1
  obtain ⟨e, he, -, -⟩ := exists_numbered_of_matchChild hp hcondition hm
  refine ⟨_, p, caps, e, hs, hp, hm, hspells, he, fun b hb => ?_, hnamed⟩
  rw [bindings_chainedCall he b hb]
  decide

end RubyLint.Pattern
